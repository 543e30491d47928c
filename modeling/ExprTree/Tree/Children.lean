import ExprTree.Tree.Basic

/-!
# Children

`Node.children` lists the direct sub-expressions of a node in evaluation order; trees carried inside
constants are data and are not entered. All questions about a whole tree are answered through
`Expr.fold`, which combines the answers of the children, and `Expr.nodes` lists every node that can
be reached through children.

`Expr.sizeOf_lt_of_mem_children` is what makes recursion through children well founded.
-/

namespace ExprTree

mutual

/-- The expressions in a binding, in order. -/
def Binding.exprs {α : Type} : Binding α → List α
  | .assign _ e => [e]
  | .nested _ bs => Binding.exprsOfAll bs
  | .elements _ es => es.flatMap (·.args)

/-- The expressions in a list of bindings, in order. -/
def Binding.exprsOfAll {α : Type} : List (Binding α) → List α
  | [] => []
  | b :: bs => b.exprs ++ Binding.exprsOfAll bs

end

namespace Node

/-- The direct sub-expressions of a node, in evaluation order. -/
def children : Node → List Expr
  | .unary _ e _ _ => [e]
  | .binary _ l r c _ _ _ => l :: r :: c.toList
  | .typeIs e _ => [e]
  | .conditional t a b _ => [t, a, b]
  | .constant .. | .variable _ | .extension .. => []
  | .memberAccess o _ => o.toList
  | .call o _ args => o.toList ++ args
  | .lambda _ body _ => [body]
  | .construct c => c.args
  | .newArray _ _ items => items
  | .invocation t args _ => t :: args
  | .memberInit c bs => c.args ++ Binding.exprsOfAll bs
  | .listInit c es => c.args ++ es.flatMap (·.args)

end Node

/-- The direct sub-expressions of an expression. -/
def Expr.children (e : Expr) : List Expr := e.node.children

/-! ## Children are smaller -/

theorem Construct.sizeOf_lt_of_mem {e : Expr} {c : Construct Expr} (h : e ∈ c.args) :
    sizeOf e < sizeOf c := by
  have := List.sizeOf_lt_of_mem h
  cases c
  simp only [Construct.mk.sizeOf_spec] at this ⊢
  omega

theorem ElementInit.sizeOf_lt_of_mem {e : Expr} {es : List (ElementInit Expr)}
    (h : e ∈ es.flatMap (·.args)) : sizeOf e < sizeOf es := by
  obtain ⟨i, hi, he⟩ := List.mem_flatMap.1 h
  have h₁ := List.sizeOf_lt_of_mem hi
  have h₂ := List.sizeOf_lt_of_mem he
  cases i
  simp only [ElementInit.mk.sizeOf_spec] at h₁ h₂ ⊢
  omega

mutual

theorem Binding.sizeOf_lt_of_mem_exprs {e : Expr} :
    ∀ {b : Binding Expr}, e ∈ b.exprs → sizeOf e < sizeOf b
  | .assign _ x, h => by
    have h : e = x := by simpa only [Binding.exprs, List.mem_singleton] using h
    simp only [h, Binding.assign.sizeOf_spec]
    omega
  | .nested _ bs, h => by
    have h : e ∈ Binding.exprsOfAll bs := by simpa only [Binding.exprs] using h
    have := Binding.sizeOf_lt_of_mem_exprsOfAll h
    simp only [Binding.nested.sizeOf_spec]
    omega
  | .elements _ es, h => by
    have h : e ∈ es.flatMap (·.args) := by simpa only [Binding.exprs] using h
    have := ElementInit.sizeOf_lt_of_mem h
    simp only [Binding.elements.sizeOf_spec]
    omega

theorem Binding.sizeOf_lt_of_mem_exprsOfAll {e : Expr} :
    ∀ {bs : List (Binding Expr)}, e ∈ Binding.exprsOfAll bs → sizeOf e < sizeOf bs
  | [], h => by simp only [Binding.exprsOfAll, List.not_mem_nil] at h
  | b :: bs, h => by
    have h : e ∈ b.exprs ∨ e ∈ Binding.exprsOfAll bs := by
      simpa only [Binding.exprsOfAll, List.mem_append] using h
    simp only [List.cons.sizeOf_spec]
    rcases h with h | h
    · have := Binding.sizeOf_lt_of_mem_exprs h
      omega
    · have := Binding.sizeOf_lt_of_mem_exprsOfAll h
      omega

end

theorem Expr.sizeOf_lt_of_mem_toList {e : Expr} {o : Option Expr} (h : e ∈ o.toList) :
    sizeOf e < sizeOf o := by
  cases o with
  | none => simp at h
  | some x =>
    have h : e = x := by simpa using h
    simp only [h, Option.some.sizeOf_spec]
    omega

/-- Every child is smaller than its node. -/
theorem Node.sizeOf_lt_of_mem_children {e : Expr} {n : Node} (h : e ∈ n.children) :
    sizeOf e < sizeOf n := by
  cases n with
  | unary op x =>
    have h : e = x := by simpa only [Node.children, List.mem_singleton] using h
    simp only [h, Node.unary.sizeOf_spec]
    omega
  | binary op l r c =>
    simp only [Node.children, List.mem_cons] at h
    simp only [Node.binary.sizeOf_spec]
    rcases h with rfl | rfl | h
    · omega
    · omega
    · have := Expr.sizeOf_lt_of_mem_toList h
      omega
  | typeIs x =>
    have h : e = x := by simpa only [Node.children, List.mem_singleton] using h
    simp only [h, Node.typeIs.sizeOf_spec]
    omega
  | conditional t a b =>
    simp only [Node.children, List.mem_cons, List.not_mem_nil, or_false] at h
    simp only [Node.conditional.sizeOf_spec]
    rcases h with rfl | rfl | rfl <;> omega
  | constant | «variable» | extension => simp only [Node.children, List.not_mem_nil] at h
  | memberAccess o =>
    have h : e ∈ o.toList := h
    have := Expr.sizeOf_lt_of_mem_toList h
    simp only [Node.memberAccess.sizeOf_spec]
    omega
  | call o m args =>
    simp only [Node.call.sizeOf_spec]
    rcases List.mem_append.1 h with h | h
    · have := Expr.sizeOf_lt_of_mem_toList h
      omega
    · have := List.sizeOf_lt_of_mem h
      omega
  | lambda params x =>
    have h : e = x := by simpa only [Node.children, List.mem_singleton] using h
    simp only [h, Node.lambda.sizeOf_spec]
    omega
  | construct c =>
    have h : e ∈ c.args := h
    have := Construct.sizeOf_lt_of_mem h
    simp only [Node.construct.sizeOf_spec]
    omega
  | newArray k t items =>
    have h : e ∈ items := h
    have := List.sizeOf_lt_of_mem h
    simp only [Node.newArray.sizeOf_spec]
    omega
  | invocation t args =>
    simp only [Node.children, List.mem_cons] at h
    simp only [Node.invocation.sizeOf_spec]
    rcases h with rfl | h
    · omega
    · have := List.sizeOf_lt_of_mem h
      omega
  | memberInit c bs =>
    simp only [Node.memberInit.sizeOf_spec]
    rcases List.mem_append.1 h with h | h
    · have := Construct.sizeOf_lt_of_mem h
      omega
    · have := Binding.sizeOf_lt_of_mem_exprsOfAll h
      omega
  | listInit c es =>
    simp only [Node.listInit.sizeOf_spec]
    rcases List.mem_append.1 h with h | h
    · have := Construct.sizeOf_lt_of_mem h
      omega
    · have := ElementInit.sizeOf_lt_of_mem h
      omega

/-- Every child is smaller than its expression. -/
theorem Expr.sizeOf_lt_of_mem_children {c e : Expr} (h : c ∈ e.children) :
    sizeOf c < sizeOf e := by
  cases e with
  | mk l n =>
    have h : c ∈ n.children := h
    have := Node.sizeOf_lt_of_mem_children h
    simp only [Expr.mk.sizeOf_spec]
    omega

/-! ## Folding over a tree -/

namespace Expr

/-- Combines the answers of the children at every node. -/
def fold {β : Type} (f : Expr → List β → β) (e : Expr) : β :=
  f e (e.children.attach.map fun c => fold f c.1)
termination_by sizeOf e
decreasing_by exact sizeOf_lt_of_mem_children c.2

theorem fold_eq {β : Type} (f : Expr → List β → β) (e : Expr) :
    e.fold f = f e (e.children.map (·.fold f)) := by
  rw [fold, List.attach_map_val]

/-- Everything that holds of a node once it holds of its children holds of every tree. -/
theorem childInduction {P : Expr → Prop} (step : ∀ e, (∀ c ∈ e.children, P c) → P e) (e : Expr) :
    P e :=
  step e fun c _ => childInduction step c
termination_by sizeOf e
decreasing_by exact sizeOf_lt_of_mem_children ‹_›

/-- All nodes reachable through children, a node before the nodes below it. -/
def nodes : Expr → List Expr := fold fun e below => e :: below.flatten

theorem nodes_eq (e : Expr) : e.nodes = e :: (e.children.map nodes).flatten := fold_eq _ e

/-- The number of nodes reachable through children, every occurrence counted. -/
def countNodes : Expr → Nat := fold fun _ counts => 1 + counts.foldr (· + ·) 0

/-- The number of nodes on the longest chain of nested children. -/
def height : Expr → Nat := fold fun _ heights => 1 + heights.foldr max 0

theorem countNodes_eq (e : Expr) :
    e.countNodes = 1 + (e.children.map countNodes).foldr (· + ·) 0 := fold_eq _ e

theorem height_eq (e : Expr) : e.height = 1 + (e.children.map height).foldr max 0 := fold_eq _ e

end Expr

end ExprTree
