import ExprTree.Proofs.PrintedText
import ExprTree.Proofs.Variables

/-!
# Legible trees

Not every tree can be written in the tree language: there are no words for a conversion at an
operator, a method at an operator, or a marker call of an odd shape, and a name may not be an
identifier. `Node.Legible` says of one node that it can be written, where a type that follows from
the parts may be any type, since it is not written.

What is written at an expression lies inside it: its children, and the tree that it carries as data.
The trees in a closure are not, they stand with the declaration of the closure. So nesting, binders
and references are counted over `Expr.inner`.
-/

namespace ExprTree

/-! ## What is written inside an expression -/

namespace Node

/-- The closure that a constant refers to. -/
def reference : Node → List (Closure Value)
  | .constant (.closure c) _ => [c]
  | _ => []

theorem mem_captured {n : Node} {t : Expr} :
    t ∈ n.captured ↔ ∃ c ∈ n.reference, t ∈ c.trees := by
  cases n with
  | constant v ty => cases v <;> simp [captured, reference]
  | _ => simp [captured, reference]

end Node

namespace Expr

variable {β : Type}

/-- The expressions that are written at an expression: its children and the tree it carries. -/
def inner (e : Expr) : List Expr := e.children ++ e.node.quoted

theorem mem_parts_of_mem_inner {c e : Expr} (h : c ∈ e.inner) : c ∈ e.parts :=
  (List.mem_append.1 h).elim mem_parts_of_mem_children fun hc =>
    List.mem_append_right _ (Node.mem_payload.2 (.inl hc))

theorem sizeOf_lt_of_mem_inner {c e : Expr} (h : c ∈ e.inner) : sizeOf c < sizeOf e :=
  sizeOf_lt_of_mem_parts (mem_parts_of_mem_inner h)

/-- What holds of an expression once it holds of all that is written inside holds of every tree. -/
theorem innerInduction {P : Expr → Prop} (step : ∀ e, (∀ c ∈ e.inner, P c) → P e) (e : Expr) : P e :=
  step e fun c _ => innerInduction step c
termination_by sizeOf e
decreasing_by exact sizeOf_lt_of_mem_inner ‹_›

/-- Combines the answers of what is written inside an expression. -/
def foldInner (f : Expr → List β → β) (e : Expr) : β :=
  f e (e.inner.attach.map fun c => foldInner f c.1)
termination_by sizeOf e
decreasing_by exact sizeOf_lt_of_mem_inner c.2

theorem foldInner_eq (f : Expr → List β → β) (e : Expr) :
    e.foldInner f = f e (e.inner.map (·.foldInner f)) := by
  rw [foldInner, List.attach_map_val]

/-- Collects what a function finds at the nodes of a tree, a node before what is inside it. -/
def gather (f : Node → List β) : Expr → List β := foldInner fun e below => f e.node ++ below.flatten

theorem gather_eq (f : Node → List β) (e : Expr) :
    e.gather f = f e.node ++ e.inner.flatMap (gather f) := by
  rw [List.flatMap_def]
  exact foldInner_eq _ e

/-- The expression is written somewhere inside the tree. -/
inductive Inside (a : Expr) : Expr → Prop
  | here : Inside a a
  | inner {c e : Expr} (mem : c ∈ e.inner) (inside : Inside a c) : Inside a e

theorem Inside.within {a e : Expr} (h : a.Inside e) : a.Within e := by
  induction h with
  | here => exact .here a
  | inner hc _ ih => exact .part (mem_parts_of_mem_inner hc) ih

theorem mem_gather {f : Node → List β} {e : Expr} {b : β} :
    b ∈ e.gather f ↔ ∃ a : Expr, a.Inside e ∧ b ∈ f a.node := by
  induction e using innerInduction with
  | step e ih =>
    rw [gather_eq, List.mem_append, List.mem_flatMap]
    constructor
    · rintro (hb | ⟨c, hc, hb⟩)
      · exact ⟨e, .here, hb⟩
      · obtain ⟨a, ha, hb⟩ := (ih c hc).1 hb
        exact ⟨a, .inner hc ha, hb⟩
    · rintro ⟨a, ha, hb⟩
      cases ha with
      | here => exact .inl hb
      | inner hc ha => exact .inr ⟨_, hc, (ih _ hc).2 ⟨a, ha, hb⟩⟩

theorem mem_gather_of_inner {f : Node → List β} {c e : Expr} {b : β} (hc : c ∈ e.inner)
    (hb : b ∈ c.gather f) : b ∈ e.gather f := by
  rw [gather_eq]
  exact List.mem_append_right _ (List.mem_flatMap.2 ⟨c, hc, hb⟩)

theorem mem_gather_here {f : Node → List β} {e : Expr} {b : β} (hb : b ∈ f e.node) :
    b ∈ e.gather f := by
  rw [gather_eq]
  exact List.mem_append_left _ hb

/-- The number of levels on which expressions nest. -/
def nesting : Expr → Nat := foldInner fun _ below => 1 + below.foldr max 0

theorem nesting_pos (e : Expr) : 0 < e.nesting := by
  have he : e.nesting = 1 + (e.inner.map nesting).foldr max 0 := foldInner_eq _ e
  omega

theorem nesting_lt_of_mem_inner {c e : Expr} (h : c ∈ e.inner) : c.nesting < e.nesting := by
  have hc := le_foldr_max (List.mem_map_of_mem (f := nesting) h)
  have he : e.nesting = 1 + (e.inner.map nesting).foldr max 0 := foldInner_eq _ e
  omega

theorem nesting_le {e : Expr} {levels : Nat} (h : ∀ c ∈ e.inner, c.nesting ≤ levels) :
    e.nesting ≤ levels + 1 := by
  have he : e.nesting = 1 + (e.inner.map nesting).foldr max 0 := foldInner_eq _ e
  have hbelow : (e.inner.map nesting).foldr max 0 ≤ levels := foldr_max_le_iff.2 fun n hn => by
    obtain ⟨c, hc, rfl⟩ := List.mem_map.1 hn
    exact h c hc
  omega

/-- The parameters of all lambdas, in the order in which they are written. -/
def binders : Expr → List Variable := gather Node.params

/-- The closures that the constants refer to. -/
def references : Expr → List (Closure Value) := gather Node.reference

end Expr

/-! ## Members and types at a node -/

namespace Binding

variable {α : Type}

mutual

/-- The members that a binding names. -/
def members : Binding α → List Member
  | .assign m _ => [m]
  | .nested m bs => m :: membersOfAll bs
  | .elements m _ => [m]

/-- The members that bindings name. -/
def membersOfAll : List (Binding α) → List Member
  | [] => []
  | b :: bs => b.members ++ membersOfAll bs

end

mutual

/-- The `Add` methods that a binding names. -/
def addMethods : Binding α → List Method
  | .assign .. => []
  | .nested _ bs => addMethodsOfAll bs
  | .elements _ es => es.map (·.addMethod)

/-- The `Add` methods that bindings name. -/
def addMethodsOfAll : List (Binding α) → List Method
  | [] => []
  | b :: bs => b.addMethods ++ addMethodsOfAll bs

end

theorem membersOfAll_eq (bs : List (Binding α)) : membersOfAll bs = bs.flatMap members := by
  induction bs with
  | nil => rfl
  | cons b bs ih => rw [membersOfAll, ih, List.flatMap_cons]

theorem addMethodsOfAll_eq (bs : List (Binding α)) : addMethodsOfAll bs = bs.flatMap addMethods := by
  induction bs with
  | nil => rfl
  | cons b bs ih => rw [addMethodsOfAll, ih, List.flatMap_cons]

theorem exprsOfAll_eq (bs : List (Binding α)) : exprsOfAll bs = bs.flatMap exprs := by
  induction bs with
  | nil => rfl
  | cons b bs ih => rw [exprsOfAll, ih, List.flatMap_cons]

end Binding

namespace Node

/-- The members that a node names. -/
def members : Node → List Member
  | .memberAccess _ m => [m]
  | .construct c | .listInit c _ => c.members.getD []
  | .memberInit c bs => c.members.getD [] ++ Binding.membersOfAll bs
  | _ => []

/-- The `Add` methods that a node names. -/
def addMethods : Node → List Method
  | .memberInit _ bs => Binding.addMethodsOfAll bs
  | .listInit _ es => es.map (·.addMethod)
  | _ => []

/-- The return type that is written at a call. A marker call of the right shape declares it only where
its parts imply another one. -/
def callTys (m : Method) (object : Option Expr) (args : List Expr) : List Ty :=
  match m.marker, object, args with
  | some .invoke, none, target :: _ => (Doc.written m.ret target.ty.callResult).toList
  | some .asExpandable, none, [query] => (Doc.written m.ret query.ty).toList
  | some .compile, some tree, [] => (Doc.written m.ret tree.ty.delegate).toList
  | _, _, _ => [m.ret]

/-- The types that are written at a node besides those of its members, where the type of a variable is
written at its declaration. -/
def ownTys : Node → List Ty
  | .unary op e ty _ => if op.takesType then [ty] else (Doc.written ty (op.resultType e.ty)).toList
  | .binary op l r _ _ _ ty => (Doc.written ty (op.resultType l.ty r.ty)).toList
  | .conditional _ a _ ty => (Doc.written ty a.ty).toList
  | .constant v ty => if v.isBare ty then [] else [ty]
  | .typeIs _ ty | .newArray _ ty _ | .extension _ ty => [ty]
  | .variable v => [v.ty]
  | .memberAccess .. => []
  | .call o m args => callTys m o args
  | .lambda params body ty => (Doc.written ty (lambdaTy params body)).toList ++ params.map (·.ty)
  | .invocation target _ ty => (Doc.written ty target.ty.callResult).toList
  | .construct c | .memberInit c _ | .listInit c _ => [c.ty]

/-- All types that are written at a node. -/
def tys (n : Node) : List Ty := n.ownTys ++ n.members.map (·.ty)

end Node

/-- The members that are named in a tree. -/
def Expr.members : Expr → List Member := Expr.gather Node.members

/-! ## Legible nodes -/

/-- The method is the one of an element initializer. -/
structure Method.IsAdd (m : Method) : Prop where
  owner : isWord m.owner = true
  name : isWord m.name = true
  isStatic : m.isStatic = false
  ret : m.ret = .unit
  marker : m.marker = none

theorem Method.IsAdd.eq {m : Method} (h : m.IsAdd) :
    { owner := m.owner, name := m.name, isStatic := false, ret := .unit : Method } = m := by
  obtain ⟨owner, name, isStatic, ret, marker⟩ := m
  obtain ⟨-, -, rfl, rfl, rfl⟩ := h
  rfl

/-- The type is the one that the parts imply, or it can be written. -/
def Ty.Declarable (actual implied : Ty) : Prop := actual = implied ∨ actual.isReadable = true

theorem Ty.Declarable.spellable {actual implied : Ty} (h : actual.Declarable implied) :
    ∀ t ∈ Doc.written actual implied, t.Spellable := by
  intro t ht
  unfold Doc.written at ht
  split at ht
  · cases ht
  · next hne =>
    cases ht
    exact Ty.spellable (h.resolve_left hne)

/-- The constructor call can be written; if it lists members, it lists some. -/
structure Construct.Legible (c : Construct Expr) : Prop where
  ty : c.ty.isReadable = true
  members : c.members ≠ some []

/-- The call can be written: a marker call of the shape that its form makes, or a plain call. -/
def Method.CallFormed (m : Method) (object : Option Expr) (args : List Expr) : Prop :=
  match m.marker, object, args with
  | some .invoke, none, target :: _ =>
    m = .ofMarker .invoke m.ret ∧ m.ret.Declarable target.ty.callResult
  | some .asExpandable, none, [query] =>
    m = .ofMarker .asExpandable m.ret ∧ m.ret.Declarable query.ty
  | some .compile, some tree, [] =>
    m = .ofMarker .compile m.ret ∧ m.ret.Declarable tree.ty.delegate
  | none, o, _ => isWord m.owner = true ∧ isWord m.name = true ∧ m.isStatic = o.isNone ∧
    m.ret.isReadable = true
  | _, _, _ => False

/-- Every readable type may be declared on a marker call. -/
theorem Method.CallFormed.withRet {m : Method} {object : Option Expr} {args : List Expr}
    (h : m.CallFormed object args) (hmarker : m.marker.isSome = true) {t : Ty}
    (ht : t.isReadable = true) : { m with ret := t }.CallFormed object args := by
  unfold Method.CallFormed at h ⊢
  split at h
  · next hm =>
    simp only [hm]
    exact ⟨by rw [h.1]; rfl, .inr ht⟩
  · next hm =>
    simp only [hm]
    exact ⟨by rw [h.1]; rfl, .inr ht⟩
  · next hm =>
    simp only [hm]
    exact ⟨by rw [h.1]; rfl, .inr ht⟩
  · next hm =>
    rw [hm] at hmarker
    cases hmarker
  · exact h.elim

/-- What is particular to a kind of node that can be written. -/
def Node.Formed : Node → Prop
  | .unary op e ty m => m = none ∧
    if op.takesType then ty.isReadable = true else ty.Declarable (op.resultType e.ty)
  | .binary op l r c lifted m ty =>
    c = none ∧ lifted = false ∧ m = none ∧ ty.Declarable (op.resultType l.ty r.ty)
  | .typeIs _ ty | .newArray _ ty _ => ty.isReadable = true
  | .conditional _ a _ ty => ty.Declarable a.ty
  | .constant v ty => v.isBare ty = true ∨ ty.isReadable = true
  | .variable v => v.ty.isReadable = true
  | .memberAccess .. => True
  | .call o m args => m.CallFormed o args
  | .lambda params body ty => params.Nodup ∧ (∀ p ∈ params, p.ty.isReadable = true) ∧
    ty.Declarable (Node.lambdaTy params body)
  | .construct c | .memberInit c _ | .listInit c _ => c.Legible
  | .invocation target _ ty => ty.Declarable target.ty.callResult
  | .extension kind ty => isWord kind = true ∧ ty.isReadable = true

/-- The node can be written. -/
structure Node.Legible (n : Node) : Prop where
  formed : n.Formed
  members : ∀ m ∈ n.members, m.isReadable = true
  addMethods : ∀ m ∈ n.addMethods, m.IsAdd
  reference : ∀ c ∈ n.reference, isWord c.name = true

end ExprTree
