import ExprTree.Walk.Basic

/-!
# One visit in two monads

`Node.traverse` visits the children of a node in any monad. If two ways to visit a child are related, and
the relation is one that sequencing keeps, then the visits of all children are related too
(`Sequenced.node`), whatever the node is made of.
-/

namespace ExprTree

/-- A relation between runs in two monads that sequencing keeps. -/
structure Sequenced {m n : Type → Type} [Monad m] [Monad n] (R : (α : Type) → m α → n α → Prop) :
    Prop where
  done : ∀ {α : Type} (a : α), R α (pure a) (pure a)
  next : ∀ {α β : Type} {x : m α} {y : n α} {f : α → m β} {g : α → n β}, R α x y →
    (∀ a, R β (f a) (g a)) → R β (x >>= f) (y >>= g)

namespace Sequenced

variable {m n : Type → Type} [Monad m] [Monad n] {R : (α : Type) → m α → n α → Prop} {α β : Type}

theorem visitList (h : Sequenced R) {xs : List α} {f : (a : α) → a ∈ xs → m β}
    {g : (a : α) → a ∈ xs → n β} (hfg : ∀ a ha, R β (f a ha) (g a ha)) :
    R _ (visitList xs f) (visitList xs g) := by
  induction xs with
  | nil => exact h.done []
  | cons x xs ih =>
    refine h.next (hfg x _) fun b => h.next (ih fun a _ => hfg a _) fun bs => ?_
    exact h.done (b :: bs)

theorem visitOption (h : Sequenced R) {o : Option α} {f : (a : α) → a ∈ o.toList → m β}
    {g : (a : α) → a ∈ o.toList → n β} (hfg : ∀ a ha, R β (f a ha) (g a ha)) :
    R _ (visitOption o f) (visitOption o g) := by
  cases o with
  | none => exact h.done none
  | some a => exact h.next (hfg a _) fun b => h.done (some b)

theorem construct (h : Sequenced R) {c : Construct α} {f : (a : α) → a ∈ c.args → m β}
    {g : (a : α) → a ∈ c.args → n β} (hfg : ∀ a ha, R β (f a ha) (g a ha)) :
    R _ (c.traverse f) (c.traverse g) :=
  h.next (h.visitList hfg) fun _ => h.done _

theorem elements (h : Sequenced R) {es : List (ElementInit α)}
    {f : (a : α) → a ∈ es.flatMap (·.args) → m β} {g : (a : α) → a ∈ es.flatMap (·.args) → n β}
    (hfg : ∀ a ha, R β (f a ha) (g a ha)) :
    R _ (ElementInit.traverseAll es f) (ElementInit.traverseAll es g) := by
  induction es with
  | nil => exact h.done []
  | cons e es ih =>
    refine h.next (h.visitList fun a _ => hfg a _) fun args => ?_
    exact h.next (ih fun a _ => hfg a _) fun rest => h.done _

mutual

theorem binding (h : Sequenced R) : ∀ (b : Binding α) {f : (a : α) → a ∈ b.exprs → m β}
    {g : (a : α) → a ∈ b.exprs → n β}, (∀ a ha, R β (f a ha) (g a ha)) →
    R _ (b.traverse f) (b.traverse g)
  | .assign _ e, _, _, hfg => h.next (hfg e _) fun _ => h.done _
  | .nested _ bs, _, _, hfg => h.next (h.bindings bs fun a _ => hfg a _) fun _ => h.done _
  | .elements _ _, _, _, hfg => h.next (h.elements fun a _ => hfg a _) fun _ => h.done _

theorem bindings (h : Sequenced R) :
    ∀ (bs : List (Binding α)) {f : (a : α) → a ∈ Binding.exprsOfAll bs → m β}
    {g : (a : α) → a ∈ Binding.exprsOfAll bs → n β}, (∀ a ha, R β (f a ha) (g a ha)) →
    R _ (Binding.traverseAll bs f) (Binding.traverseAll bs g)
  | [], _, _, _ => h.done []
  | b :: bs, _, _, hfg =>
    h.next (h.binding b fun a _ => hfg a _) fun _ =>
      h.next (h.bindings bs fun a _ => hfg a _) fun _ => h.done _

end

/-- The children of a node are visited in the same way by both. -/
theorem node (h : Sequenced R) {nd : Node} {f : (c : Expr) → c ∈ nd.children → m Expr}
    {g : (c : Expr) → c ∈ nd.children → n Expr} (hfg : ∀ c hc, R Expr (f c hc) (g c hc)) :
    R _ (nd.traverse f) (nd.traverse g) := by
  cases nd with
  | unary | typeIs | lambda => exact h.next (hfg _ _) fun _ => h.done _
  | binary =>
    refine h.next (hfg _ _) fun _ => h.next (hfg _ _) fun _ => ?_
    exact h.next (h.visitOption fun a _ => hfg a _) fun _ => h.done _
  | conditional =>
    refine h.next (hfg _ _) fun _ => h.next (hfg _ _) fun _ => ?_
    exact h.next (hfg _ _) fun _ => h.done _
  | constant | «variable» | extension => exact h.done _
  | memberAccess => exact h.next (h.visitOption hfg) fun _ => h.done _
  | call =>
    refine h.next (h.visitOption fun a _ => hfg a _) fun _ => ?_
    exact h.next (h.visitList fun a _ => hfg a _) fun _ => h.done _
  | construct => exact h.next (h.construct hfg) fun _ => h.done _
  | newArray => exact h.next (h.visitList hfg) fun _ => h.done _
  | invocation =>
    refine h.next (h.visitList fun a _ => hfg a _) fun _ => ?_
    exact h.next (hfg _ _) fun _ => h.done _
  | memberInit _ bs =>
    refine h.next (h.construct fun a _ => hfg a _) fun _ => ?_
    exact h.next (h.bindings bs fun a _ => hfg a _) fun _ => h.done _
  | listInit =>
    refine h.next (h.construct fun a _ => hfg a _) fun _ => ?_
    exact h.next (h.elements fun a _ => hfg a _) fun _ => h.done _

end Sequenced

end ExprTree
