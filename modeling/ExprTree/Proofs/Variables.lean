import ExprTree.Proofs.Traversal
import ExprTree.Proofs.Watch

/-!
# Variables of a tree

Two notions of a free variable differ in what they enter. `Expr.exposed` lists the variables that
can be reached through children and stand below no lambda that lists them. `Expr.freeVars` also
enters the trees that constants carry as data, since such a tree may later be opened in place.
Neither enters closures: their trees belong to the top level, which `Sealed` says of a tree that was
read from a source.
-/

namespace ExprTree

namespace Node

/-- The variable at a node. -/
def own : Node → List Variable
  | .variable v => [v]
  | _ => []

/-- The trees in the closure that a node refers to. -/
def captured : Node → List Expr
  | .constant (.closure c) _ => c.trees
  | _ => []

theorem mem_payload {n : Node} {t : Expr} : t ∈ n.payload ↔ t ∈ n.quoted ∨ t ∈ n.captured := by
  cases n with
  | constant value ty => cases value <;> simp [payload, quoted, captured, Value.trees]
  | _ => simp [payload, quoted, captured]

theorem mem_own {n : Node} {v : Variable} : v ∈ n.own ↔ n = .variable v := by
  cases n <;> simp [own, eq_comm]

theorem eq_variable_of_kind {n : Node} (h : n.kind = .variable) : ∃ v, n = .variable v := by
  cases n <;> first | exact ⟨_, rfl⟩ | cases h

theorem mem_quoted {n : Node} {t : Expr} : t ∈ n.quoted ↔ ∃ ty, n = .constant (.tree t) ty := by
  cases n with
  | constant value ty => cases value <;> simp [quoted, eq_comm]
  | _ => simp [quoted]

@[simp] theorem own_shape (n : Node) : n.shape.own = n.own := by cases n <;> rfl

@[simp] theorem params_shape (n : Node) : n.shape.params = n.params := by cases n <;> rfl

@[simp] theorem quoted_shape (n : Node) : n.shape.quoted = n.quoted := by cases n <;> rfl

@[simp] theorem captured_shape (n : Node) : n.shape.captured = n.captured := by cases n <;> rfl

end Node

namespace Expr

theorem mem_children_of_lambda {e body : Expr} {params : List Variable} {ty : Ty}
    (h : e.node = .lambda params body ty) : body ∈ e.children := by
  rw [children, h]
  exact List.mem_singleton_self body

/-! ## Free variables -/

/-- The variables of a tree, the trees it carries as data included, that no lambda around them
lists. -/
def freeVars (e : Expr) : List Variable :=
  e.node.own ++ ((e.children ++ e.node.quoted).attach.flatMap fun c => freeVars c.1).filter
    (· ∉ e.node.params)
termination_by sizeOf e
decreasing_by
  refine sizeOf_lt_of_mem_parts ?_
  rcases List.mem_append.1 c.2 with hc | hc
  · exact List.mem_append_left _ hc
  · exact List.mem_append_right _ (Node.mem_payload.2 (.inl hc))

theorem mem_freeVars {e : Expr} {v : Variable} : v ∈ e.freeVars ↔
    v ∈ e.node.own ∨ v ∉ e.node.params ∧ ∃ c ∈ e.children ++ e.node.quoted, v ∈ c.freeVars := by
  rw [freeVars, List.mem_append, List.mem_filter, List.mem_flatMap, decide_eq_true_eq, and_comm]
  constructor
  · rintro (hown | ⟨hparams, c, -, hv⟩)
    · exact .inl hown
    · exact .inr ⟨hparams, c.1, c.2, hv⟩
  · rintro (hown | ⟨hparams, c, hc, hv⟩)
    · exact .inl hown
    · exact .inr ⟨hparams, ⟨c, hc⟩, List.mem_attach _ _, hv⟩

theorem mem_freeVars_of_child {c e : Expr} {v : Variable} (hc : c ∈ e.children)
    (hv : v ∈ c.freeVars) (hparams : v ∉ e.node.params) : v ∈ e.freeVars :=
  mem_freeVars.2 (.inr ⟨hparams, c, List.mem_append_left _ hc, hv⟩)

theorem eq_of_mem_freeVars_variable {e : Expr} {u v : Variable} (hnode : e.node = .variable v)
    (hu : u ∈ e.freeVars) : u = v := by
  rcases mem_freeVars.1 hu with hown | ⟨-, c, hc, -⟩
  · simpa [hnode, Node.own] using hown
  · rw [children, hnode] at hc
    cases hc

/-- What is free in a constant is free in the tree that it carries. -/
theorem exists_quoted_of_mem_freeVars {e : Expr} {v : Variable} {value : Value} {ty : Ty}
    (hnode : e.node = .constant value ty) (hv : v ∈ e.freeVars) : ∃ t ∈ e.node.quoted, v ∈ t.freeVars := by
  rcases mem_freeVars.1 hv with hown | ⟨-, c, hc, hv⟩
  · rw [hnode] at hown
    cases hown
  · rcases List.mem_append.1 hc with hc | hc
    · rw [children, hnode] at hc
      cases hc
    · exact ⟨c, hc, hv⟩

/-- The variables that can be reached through children and that no lambda around them lists. -/
def exposed : Expr → List Variable :=
  fold fun e below => e.node.own ++ below.flatten.filter (· ∉ e.node.params)

theorem mem_exposed {e : Expr} {v : Variable} : v ∈ e.exposed ↔
    v ∈ e.node.own ∨ v ∉ e.node.params ∧ ∃ c ∈ e.children, v ∈ c.exposed := by
  have heq : e.exposed = e.node.own ++ (e.children.map exposed).flatten.filter
      (· ∉ e.node.params) := fold_eq _ e
  rw [heq, List.mem_append, List.mem_filter, List.mem_flatten, decide_eq_true_eq, and_comm]
  simp only [List.mem_map]
  constructor
  · rintro (hown | ⟨hparams, _, ⟨c, hc, rfl⟩, hv⟩)
    · exact .inl hown
    · exact .inr ⟨hparams, c, hc, hv⟩
  · rintro (hown | ⟨hparams, c, hc, hv⟩)
    · exact .inl hown
    · exact .inr ⟨hparams, _, ⟨c, hc, rfl⟩, hv⟩

/-- What is exposed is free. -/
theorem mem_freeVars_of_exposed {e : Expr} {v : Variable} (h : v ∈ e.exposed) : v ∈ e.freeVars := by
  induction e using childInduction with
  | step e ih =>
    rcases mem_exposed.1 h with hown | ⟨hparams, c, hc, hv⟩
    · exact mem_freeVars.2 (.inl hown)
    · exact mem_freeVars_of_child hc (ih c hc hv) hparams

end Expr

/-! ## Trees over a set of top-level variables -/

/-- At this expression, all variables have identities below `next`, no parameter is one of the
top-level variables, and the trees in a closure have no other free variables. -/
structure Sealed (top : List Variable) (next : Nat) (a : Expr) : Prop where
  own_lt : ∀ v ∈ a.node.own, v.id < next
  params_lt : ∀ v ∈ a.node.params, v.id < next
  params_inner : ∀ v ∈ a.node.params, v ∉ top
  captured_closed : ∀ t ∈ a.node.captured, ∀ v ∈ t.freeVars, v ∈ top

namespace Sealed

variable {top : List Variable} {next : Nat} {a b : Expr}

theorem mono {next' : Nat} (h : Sealed top next a) (hle : next ≤ next') : Sealed top next' a where
  own_lt v hv := Nat.lt_of_lt_of_le (h.own_lt v hv) hle
  params_lt v hv := Nat.lt_of_lt_of_le (h.params_lt v hv) hle
  params_inner := h.params_inner
  captured_closed := h.captured_closed

/-- A variable with a new identity may become a top-level variable. -/
theorem cons_top {v : Variable} (h : Sealed top next a) (hv : next ≤ v.id) :
    Sealed (v :: top) next a where
  own_lt := h.own_lt
  params_lt := h.params_lt
  params_inner p hp htop := by
    rcases List.mem_cons.1 htop with rfl | htop
    · exact absurd (h.params_lt p hp) (Nat.not_lt.2 hv)
    · exact h.params_inner p hp htop
  captured_closed t ht w hw := List.mem_cons_of_mem _ (h.captured_closed t ht w hw)

/-- Whether an expression is sealed depends on its shape only. -/
theorem of_shape (hshape : a.node.shape = b.node.shape) (h : Sealed top next b) :
    Sealed top next a := by
  have hown : a.node.own = b.node.own := by rw [← Node.own_shape, hshape, Node.own_shape]
  have hparams : a.node.params = b.node.params := by
    rw [← Node.params_shape, hshape, Node.params_shape]
  have hcaptured : a.node.captured = b.node.captured := by
    rw [← Node.captured_shape, hshape, Node.captured_shape]
  exact ⟨hown ▸ h.own_lt, hparams ▸ h.params_lt, hparams ▸ h.params_inner,
    hcaptured ▸ h.captured_closed⟩

end Sealed

end ExprTree
