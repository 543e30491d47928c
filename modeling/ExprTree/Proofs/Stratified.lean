import ExprTree.Proofs.FirstOrder
import ExprTree.Proofs.Vocabulary

/-!
# How deep lambdas stand in an expansion

Whether a run opens a lambda in whose body other lambdas stand can be foretold from the tree. `depth` assigns
to each parameter how deep lambdas may stand in one another in what it is bound to, and `Expr.foreseenDepth`
computes from that how deep they stand in an expansion, with two for "no promise". `Expr.Shallow` says of an
expansion what was promised: that walking it again only substitutes, and how deep its lambdas are.

A tree is *stratified* (`Expr.Stratified`) if arguments keep to the depths of their parameters, only parameters
of depth at most one are invoked, and no tree carried as data refers to a parameter that an invocation takes
away. First-order trees meet the conditions on depths (`Expr.FirstOrder.stratified`).
-/

namespace ExprTree

/-! ## Trees that are only walked -/

namespace Node

/-- Does the node read a field of a closure? A substitution can complete such a read. -/
def readsField : Node → Bool
  | .memberAccess _ member => member.isCapturedField
  | _ => false

/-- Is there nothing to expand, to resolve or to open at the node, whatever is substituted below it? -/
def isInert (n : Node) : Bool := !n.isForeign && n.quoted.isEmpty && !n.readsField

@[simp] theorem readsField_shape (n : Node) : n.shape.readsField = n.readsField := by cases n <;> rfl

@[simp] theorem isInert_shape (n : Node) : n.shape.isInert = n.isInert := by
  simp only [isInert, isForeign_shape, quoted_shape, readsField_shape]

theorem isInert_iff {n : Node} :
    n.isInert = true ↔ n.isForeign = false ∧ n.quoted = [] ∧ n.readsField = false := by
  simp only [isInert, Bool.and_eq_true, Bool.not_eq_true', List.isEmpty_iff, and_assoc]

end Node

/-- Only fields of closures are captured. -/
theorem Member.isCapturedField_of_capturedTree? {member : Member} {object : Option Expr} {tree : Expr}
    (h : member.capturedTree? object = some tree) : member.isCapturedField = true := by
  obtain ⟨_, hfound, -⟩ := Option.bind_eq_some_iff.1 h
  obtain ⟨_, hguard, -⟩ := Option.bind_eq_some_iff.1 hfound
  by_contra hfield
  rw [Bool.not_eq_true] at hfield
  rw [hfield] at hguard
  cases hguard

namespace Expr

variable {c e out : Expr} {k : Nat}

/-- No node of the tree is more than walked. Trees in constants do not occur. -/
def Inert (e : Expr) : Prop := ∀ c ∈ e.nodes, c.node.isInert = true

theorem inert_iff : e.Inert ↔ e.node.isInert = true ∧ ∀ c ∈ e.children, c.Inert :=
  forall_mem_nodes_iff

theorem Inert.child (h : e.Inert) (hc : c ∈ e.children) : c.Inert := (inert_iff.1 h).2 c hc

/-- An inert expression is looked up, passed or walked. -/
theorem Inert.action (h : e.Inert) :
    (∃ v, e.node.action = .look v) ∨ e.node.action = .pass ∨ e.node.action = .descend := by
  have hinert := (inert_iff.1 h).1
  rcases action_of_not_foreign (Node.isInert_iff.1 hinert).1 with
    hlook | hpass | ⟨compiled, tree, haction⟩ | hdescend
  · exact .inl hlook
  · exact .inr (.inl hpass)
  · -- a read that is resolved would stand at the node or at the object of a marker
    obtain ⟨l, n⟩ := e
    cases acts_of_action haction with
    | read hread =>
      have hreads := (Node.isInert_iff.1 hinert).2.2
      simp only [node_mk, Node.readsField, Member.isCapturedField_of_capturedTree? hread] at hreads
      cases hreads
    | @compiled object _ _ _ _ _ hnode hread =>
      have hobject := (inert_iff.1 (h.child (c := object) List.mem_cons_self)).1
      have hreads := (Node.isInert_iff.1 hobject).2.2
      rw [hnode, Node.readsField, Member.isCapturedField_of_capturedTree? hread] at hreads
      cases hreads
  · exact .inr (.inr hdescend)

/-- A layer of an inert target is a node around a child. -/
theorem Inert.mem_children_of_layer {count : Stats → Stats} (h : e.Inert)
    (hlayer : e.node.layer = .around count c) : c ∈ e.children := by
  have hinert := Node.isInert_iff.1 (inert_iff.1 h).1
  obtain ⟨l, n⟩ := e
  cases layered_of_layer hlayer with
  | read hread =>
    have hreads := hinert.2.2
    simp only [node_mk, Node.readsField, Member.isCapturedField_of_capturedTree? hread] at hreads
    cases hreads
  | compile => exact List.mem_cons_self
  | tree => cases hinert.2.1
  | quote => exact List.mem_singleton_self _

/-- How deep the lambdas of a tree stand in one another. -/
def lambdaDepth : Expr → Nat :=
  fold fun e below => below.foldr max 0 + if e.kind = .lambda then 1 else 0

theorem lambdaDepth_eq (e : Expr) : e.lambdaDepth =
    (e.children.map lambdaDepth).foldr max 0 + if e.kind = .lambda then 1 else 0 :=
  fold_eq _ e

theorem lambdaDepth_le_of_mem_children (hc : c ∈ e.children) : c.lambdaDepth ≤ e.lambdaDepth := by
  have hle := le_foldr_max (List.mem_map_of_mem (f := lambdaDepth) hc)
  rw [lambdaDepth_eq e]
  omega

/-- Nothing is bound in a tree without lambdas. -/
theorem params_of_lambdaDepth (h : e.lambdaDepth = 0) : e.node.params = [] := by
  rw [lambdaDepth_eq] at h
  obtain ⟨l, n⟩ := e
  cases n with
  | lambda => simp [kind, Node.kind] at h
  | _ => rfl

/-- For a bound below two: the tree is inert, and its lambdas stand no deeper in one another. A larger bound
says nothing. -/
def Shallow (k : Nat) (e : Expr) : Prop := k ≤ 1 → e.Inert ∧ e.lambdaDepth ≤ k

theorem Shallow.mono {k' : Nat} (h : e.Shallow k) (hle : k ≤ k') : e.Shallow k' := by
  intro hk'
  obtain ⟨hinert, hdepth⟩ := h (by omega)
  exact ⟨hinert, by omega⟩

theorem shallow_of_two_le (h : 2 ≤ k) : e.Shallow k := by
  intro hk
  omega

theorem shallow_of_leaf (hinert : e.node.isInert = true) (hkind : e.kind ≠ .lambda)
    (hleaf : e.children = []) : e.Shallow k := by
  refine fun _ => ⟨inert_iff.2 ⟨hinert, by simp [hleaf]⟩, ?_⟩
  rw [lambdaDepth_eq, hleaf, if_neg hkind]
  exact Nat.zero_le k

/-- A variable is as shallow as one likes. -/
theorem shallow_of_look {v : Variable} (haction : e.node.action = .look v) : e.Shallow k := by
  obtain ⟨l, n⟩ := e
  obtain rfl : n = .variable v := node_of_look haction
  exact shallow_of_leaf rfl (by simp [kind, Node.kind]) rfl

/-- So is a constant that carries no tree as data. -/
theorem shallow_of_pass (haction : e.node.action = .pass) (hquoted : e.node.quoted = []) :
    e.Shallow k := by
  obtain ⟨value, ty, hnode⟩ := node_of_pass haction
  obtain ⟨l, n⟩ := e
  obtain rfl : n = .constant value ty := hnode
  exact shallow_of_leaf (Node.isInert_iff.2 ⟨rfl, hquoted, rfl⟩) (by simp [kind, Node.kind]) rfl

/-- A rebuilt node is as shallow as its children, or one deeper if it is a lambda. -/
theorem shallow_of_shape (haction : e.node.action = .descend) (hreads : e.node.readsField = false)
    (hshape : out.node.shape = e.node.shape) (h : ∀ c ∈ out.children, c.Shallow k) :
    out.Shallow (k + if e.kind = .lambda then 1 else 0) := by
  intro hk
  have hbelow : ∀ c ∈ out.children, c.Inert ∧ c.lambdaDepth ≤ k := fun c hc => h c hc (by omega)
  obtain ⟨hforeign, -, hconstant⟩ := plain_of_descend haction
  have hquoted : e.node.quoted = [] := by
    obtain ⟨l, n⟩ := e
    cases n <;> first | rfl | exact absurd rfl hconstant
  refine ⟨inert_iff.2 ⟨?_, fun c hc => (hbelow c hc).1⟩, ?_⟩
  · rw [← Node.isInert_shape, hshape, Node.isInert_shape]
    exact Node.isInert_iff.2 ⟨hforeign, hquoted, hreads⟩
  · rw [lambdaDepth_eq, kind, kind, Node.kind_eq_of_shape hshape]
    refine Nat.add_le_add_right (foldr_max_le_iff.2 fun n hn => ?_) _
    obtain ⟨c, hc, rfl⟩ := List.mem_map.1 hn
    exact (hbelow c hc).2

/-- What is free in a rebuilt node is free in a child. -/
theorem freeVars_of_shape {F : Variable → Prop} (haction : e.node.action = .descend)
    (hshape : out.node.shape = e.node.shape)
    (h : ∀ c ∈ out.children, ∀ v ∈ c.freeVars, F v ∨ v ∈ e.node.params) : ∀ v ∈ out.freeVars, F v := by
  intro v hv
  have hkind := Node.kind_eq_of_shape hshape
  obtain ⟨-, hvariable, hconstant⟩ := plain_of_descend haction
  rcases mem_freeVars.1 hv with hown | ⟨hparams, c, hc, hv⟩
  · rw [← hkind, Node.mem_own.1 hown] at hvariable
    exact absurd rfl hvariable
  · rw [← Node.params_shape, hshape, Node.params_shape] at hparams
    rcases List.mem_append.1 hc with hc | hc
    · exact (h c hc v hv).resolve_right hparams
    · obtain ⟨ty, hnode⟩ := Node.mem_quoted.1 hc
      rw [← hkind, hnode] at hconstant
      exact absurd rfl hconstant

end Expr

/-! ## Foretelling depths -/

/-- What the expansion of a node goes on with, as far as the tree tells: the body of an invoked lambda, or else
the arguments; a captured tree; a query inside a marker; the children. -/
def Node.upcoming (n : Node) : List Expr :=
  match n.action with
  | .inline target args =>
    match target.peeled.node with
    | .lambda _ body _ => [body]
    | _ => args
  | .capture _ tree => [tree]
  | .unwrap query => [query]
  | .descend => n.children
  | _ => []

theorem Node.upcoming_of_lambda {n : Node} {target body : Expr} {args : List Expr} {params : List Variable}
    {ty : Ty} (haction : n.action = .inline target args) (htarget : target.peeled.node = .lambda params body ty) :
    n.upcoming = [body] := by
  simp only [upcoming, haction, htarget]

theorem Node.upcoming_of_variable {n : Node} {target : Expr} {args : List Expr} {v : Variable}
    (haction : n.action = .inline target args) (htarget : target.peeled.node = .variable v) :
    n.upcoming = args := by
  simp only [upcoming, haction, htarget]

/-- How deep lambdas may stand in what a visit of the node itself gives: what replaces a variable, a tree that
is carried as data, and a read that is not resolved yet. -/
def Node.ownDepth (depth : Variable → Nat) (n : Node) : Nat :=
  match n.action with
  | .look v => depth v
  | .pass => if n.quoted.isEmpty then 0 else 2
  | .descend => if n.readsField then 2 else 0
  | _ => 0

namespace Expr

variable {c e out : Expr} {depth : Variable → Nat}

theorem sizeOf_lt_of_upcoming (hc : c ∈ e.node.upcoming) : sizeOf c < sizeOf e := by
  unfold Node.upcoming at hc
  split at hc
  · next target args haction =>
    obtain ⟨htarget, hargs⟩ := mem_children_of_inline haction
    split at hc
    · next params body ty hpeeled =>
      obtain rfl := List.mem_singleton.1 hc
      have hbody := sizeOf_lt_of_mem_children (mem_children_of_lambda hpeeled)
      have hle := target.peeled_within.sizeOf_le
      have hlt := sizeOf_lt_of_mem_children htarget
      omega
    · exact sizeOf_lt_of_mem_children (hargs c hc)
  · next haction =>
    obtain rfl := List.mem_singleton.1 hc
    obtain ⟨d, hd, hwithin⟩ := within_child_of_capture haction
    exact Nat.lt_of_le_of_lt hwithin.sizeOf_le (sizeOf_lt_of_mem_children hd)
  · next haction =>
    obtain rfl := List.mem_singleton.1 hc
    exact sizeOf_lt_of_mem_children (mem_children_of_unwrap haction)
  · exact sizeOf_lt_of_mem_children hc
  · cases hc

/-- How deep lambdas stand in one another in the expansion of a tree, if they stand as deep in what replaces a
variable as `depth` says. From two on nothing is promised. -/
def foreseenDepth (depth : Variable → Nat) (e : Expr) : Nat :=
  min 2 (max (e.node.ownDepth depth)
    ((e.node.upcoming.attach.map fun c => foreseenDepth depth c.1).foldr max 0 +
      if e.kind = .lambda then 1 else 0))
termination_by sizeOf e
decreasing_by exact sizeOf_lt_of_upcoming c.2

theorem foreseenDepth_eq (depth : Variable → Nat) (e : Expr) : e.foreseenDepth depth =
    min 2 (max (e.node.ownDepth depth)
      ((e.node.upcoming.map (foreseenDepth depth)).foldr max 0 +
        if e.kind = .lambda then 1 else 0)) := by
  rw [foreseenDepth, List.attach_map_val]

theorem foreseenDepth_le_two : e.foreseenDepth depth ≤ 2 := by
  rw [foreseenDepth_eq]
  exact Nat.min_le_left _ _

/-- What expansion goes on with adds to the foreseen depth. -/
theorem foreseenDepth_le_of_upcoming (hc : c ∈ e.node.upcoming) :
    c.foreseenDepth depth ≤ e.foreseenDepth depth := by
  have hle := le_foldr_max (List.mem_map_of_mem (f := foreseenDepth depth) hc)
  have htwo : c.foreseenDepth depth ≤ 2 := foreseenDepth_le_two
  rw [foreseenDepth_eq depth e]
  omega

theorem ownDepth_le_foreseenDepth :
    min 2 (e.node.ownDepth depth) ≤ e.foreseenDepth depth := by
  rw [foreseenDepth_eq]
  omega

/-- What replaces a variable is as shallow as the variable was foreseen to be. -/
theorem shallow_of_found {v : Variable} (haction : e.node.action = .look v) (h : out.Shallow (depth v)) :
    out.Shallow (e.foreseenDepth depth) := by
  have hown : min 2 (e.node.ownDepth depth) ≤ e.foreseenDepth depth := ownDepth_le_foreseenDepth
  rw [Node.ownDepth, haction] at hown
  intro hk
  exact h.mono (show depth v ≤ e.foreseenDepth depth by simp only at hown; omega) hk

/-- Of a tree that is carried as data nothing is promised. -/
theorem shallow_of_passed (haction : e.node.action = .pass) : e.Shallow (e.foreseenDepth depth) := by
  by_cases hquoted : e.node.quoted = []
  · exact shallow_of_pass haction hquoted
  · refine shallow_of_two_le (Nat.le_trans ?_ ownDepth_le_foreseenDepth)
    simp [Node.ownDepth, haction, hquoted]

/-- A node around children that are as shallow as foreseen is itself as shallow as foreseen. -/
theorem shallow_of_descend (haction : e.node.action = .descend) (hshape : out.node.shape = e.node.shape)
    (hlength : out.children.length = e.children.length)
    (hvisit : ∀ p ∈ e.children.zip out.children, p.2.Shallow (p.1.foreseenDepth depth)) :
    out.Shallow (e.foreseenDepth depth) := by
  cases hreads : e.node.readsField with
  | true =>
    refine shallow_of_two_le (Nat.le_trans ?_ ownDepth_le_foreseenDepth)
    simp [Node.ownDepth, haction, hreads]
  | false =>
    have hupcoming : e.node.upcoming = e.children := by simp only [Node.upcoming, haction, children]
    have hbelow : ∀ c ∈ out.children,
        c.Shallow ((e.node.upcoming.map (foreseenDepth depth)).foldr max 0) := by
      intro c hc
      obtain ⟨a, ha, hpair⟩ := exists_mem_zip hlength hc
      exact (hvisit _ hpair).mono (le_foldr_max (List.mem_map_of_mem (hupcoming ▸ ha)))
    intro hk
    refine (shallow_of_shape haction hreads hshape hbelow).mono ?_ hk
    rw [foreseenDepth_eq] at hk ⊢
    omega

end Expr

/-! ## Stratified trees -/

namespace Node

/-- At an invocation: the arguments of a lambda keep to the depths of its parameters, and a variable is invoked
only if no lambda stands in the lambdas it stands for. -/
def keepsDepths (depth : Variable → Nat) (n : Node) : Bool :=
  match n.action with
  | .inline target args =>
    match target.peeled.node with
    | .lambda params _ _ => (params.zip args).all fun p => p.2.foreseenDepth depth ≤ depth p.1
    | .variable v => depth v ≤ 1
    | _ => true
  | _ => true

/-- At an invocation of a lambda: the trees that are carried as data in its body do not refer to its
parameters. -/
def sparesData (n : Node) : Bool :=
  match n.action with
  | .inline target _ =>
    match target.peeled.node with
    | .lambda params body _ =>
      body.within.all fun b => b.node.quoted.all fun t => t.freeVars.all fun v => v ∉ params
    | _ => true
  | _ => true

variable {depth : Variable → Nat} {n : Node} {target body : Expr} {args : List Expr}
  {params : List Variable} {ty : Ty} {v : Variable}

theorem le_depth_of_keepsDepths (h : n.keepsDepths depth = true) (haction : n.action = .inline target args)
    (htarget : target.peeled.node = .lambda params body ty) :
    ∀ p ∈ params.zip args, p.2.foreseenDepth depth ≤ depth p.1 := by
  simpa only [keepsDepths, haction, htarget, List.all_eq_true, decide_eq_true_eq] using h

theorem depth_le_one_of_keepsDepths (h : n.keepsDepths depth = true)
    (haction : n.action = .inline target args) (htarget : target.peeled.node = .variable v) :
    depth v ≤ 1 := by
  simpa only [keepsDepths, haction, htarget, decide_eq_true_eq] using h

theorem not_mem_params_of_sparesData (h : n.sparesData = true) (haction : n.action = .inline target args)
    (htarget : target.peeled.node = .lambda params body ty) :
    body.Everywhere fun b => ∀ t ∈ b.node.quoted, ∀ v ∈ t.freeVars, v ∉ params := by
  simp only [sparesData, haction, htarget, List.all_eq_true, decide_eq_true_eq] at h
  exact fun b hb => h b (Expr.mem_within.2 hb)

end Node

/-- Expansion of the tree cannot confuse identities. `depth` says for each parameter how deep lambdas may stand
in one another in what it is bound to. -/
structure Expr.Stratified (depth : Variable → Nat) (e : Expr) : Prop where
  keeps : e.Everywhere fun a => a.node.keepsDepths depth = true
  spares : e.Everywhere fun a => a.node.sparesData = true

theorem Expr.stratified_iff {depth : Variable → Nat} {e : Expr} : e.Stratified depth ↔
    ∀ a ∈ e.within, a.node.keepsDepths depth = true ∧ a.node.sparesData = true := by
  simp only [mem_within]
  exact ⟨fun h a ha => ⟨h.keeps a ha, h.spares a ha⟩, fun h =>
    ⟨fun a ha => (h a ha).1, fun a ha => (h a ha).2⟩⟩

instance (depth : Variable → Nat) (e : Expr) : Decidable (e.Stratified depth) :=
  decidable_of_iff _ Expr.stratified_iff.symm

theorem Expr.Stratified.within {depth : Variable → Nat} {a e : Expr} (h : e.Stratified depth)
    (ha : a.Within e) : a.Stratified depth :=
  ⟨h.keeps.within ha, h.spares.within ha⟩

/-- Where no variable is invoked, no depth has to be foreseen. -/
theorem Expr.FirstOrder.stratified {e : Expr} (h : e.FirstOrder)
    (hspares : e.Everywhere fun a => a.node.sparesData = true) : e.Stratified fun _ => 2 := by
  refine ⟨fun a ha => ?_, hspares⟩
  show a.node.keepsDepths (fun _ => 2) = true
  unfold Node.keepsDepths
  split
  · next target args haction =>
    have hpeeled := h a ha target (by rw [Node.invoked, haction]; exact List.mem_singleton_self target)
    split
    · exact List.all_eq_true.2 fun p _ => decide_eq_true foreseenDepth_le_two
    · next v hnode =>
      rw [kind, hnode] at hpeeled
      exact absurd rfl hpeeled
    · rfl
  · rfl

end ExprTree
