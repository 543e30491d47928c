import Mathlib.Data.List.Forall2
import Mathlib.Data.Option.Basic
import ExprTree.Proofs.Copying
import ExprTree.Proofs.Idempotence

/-!
# Inlining as substitution

Where the body of a lambda and the arguments hold nothing that expansion acts on, invoking the lambda is a
simultaneous substitution. `Expr.Filled` says what becomes of the body: an occurrence of a parameter
becomes the argument itself, the very node, and nothing inside it is looked at again; what holds no
parameter is shared; and a node above an occurrence keeps all of itself but its children.

Constructor calls, member bindings and element initializers are shared in the same way. They have no label
to tell them by, and so it is said of the run. Filling a body is going through it part by part
(`Expansion.expandUnder_eq_fillByParts`), and the copy of a fragment is the fragment itself exactly if every
expression in it came back as itself (`Expansion.FillsFragment`).

A run on such a body fills it (`Expansion.fills`), whatever it is made of, and so one inlining does
(`expand_invocation_fills`).
-/

namespace ExprTree

/-! ## Filling a tree -/

namespace Expr

/-- The variable occurs in the tree, outside of what constants carry. -/
def Mentions (e : Expr) (v : Variable) : Prop := ∃ c ∈ e.nodes, c.node = .variable v

/-- None of the variables that are to be replaced occurs in the tree. -/
def Spared (frame : List (Variable × Expr)) (e : Expr) : Prop := ∀ p ∈ frame, ¬ e.Mentions p.1

/-- The second tree is the first with its variables replaced as the frame says, all at once. Nodes are made
from the identity `next` on. -/
inductive Filled (frame : List (Variable × Expr)) (next : Nat) : Expr → Expr → Prop
  /-- An occurrence of a parameter becomes the argument itself. -/
  | occurrence {e arg : Expr} {v : Variable} : e.node = .variable v → frame.lookup v = some arg →
      Filled frame next e arg
  /-- What holds no parameter is shared. -/
  | spared {e : Expr} : e.Spared frame → Filled frame next e e
  /-- Above an occurrence only the children change, and the node is made again only if a child is another
  one. -/
  | above {e out : Expr} : ¬ e.Spared frame → e.kind ≠ .variable → out.node.shape = e.node.shape →
      out.children.length = e.children.length →
      (∀ p ∈ e.children.zip out.children, Filled frame next p.1 p.2) →
      (out.children = e.children → out = e) → (out.children ≠ e.children → next ≤ out.label) →
      Filled frame next e out

variable {frame : List (Variable × Expr)} {next : Nat} {e out : Expr}

theorem spared_iff : e.Spared frame ↔
    (∀ p ∈ frame, e.node ≠ .variable p.1) ∧ ∀ c ∈ e.children, c.Spared frame := by
  have hnodes : ∀ e : Expr, e.Spared frame ↔ ∀ c ∈ e.nodes, ∀ p ∈ frame, c.node ≠ .variable p.1 :=
    fun e => ⟨fun h c hc p hp hnode => h p hp ⟨c, hc, hnode⟩,
      fun h p hp ⟨c, hc, hnode⟩ => h c hc p hp hnode⟩
  simp only [hnodes]
  exact forall_mem_nodes_iff

/-- The nodes below a node of a tree are nodes of the tree. -/
theorem mem_nodes_trans {a c : Expr} (hc : c ∈ e.nodes) (ha : a ∈ c.nodes) : a ∈ e.nodes := by
  induction e using childInduction with
  | step e ih =>
    rw [nodes_eq, List.mem_cons, List.mem_flatten] at hc
    obtain rfl | ⟨l, hl, hc⟩ := hc
    · exact ha
    · obtain ⟨child, hchild, rfl⟩ := List.mem_map.1 hl
      exact mem_nodes_of_mem_children hchild (ih child hchild hc)

theorem Spared.eq_of_filled (hspared : e.Spared frame) (h : Filled frame next e out) : out = e := by
  cases h with
  | @occurrence _ _ v hnode hlookup =>
    obtain ⟨l₁, l₂, hframe, -⟩ := List.lookup_eq_some_iff.1 hlookup
    exact absurd hnode ((spared_iff.1 hspared).1 (v, out) (by simp [hframe]))
  | spared => rfl
  | above hparam => exact absurd hspared hparam

end Expr

/-- Lists of one length whose items agree are the same. -/
theorem eq_of_forall_mem_zip {α : Type} {xs ys : List α} (hlength : ys.length = xs.length)
    (h : ∀ p ∈ xs.zip ys, p.2 = p.1) : ys = xs := by
  induction xs generalizing ys with
  | nil => exact List.eq_nil_of_length_eq_zero hlength
  | cons x xs ih =>
    cases ys with
    | nil => cases hlength
    | cons y ys =>
      simp only [List.zip_cons_cons, List.forall_mem_cons] at h
      rw [h.1, ih (Nat.succ.inj hlength) h.2]

namespace Walk

variable {σ : Type} {f : Expr → Walk σ Expr} {st st' st₁ : WalkState σ} {e out : Expr}

/-- An expression whose children do not all come back as themselves is made again. -/
theorem Yields.label_of_children {cs : List Expr} (heach : (each f e.node.visitOrder).Yields st cs st₁)
    (h : (Walk.children e fun c _ => f c).Yields st out st') (hchanged : out.children ≠ e.children) :
    out.label = st₁.supply.next := by
  obtain ⟨n, st₂, heach₂, -, hout⟩ := yields_children.1 h
  obtain ⟨-, rfl⟩ := heach.unique heach₂
  split at hout
  · obtain ⟨rfl, -⟩ := yields_pure.1 hout
    exact absurd rfl hchanged
  · obtain ⟨rfl, -⟩ := yields_alloc.1 hout
    rfl

end Walk

/-! ## Nothing to expand -/

theorem Residue.add_eq_empty_iff {a b : Residue} : a + b = {} ↔ a = {} ∧ b = {} := by
  obtain ⟨i, c, x, t⟩ := a
  obtain ⟨i', c', x', t'⟩ := b
  show Residue.mk (i + i') (c + c') (x + x') (t + t') = _ ↔ _
  simp only [Residue.mk.injEq]
  omega

theorem Residue.foldl_eq_empty_iff {rs : List Residue} {a : Residue} :
    rs.foldl (· + ·) a = {} ↔ a = {} ∧ ∀ r ∈ rs, r = {} := by
  induction rs generalizing a with
  | nil => simp
  | cons r rs ih => rw [List.foldl_cons, ih, Residue.add_eq_empty_iff, List.forall_mem_cons, and_assoc]

theorem Expr.residue_isEmpty_iff {e : Expr} : e.residue.isEmpty = true ↔
    Residue.ofNode e.node = {} ∧ ∀ c ∈ e.children, c.residue.isEmpty = true := by
  have hempty : ∀ r : Residue, r.isEmpty = true ↔ r = {} := fun r => beq_iff_eq
  simp only [hempty]
  rw [Expr.residue, Expr.fold_eq, Residue.foldl_eq_empty_iff]
  simp only [List.forall_mem_map]

/-- A node that counts as nothing to expand and is of a known kind is no foreign one and no captured
read. -/
theorem Node.plain_of_ofNode {n : Node} (hnone : Residue.ofNode n = {}) (hkind : n.kind ≠ .extension) :
    n.isForeign = false ∧
      ∀ object member, n = .memberAccess object member → member.capturedTree? object = none := by
  cases n with
  | invocation => cases hnone
  | extension => exact absurd rfl hkind
  | call object method args =>
    refine ⟨?_, fun _ _ hread => by cases hread⟩
    simp only [Residue.ofNode] at hnone
    split at hnone
    · cases hnone
    · cases hnone
    · simp_all [Node.isForeign]
  | memberAccess object member =>
    refine ⟨rfl, ?_⟩
    rintro _ _ ⟨⟩
    simp only [Residue.ofNode] at hnone
    split at hnone
    · cases hnone
    · next hheld =>
      have hnone : member.heldTree? object = none := by simpa using hheld
      simp [Member.capturedTree?, hnone]
  | _ => exact ⟨rfl, fun _ _ hread => by cases hread⟩

/-- A tree without residue and without extension nodes is plain and settled. -/
theorem Expr.plain_of_residue {e : Expr} (hresidue : e.residue.isEmpty = true)
    (hknown : ∀ c ∈ e.nodes, c.kind ≠ .extension) : e.Plain ∧ e.Settled := by
  induction e using Expr.childInduction with
  | step e ih =>
    obtain ⟨hnode, hchildren⟩ := Expr.residue_isEmpty_iff.1 hresidue
    obtain ⟨hkind, hkinds⟩ := Expr.forall_mem_nodes_iff.1 hknown
    obtain ⟨hforeign, hread⟩ := Node.plain_of_ofNode hnode hkind
    have hbelow := fun c hc => ih c hc (hchildren c hc) (hkinds c hc)
    exact ⟨Expr.plain_iff.2 ⟨hforeign, fun c hc => (hbelow c hc).1⟩,
      Expr.settled_iff.2 ⟨hread, fun c hc => (hbelow c hc).2⟩⟩

/-! ## The run on a body -/

namespace Expansion

open Walk

variable {α : Type} {h : Heap} {st : WalkState Stats}

/-- The step succeeds and at most makes new nodes: the heap has grown, nothing is counted, and the guard is
as it was. -/
def Makes (h : Heap) (st : WalkState Stats) (x : Expansion α) (Q : Heap → α → Prop) : Prop :=
  ∃ a st' h', x.Yields st a st' ∧ st'.guard = st.guard ∧ st'.own = st.own ∧ h ≤ h' ∧
    st'.supply.next = h'.next ∧ Q h' a

theorem makes_pure {a : α} {Q : Heap → α → Prop} (hnext : st.supply.next = h.next) (hQ : Q h a) :
    Makes h st (pure a) Q :=
  ⟨a, st, h, yields_pure.2 ⟨rfl, rfl⟩, rfl, rfl, h.le_refl, hnext, hQ⟩

/-- Visits that succeed in every later heap succeed one after the other. -/
theorem makes_each {R : Expr → Expr → Prop} {f : Expr → Expansion Expr} {xs : List Expr}
    (hnext : st.supply.next = h.next)
    (hvisit : ∀ x ∈ xs, ∀ (h' : Heap) (st' : WalkState Stats), h ≤ h' → st'.guard = st.guard →
      st'.supply.next = h'.next → Makes h' st' (f x) fun h'' y => h''.Holds y ∧ R x y) :
    Makes h st (each f xs) fun h' ys =>
      (∀ y ∈ ys, h'.Holds y) ∧ ys.length = xs.length ∧ ∀ p ∈ xs.zip ys, R p.1 p.2 := by
  induction xs generalizing h st with
  | nil => exact ⟨[], st, h, yields_each_nil.2 ⟨rfl, rfl⟩, rfl, rfl, h.le_refl, hnext, by simp⟩
  | cons x xs ih =>
    rw [List.forall_mem_cons] at hvisit
    obtain ⟨y, st₁, h₁, hy, hguard₁, hown₁, hle₁, hnext₁, hheld, hR⟩ :=
      hvisit.1 h st h.le_refl rfl hnext
    obtain ⟨ys, st₂, h₂, hys, hguard₂, hown₂, hle₂, hnext₂, hhelds, hlength, hRs⟩ :=
      ih hnext₁ fun z hz h' st' hle hguard => hvisit.2 z hz h' st' (Heap.le_trans hle₁ hle)
        (hguard.trans hguard₁)
    refine ⟨y :: ys, st₂, h₂, yields_each_cons.2 ⟨y, st₁, ys, hy, hys, rfl⟩, hguard₂.trans hguard₁,
      hown₂.trans hown₁, Heap.le_trans hle₁ hle₂, hnext₂, ?_, ?_, ?_⟩
    · exact List.forall_mem_cons.2 ⟨hheld.mono hle₂, hhelds⟩
    · rw [List.length_cons, List.length_cons, hlength]
    · exact List.forall_mem_cons.2 ⟨hR, hRs⟩

/-- One level further down, as long as there is room. -/
theorem Makes.guarded {x : Expansion α} {Q : Heap → α → Prop} {n : Nat} (hroom : Room (n + 1) st)
    (hx : ∀ st₀ : WalkState Stats, st₀.supply = st.supply → Room n st₀ → Makes h st₀ x Q) :
    Makes h st (guarded x) Q := by
  obtain ⟨st₀, hsupply, hown, hroom₀, hguarded⟩ := hroom.enter
  obtain ⟨a, st₁, h₁, hrun, hguard₁, hown₁, hle, hnext, hQ⟩ := hx st₀ hsupply hroom₀
  exact ⟨a, _, h₁, hguarded x a st₁ hrun hguard₁, rfl, hown₁.trans hown, hle, hnext, hQ⟩

section Filling

variable {frame : List (Variable × Expr)} {next : Nat} {s : Scope} {e : Expr}

/-- The children of an expression are filled, and with them the expression. -/
theorem makes_children {f : Expr → Expansion Expr} (he : h.Holds e) (hnext : st.supply.next = h.next)
    (hfirst : next ≤ h.next) (hvariable : e.kind ≠ .variable) (hinvocation : e.kind ≠ .invocation)
    (hvisit : ∀ c ∈ e.children, ∀ (h' : Heap) (st' : WalkState Stats), h ≤ h' → st'.guard = st.guard →
      st'.supply.next = h'.next → Makes h' st' (f c) fun h'' out => h''.Holds out ∧ c.Filled frame next out) :
    Makes h st (Walk.children e fun c _ => f c) fun h' out => h'.Holds out ∧ e.Filled frame next out := by
  have horder : e.node.visitOrder = e.children := Node.visitOrder_eq_children hinvocation
  obtain ⟨cs, st₁, h₁, heach, hguard₁, hown₁, hle₁, hnext₁, hheld, hlength, hfilled⟩ :=
    makes_each hnext fun c hc => hvisit c (horder ▸ hc)
  obtain ⟨out, st₂, h₂, hrun, hle₂, hholds, hnext₂, hguard₂, hown₂, hshape, hresult⟩ :=
    Yields.children (he.mono hle₁) hheld hnext₁ heach
  have hchildren : out.children = cs := by
    rw [← hresult, Node.visitOrder_eq_children (Node.kind_eq_of_shape hshape ▸ hinvocation)]
    rfl
  rw [horder, ← hchildren] at hlength hfilled
  -- if every child came back as itself, the expression did
  have hself : out.children = e.children → out = e := by
    intro hsame
    rw [← hchildren, hsame, ← horder] at heach
    exact (hrun.unique (Yields.children_self heach)).1
  refine ⟨out, st₂, h₂, hrun, hguard₂.trans hguard₁, hown₂.trans hown₁, Heap.le_trans hle₁ hle₂, hnext₂,
    hholds, ?_⟩
  by_cases hspared : e.Spared frame
  · have hsame : out.children = e.children := eq_of_forall_mem_zip hlength fun p hp =>
      Expr.Spared.eq_of_filled ((Expr.spared_iff.1 hspared).2 p.1 (List.of_mem_zip hp).1) (hfilled p hp)
    rw [hself hsame]
    exact .spared hspared
  · refine .above hspared hvariable hshape hlength hfilled hself fun hchanged => ?_
    rw [Yields.label_of_children heach hrun hchanged, hnext₁]
    exact Nat.le_trans hfirst hle₁.next_le

/-- A state of a run in which the expression can be filled, with room for `n` levels. -/
structure Ready (frame : List (Variable × Expr)) (next : Nat) (e : Expr) (n : Nat) (h : Heap)
    (st : WalkState Stats) : Prop where
  holds : h.Holds e
  frame : ∀ p ∈ frame, h.Holds p.2
  first : next ≤ h.next
  supply : st.supply.next = h.next
  room : Room n st

theorem Ready.later {n m : Nat} {h' : Heap} {st' : WalkState Stats} {c : Expr}
    (h₀ : Ready frame next e n h st) (hc : h.Holds c) (hm : m ≤ n) (hle : h ≤ h')
    (hguard : st'.guard = st.guard) (hnext : st'.supply.next = h'.next) : Ready frame next c m h' st' where
  holds := hc.mono hle
  frame p hp := (h₀.frame p hp).mono hle
  first := Nat.le_trans h₀.first hle.next_le
  supply := hnext
  room := (h₀.room.of_guard hguard).mono hm

/-- In a scope that binds the parameters of a frame, a tree that holds nothing to expand is filled. -/
theorem fills (hscope : s.bindings = frame) (hplain : e.Plain) (hsettled : e.Settled) {n : Nat}
    (hn : e.height ≤ n) (h₀ : Ready frame next e e.height h st) :
    Makes h st (expandUnder .idle asWritten n s e) fun h' out => h'.Holds out ∧ e.Filled frame next out := by
  induction e using Expr.childInduction generalizing n h st with
  | step e ih =>
    obtain ⟨k, hk⟩ : ∃ k, e.height = k + 1 := ⟨_, (e.height_eq).trans (Nat.add_comm _ _)⟩
    obtain ⟨n, rfl⟩ : ∃ m, n = m + 1 := ⟨n - 1, by omega⟩
    rw [expandUnder]
    have he := h₀.holds
    have hroom := h₀.room
    rw [hk] at hroom
    refine Makes.guarded hroom fun st₀ hsupply hroom₀ => ?_
    have hnext₀ : st₀.supply.next = h.next := hsupply ▸ h₀.supply
    obtain ⟨hforeign, hplains⟩ := Expr.plain_iff.1 hplain
    obtain ⟨-, hsettleds⟩ := Expr.settled_iff.1 hsettled
    rcases Expr.action_of_not_foreign hforeign with
      ⟨v, haction⟩ | haction | ⟨compiled, tree, haction⟩ | haction
    · have hnode := Expr.node_of_look haction
      simp only [haction]
      cases hlookup : s.lookup? v with
      | none =>
        refine makes_pure hnext₀ ⟨he, .spared (Expr.spared_iff.2 ⟨fun p hp hp' => ?_, ?_⟩)⟩
        · obtain rfl : v = p.1 := Node.variable.inj (hnode.symm.trans hp')
          refine Scope.lookup?_eq_none_iff.1 hlookup ?_
          rw [Scope.params, hscope]
          exact List.mem_map_of_mem hp
        · simp [Expr.children, hnode, Node.children]
      | some arg =>
        rw [Scope.lookup?, hscope] at hlookup
        obtain ⟨l₁, l₂, hsplit, -⟩ := List.lookup_eq_some_iff.1 hlookup
        exact makes_pure hnext₀ ⟨h₀.frame (v, arg) (by simp [hsplit]), .occurrence hnode hlookup⟩
    · obtain ⟨value, ty, hnode⟩ := Expr.node_of_pass haction
      simp only [haction]
      refine makes_pure hnext₀ ⟨he, .spared (Expr.spared_iff.2 ⟨fun p _ => ?_, ?_⟩)⟩
      · rw [hnode]
        intro hvariable
        cases hvariable
      · simp [Expr.children, hnode, Node.children]
    · exact absurd haction (hsettled.action_ne_capture compiled tree)
    · simp only [haction]
      obtain ⟨-, hvariable, -⟩ := Expr.plain_of_descend haction
      have hready₀ : Ready frame next e k h st₀ := { h₀ with supply := hnext₀, room := hroom₀ }
      refine makes_children he hnext₀ h₀.first hvariable (Expr.kind_of_descend haction)
        fun c hc h' st' hle hguard hnext' => ?_
      have hlt := Expr.height_lt_of_mem_children hc
      exact ih c hc (hplains c hc) (hsettleds c hc) (by omega)
        (hready₀.later (he.child hc) (by omega) hle hguard hnext')

/-! ## Part by part -/

/-- Puts the replacements in a scope in place of its parameters and goes through everything else part by
part. -/
def fillByParts : (levels : Nat) → Scope → Expr → Expansion Expr
  | 0, _, _ => tooDeep
  | levels + 1, s, e => guarded <|
    match e.node with
    | .variable v => pure ((s.lookup? v).getD e)
    | .constant .. => pure e
    | _ => byParts e (fillByParts levels s)

/-- Under a guard with room two steps run alike if they do one level further down. -/
theorem guarded_congr {x y : Expansion α} {n : Nat} (hroom : Room (n + 1) st)
    (heq : ∀ st₀ : WalkState Stats, st₀.supply = st.supply → Room n st₀ → x st₀ = y st₀) :
    guarded x st = guarded y st := by
  obtain ⟨g, hguard, hle⟩ := hroom
  have hroom₀ : Room n { st with guard := some { g with depth := g.depth + 1 } } :=
    ⟨_, rfl, by simp only; omega⟩
  have henter : g.enter? = some { g with depth := g.depth + 1 } := if_pos (by omega)
  have hrun := heq { st with guard := some { g with depth := g.depth + 1 } } rfl hroom₀
  simp only [guarded, hguard, henter, hrun]

/-- Visits that run alike in every later heap run alike one after the other. -/
theorem each_congr {f g : Expr → Expansion Expr} {xs : List Expr} (hnext : st.supply.next = h.next)
    (hvisit : ∀ x ∈ xs, ∀ (h' : Heap) (st' : WalkState Stats), h ≤ h' → st'.guard = st.guard →
      st'.supply.next = h'.next → Makes h' st' (f x) (fun _ _ => True) ∧ f x st' = g x st') :
    each f xs st = each g xs st := by
  induction xs generalizing h st with
  | nil => rfl
  | cons x xs ih =>
    rw [List.forall_mem_cons] at hvisit
    obtain ⟨⟨y, st₁, h₁, hy, hguard₁, -, hle₁, hnext₁, -⟩, heq⟩ := hvisit.1 h st h.le_refl rfl hnext
    have hrest := ih hnext₁ fun z hz h' st' hle hguard => hvisit.2 z hz h' st' (Heap.le_trans hle₁ hle)
      (hguard.trans hguard₁)
    refine (hy.run_bind _).trans (Eq.trans ?_ (Yields.run_bind (heq.symm.trans hy) _).symm)
    show (each f xs >>= fun ys => pure (y :: ys)) st₁ = (each g xs >>= fun ys => pure (y :: ys)) st₁
    rw [Walk.run_bind, hrest, ← Walk.run_bind]

/-- The walk through the children of an expression depends on the visits to them only. -/
theorem children_congr {f g : Expr → Expansion Expr} {cs : List Expr} {st₁ : WalkState Stats}
    (heach : (each f e.node.visitOrder).Yields st cs st₁)
    (heq : each f e.node.visitOrder st = each g e.node.visitOrder st) :
    Walk.children e (fun c _ => f c) st = Walk.children e (fun c _ => g c) st := by
  obtain ⟨n, hn, horder⟩ := Node.exists_traverse heach
  obtain ⟨n', hn', horder'⟩ := Node.exists_traverse (f := g) (heq.symm.trans heach)
  obtain rfl : n' = n := Node.eq_of_shape
    ((Node.shape_of_traverse hn').1.trans (Node.shape_of_traverse hn).1.symm) (horder'.trans horder.symm)
  exact (hn.run_bind _).trans (hn'.run_bind fun n => if sameChildren e.node n then pure e else alloc n).symm

/-- The expressions in a node are filled one after the other, and labels tell whether one came back as
itself. -/
theorem Ready.fills_each {n levels : Nat} (h₀ : Ready frame next e n h st) (hscope : s.bindings = frame)
    (hplain : e.Plain) (hsettled : e.Settled) (hheight : e.height ≤ n + 1) (hlevels : n ≤ levels)
    {xs : List Expr} (hxs : ∀ x ∈ xs, x ∈ e.children) :
    ∃ cs st', (each (expandUnder .idle asWritten levels s) xs).Yields st cs st' ∧
      List.Forall₂ (Expr.Filled frame next) xs cs ∧ LabelsDecide xs cs := by
  obtain ⟨cs, st', h', hrun, -, -, hle, -, hheld, hlength, hfilled⟩ :=
    makes_each (R := Expr.Filled frame next) h₀.supply fun x hx h' st' hle hguard hnext => by
      have hc := hxs x hx
      have hlt := Expr.height_lt_of_mem_children hc
      exact fills (n := levels) hscope ((Expr.plain_iff.1 hplain).2 x hc)
        ((Expr.settled_iff.1 hsettled).2 x hc) (by omega)
        (h₀.later (h₀.holds.child hc) (by omega) hle hguard hnext)
  refine ⟨cs, st', hrun, List.forall₂_iff_zip.2 ⟨hlength.symm, fun hp => hfilled _ hp⟩, ?_⟩
  intro x hx c hc hlabel
  exact (hheld c hc).eq_of_label (Heap.Holds.mono (h₀.holds.child (hxs x hx)) hle) hlabel

/-- If the visits go part by part, so do many one after the other. -/
theorem Ready.eq_each {n levels : Nat} (h₀ : Ready frame next e n h st) (hscope : s.bindings = frame)
    (hplain : e.Plain) (hsettled : e.Settled) (hheight : e.height ≤ n + 1) (hlevels : n ≤ levels)
    {xs : List Expr} (hxs : ∀ x ∈ xs, x ∈ e.children)
    (hvisit : ∀ x ∈ xs, ∀ h' st', Ready frame next x x.height h' st' →
      expandUnder .idle asWritten levels s x st' = fillByParts levels s x st') :
    each (expandUnder .idle asWritten levels s) xs st = each (fillByParts levels s) xs st := by
  refine each_congr h₀.supply fun x hx h' st' hle hguard hnext => ?_
  have hc := hxs x hx
  have hlt := Expr.height_lt_of_mem_children hc
  have hready : Ready frame next x x.height h' st' :=
    h₀.later (h₀.holds.child hc) (by omega) hle hguard hnext
  obtain ⟨out, st₁, h₁, hrun, hguard₁, hown₁, hle₁, hnext₁, -⟩ :=
    fills (n := levels) hscope ((Expr.plain_iff.1 hplain).2 x hc) ((Expr.settled_iff.1 hsettled).2 x hc)
      (by omega) hready
  exact ⟨⟨out, st₁, h₁, hrun, hguard₁, hown₁, hle₁, hnext₁, trivial⟩, hvisit x hx h' st' hready⟩

/-- If the visits to the children of an expression go part by part, so does the walk through them. -/
theorem Ready.children_eq {n levels : Nat} (h₀ : Ready frame next e n h st) (hscope : s.bindings = frame)
    (hplain : e.Plain) (hsettled : e.Settled) (hheight : e.height ≤ n + 1) (hlevels : n ≤ levels)
    (hvisit : ∀ c ∈ e.children, ∀ h' st', Ready frame next c c.height h' st' →
      expandUnder .idle asWritten levels s c st' = fillByParts levels s c st') :
    Walk.children e (fun c _ => expandUnder .idle asWritten levels s c) st =
      byParts e (fillByParts levels s) st := by
  have hmem : ∀ c ∈ e.node.visitOrder, c ∈ e.children := fun c hc => Node.mem_visitOrder.1 hc
  obtain ⟨cs, st', hcs, -, hlabels⟩ := h₀.fills_each hscope hplain hsettled hheight hlevels hmem
  have hvisits := h₀.eq_each hscope hplain hsettled hheight hlevels hmem fun c hc => hvisit c (hmem c hc)
  refine (children_congr hcs hvisits).trans (children_eq_byParts fun cs' st'' hcs' => ?_)
  obtain ⟨rfl, -⟩ := hcs.unique (hvisits.trans hcs')
  exact hlabels

/-- Filling a tree that holds nothing to expand is going through it part by part. -/
theorem expandUnder_eq_fillByParts (hscope : s.bindings = frame) (hplain : e.Plain) (hsettled : e.Settled)
    {levels : Nat} (hlevels : e.height ≤ levels) (h₀ : Ready frame next e e.height h st) :
    expandUnder .idle asWritten levels s e st = fillByParts levels s e st := by
  induction e using Expr.childInduction generalizing levels h st with
  | step e ih =>
    obtain ⟨k, hk⟩ : ∃ k, e.height = k + 1 := ⟨_, (e.height_eq).trans (Nat.add_comm _ _)⟩
    obtain ⟨n, rfl⟩ : ∃ m, levels = m + 1 := ⟨levels - 1, by omega⟩
    have hroom := h₀.room
    rw [hk] at hroom
    rw [expandUnder, fillByParts]
    refine guarded_congr hroom fun st₀ hsupply hroom₀ => ?_
    have hready : Ready frame next e k h st₀ := { h₀ with supply := hsupply ▸ h₀.supply, room := hroom₀ }
    rcases Expr.action_of_not_foreign (Expr.plain_iff.1 hplain).1 with
      ⟨v, haction⟩ | haction | ⟨compiled, tree, haction⟩ | haction
    · rw [Expr.node_of_look haction]
      rfl
    · obtain ⟨value, ty, hnode⟩ := Expr.node_of_pass haction
      rw [hnode]
      rfl
    · exact absurd haction (hsettled.action_ne_capture compiled tree)
    · have hparts := hready.children_eq hscope hplain hsettled (by omega) (show k ≤ n by omega)
        fun c hc h' st' => by
          have hlt := Expr.height_lt_of_mem_children hc
          exact ih c hc ((Expr.plain_iff.1 hplain).2 c hc) ((Expr.settled_iff.1 hsettled).2 c hc) (by omega)
      obtain ⟨-, hvariable, -⟩ := Expr.plain_of_descend haction
      simp only [haction]
      refine hparts.trans ?_
      obtain ⟨l, node⟩ := e
      cases node <;> first | rfl | exact absurd rfl hvariable

/-- A copy of a fragment of the expression, wherever in the run it is made. The expressions in the fragment
are filled. The fragment itself is kept exactly if each of them comes back as itself, and therefore if no
parameter occurs in it. -/
def FillsFragment (frame : List (Variable × Expr)) (next : Nat) (s : Scope) (e : Expr) (f : Fragment) :
    Prop :=
  ∀ n levels h st, Ready frame next e n h st → e.height ≤ n + 1 → n ≤ levels →
    ∃ copied st', (f.copy (fillByParts levels s)).Yields st copied st' ∧
      List.Forall₂ (Expr.Filled frame next) f.exprs (copied.getD f).exprs ∧
      (copied = none ↔ (copied.getD f).exprs = f.exprs) ∧
      ((∀ x ∈ f.exprs, x.Spared frame) → copied = none)

theorem fillsFragment (hscope : s.bindings = frame) (hplain : e.Plain) (hsettled : e.Settled)
    {f : Fragment} (hf : f ∈ e.node.fragments) : FillsFragment frame next s e f := by
  intro n levels h st h₀ hheight hlevels
  have hmem : ∀ x ∈ f.exprs, x ∈ e.children := fun x hx => Node.mem_children_of_fragments hf hx
  obtain ⟨cs, st', hcs, hfilled, hlabels⟩ := h₀.fills_each hscope hplain hsettled hheight hlevels hmem
  have hvisits : each (expandUnder .idle asWritten levels s) f.exprs st =
      each (fillByParts levels s) f.exprs st := by
    refine h₀.eq_each hscope hplain hsettled hheight hlevels hmem fun x hx h' st' => ?_
    have hlt := Expr.height_lt_of_mem_children (hmem x hx)
    exact expandUnder_eq_fillByParts hscope ((Expr.plain_iff.1 hplain).2 x (hmem x hx))
      ((Expr.settled_iff.1 hsettled).2 x (hmem x hx)) (by omega)
  obtain ⟨copied, hcopied, hback⟩ := (Fragment.copy_matches _ f).yields (hvisits.symm.trans hcs)
  obtain ⟨rfl, hsame⟩ := hback hlabels
  rw [Option.isNone_iff_eq_none] at hsame
  refine ⟨copied, st', hcopied, hfilled, hsame, fun hspared => hsame.2 ?_⟩
  refine eq_of_forall_mem_zip hfilled.length_eq.symm fun p hp => ?_
  exact (hspared p.1 (List.of_mem_zip hp).1).eq_of_filled ((List.forall₂_iff_zip.1 hfilled).2 hp)

end Filling

end Expansion

/-! ## One inlining -/

namespace Expansion

open Walk

variable {e lambda body : Expr} {params : List Variable} {args : List Expr} {ty lambdaTy : Ty}

/-- A lambda is found in one level. -/
theorem yields_peelUnder_lambda {s : Scope} {n : Nat} {st : WalkState Stats}
    (hlambda : lambda.node = .lambda params body lambdaTy) (hroom : Room 1 st) :
    (peelUnder .idle s (n + 1) lambda).Yields st (params, body) st := by
  obtain ⟨st₀, hsupply, hown, -, hguarded⟩ := hroom.enter
  have hrun := hguarded (pure (params, body)) (params, body) st₀ (yields_pure.2 ⟨rfl, rfl⟩) rfl
  rw [hsupply, hown] at hrun
  rwa [peelUnder, hlambda]

/-- A visit of the invocation finds the lambda, expands the arguments to themselves and binds them all. The
rest of the run counts the invocation and goes through the body part by part, and the body is filled. -/
theorem yields_invocation {h : Heap} {st : WalkState Stats} {limit : Nat}
    (hnode : e.node = .invocation lambda args ty) (hlambda : lambda.node = .lambda params body lambdaTy)
    (hnodup : params.Nodup) (hlength : args.length = params.length) (hbody : body.Plain ∧ body.Settled)
    (hargs : ∀ a ∈ args, a.Plain ∧ a.Settled) (hlimit : e.height ≤ limit) (hroom : Room e.height st)
    (he : h.Holds e) (hnext : st.supply.next = h.next) :
    ∃ inner out st', Scope.root.extend (params.zip args) = .ok inner ∧ inner.bindings = params.zip args ∧
      (expandUnder .idle asWritten limit .root e).Yields st out st' ∧
      (guarded (modifyOwn Stats.inlined >>= fun _ => fillByParts (limit - 1) inner body)).Yields st out st' ∧
      st'.own = st.own.inlined ∧ body.Filled (params.zip args) h.next out := by
  have hchildren : e.children = lambda :: args := by
    rw [Expr.children, hnode]
    rfl
  have hlambdaMem : lambda ∈ e.children := hchildren ▸ List.mem_cons_self
  have hbodyMem : body ∈ lambda.children := Expr.mem_children_of_lambda hlambda
  have hargsMem : ∀ a ∈ args, a ∈ e.children := fun a ha => hchildren ▸ List.mem_cons_of_mem _ ha
  have hlambdaHeight := Expr.height_lt_of_mem_children hlambdaMem
  have hbodyHeight := Expr.height_lt_of_mem_children hbodyMem
  obtain ⟨n, rfl⟩ : ∃ n, limit = n + 2 := ⟨limit - 2, by omega⟩
  obtain ⟨k, hk⟩ : ∃ k, e.height = k + 1 := ⟨e.height - 1, by omega⟩
  rw [hk] at hroom
  obtain ⟨st₀, hsupply, hown, hroom₀, hguarded⟩ := hroom.enter
  have hreplacements : (each (expandUnder .idle asWritten (n + 1) .root) args).Yields st₀ args st₀ := by
    refine yields_each_self fun a ha => ?_
    have hheight := Expr.height_lt_of_mem_children (hargsMem a ha)
    exact yields_self (hargs a ha).1 (hargs a ha).2 (by omega) (hroom₀.mono (by omega))
  have hzip : (params.zip args).map (·.1) = params := List.map_fst_zip (Nat.le_of_eq hlength.symm)
  have hextend : Scope.root.extend (params.zip args) = .ok ⟨params.zip args :: Scope.root.frames⟩ :=
    Scope.extend_eq_ok_iff.2 ⟨rfl, hzip.symm ▸ hnodup, fun _ _ => List.not_mem_nil⟩
  have hbindings : Scope.bindings ⟨params.zip args :: Scope.root.frames⟩ = params.zip args :=
    (Scope.bindings_of_extend hextend).trans (List.append_nil _)
  -- counting the invocation changes neither the supply nor the guard
  have hready : Ready (params.zip args) h.next body body.height h { st₀ with own := st₀.own.inlined } :=
    { holds := (he.child hlambdaMem).child hbodyMem
      frame := fun p hp => he.child (hargsMem p.2 (List.of_mem_zip hp).2)
      first := Nat.le_refl h.next
      supply := (congrArg _ hsupply).trans hnext
      room := (hroom₀.of_guard rfl).mono (by omega) }
  have hlevels : body.height ≤ n + 1 := by omega
  obtain ⟨out, st₁, h₁, hrun, hguard₁, hown₁, -, -, -, hfilled⟩ :=
    fills hbindings hbody.1 hbody.2 hlevels hready
  have hparts : (fillByParts (n + 1) ⟨params.zip args :: Scope.root.frames⟩ body).Yields _ out st₁ :=
    (expandUnder_eq_fillByParts hbindings hbody.1 hbody.2 hlevels hready).symm.trans hrun
  refine ⟨_, out, { st₁ with guard := st.guard }, hextend, hbindings, ?_,
    hguarded _ out st₁ (yields_bind.2 ⟨(), _, yields_modifyOwn.2 rfl, hparts⟩) hguard₁,
    hown₁.trans (congrArg Stats.inlined hown), hfilled⟩
  rw [expandUnder]
  refine hguarded _ out st₁ ?_ hguard₁
  have haction : e.node.action = .inline lambda args := by
    rw [hnode]
    rfl
  simp only [haction]
  refine yields_bind.2 ⟨(params, body), st₀, yields_peelUnder_lambda hlambda (hroom₀.mono (by omega)), ?_⟩
  rw [if_neg (not_not.2 hlength.symm)]
  refine yields_bind.2 ⟨args, st₀, hreplacements, yields_bind.2 ⟨(params, body), st₀,
    yields_pure.2 ⟨rfl, rfl⟩, yields_bind.2 ⟨_, st₀, yields_liftM.2 ⟨hextend, rfl⟩, ?_⟩⟩⟩
  exact yields_bind.2 ⟨(), _, yields_modifyOwn.2 rfl, hrun⟩

end Expansion

/-- Inlining is simultaneous substitution. Let the parameters of a lambda be distinct, and let neither its
body nor an argument hold anything to expand or a node of unknown kind. Then under every limit that is not
below its height the invocation of the lambda expands, one invocation is counted and nothing else, and the
result is the body filled with the arguments. The run goes through the body part by part, and a constructor
call, a binding or an element initializer of the body is the one that was there unless an expression in it
was replaced. -/
theorem expand_invocation_fills (e lambda body : Expr) (params : List Variable) (args : List Expr)
    (ty lambdaTy : Ty) (supply : Supply) (hnode : e.node = .invocation lambda args ty)
    (hlambda : lambda.node = .lambda params body lambdaTy) (hnodup : params.Nodup)
    (hlength : args.length = params.length) (hbody : body.residue.isEmpty = true)
    (hargs : ∀ a ∈ args, a.residue.isEmpty = true) (hbodyKnown : ∀ c ∈ body.nodes, c.kind ≠ .extension)
    (hargsKnown : ∀ a ∈ args, ∀ c ∈ a.nodes, c.kind ≠ .extension) (he : e.Coherent supply) (limit : Nat)
    (hlimit : e.height ≤ limit) :
    ∃ inner out supply', Scope.root.extend (params.zip args) = .ok inner ∧
      expand limit e supply = .ok (⟨out, { invocationsInlined := 1 }⟩, supply') ∧
      body.Filled (params.zip args) supply.next out ∧
      Expansion.expandIn limit .root e { supply, guard := some { limit }, own := {} } =
        Walk.guarded (Walk.modifyOwn Stats.inlined >>= fun _ => Expansion.fillByParts (limit - 1) inner body)
          { supply, guard := some { limit }, own := {} } ∧
      ∀ c ∈ body.nodes, ∀ f ∈ c.node.fragments,
        Expansion.FillsFragment (params.zip args) supply.next inner c f := by
  obtain ⟨heap, hnext, hheld⟩ := he.exists_heap
  have hroom : Walk.Room e.height
      ({ supply, guard := some { limit }, own := {} } : WalkState Stats) := ⟨_, rfl, by simpa using hlimit⟩
  have hplain := Expr.plain_of_residue hbody hbodyKnown
  obtain ⟨inner, out, ⟨supply', guard, own⟩, hextend, hbindings, hrun, hparts, hown, hfilled⟩ :=
    Expansion.yields_invocation hnode hlambda hnodup hlength hplain
      (fun a ha => Expr.plain_of_residue (hargs a ha) (hargsKnown a ha)) hlimit hroom hheld hnext.symm
  obtain rfl : own = { invocationsInlined := 1 } := hown
  refine ⟨inner, out, supply', hextend, ?_, hnext ▸ hfilled, ?_, fun c hc f hf => ?_⟩
  · rw [← expandWith_idle]
    exact expandWith_eq_ok_iff.2 ⟨guard, hrun⟩
  · rw [← Expansion.expandUnder_idle]
    exact hrun.trans hparts.symm
  · exact Expansion.fillsFragment hbindings (fun a ha => hplain.1 a (Expr.mem_nodes_trans hc ha))
      (fun a ha => hplain.2 a (Expr.mem_nodes_trans hc ha)) hf

namespace AppliedInitializer

def x : Variable := ⟨0, "x", .int⟩

def y : Variable := ⟨1, "y", .int⟩

def member (name : String) : Member := ⟨.type "P", name, .field, .int⟩

def add : Method := { owner := "P", name := "Add", isStatic := false, ret := .unit }

def one : Expr := .mk 2 (.int 1)

/-- A binding without a parameter in it. -/
def nested : Binding Expr := .nested (member "b") [.assign (member "c") one]

/-- An object initializer that uses one expression twice, another one once, and has a binding and an element
of its own. -/
def initializer (twice once : Expr) : Node :=
  .memberInit ⟨.named "P", [twice], none⟩
    [.assign (member "a") once, nested, .elements (member "d") [⟨add, [twice]⟩, ⟨add, [one]⟩]]

def body : Expr := .mk 5 (initializer (.mk 3 (.variable x)) (.mk 4 (.variable y)))

/-- The first argument is an occurrence of the second parameter. -/
def arguments : List Expr := [.mk 7 (.variable y), .mk 8 (.int 2)]

def applied : Expr := .mk 9 (.invokeOf (.mk 6 (.lambdaOf [x, y] body)) arguments)

theorem coherent_applied : applied.Coherent ⟨10⟩ := by
  have hone := (Made.start ⟨2⟩).next (.int 1)
    (by simp [Node.int, Node.children, Node.payload, Value.trees])
  have hx := hone.next (.variable x) (by simp [Node.children, Node.payload])
  have hy := hx.next (.variable y) (by simp [Node.children, Node.payload])
  have hbody := hy.next (initializer (.mk 3 (.variable x)) (.mk 4 (.variable y)))
    (by simp [initializer, nested, one, Node.children, Node.payload, Binding.exprsOfAll, Binding.exprs])
  have hlambda := hbody.next (.lambdaOf [x, y] body)
    (by simp [body, Node.lambdaOf, Node.children, Node.payload])
  have hfirst := hlambda.next (.variable y) (by simp [Node.children, Node.payload])
  have hsecond := hfirst.next (.int 2) (by simp [Node.int, Node.children, Node.payload, Value.trees])
  have happlied := hsecond.next (.invokeOf (.mk 6 (.lambdaOf [x, y] body)) arguments)
    (by simp [arguments, Node.invokeOf, Node.children, Node.payload])
  exact happlied.coherent List.mem_cons_self

/-- The run where it comes to the bindings of the body. -/
def inBody : WalkState Stats :=
  { supply := ⟨10⟩, guard := some { limit := 4, depth := 2 }, own := { invocationsInlined := 1 } }

/-- Both parameters are replaced at once: the occurrence of `y` in the first argument stays, and both of its
uses are the argument itself. The binding without a parameter is kept. -/
theorem expand_applied_fills :
    ∃ inner out supply', Scope.root.extend ([x, y].zip arguments) = .ok inner ∧
      expand 4 applied ⟨10⟩ = .ok (⟨out, { invocationsInlined := 1 }⟩, supply') ∧
      body.Filled ([x, y].zip arguments) 10 out ∧ out.children.map (·.label) = [7, 8, 2, 7, 2] ∧
      ∃ st', ((Fragment.binding nested).copy (Expansion.fillByParts 2 inner)).Yields inBody none st' := by
  obtain ⟨inner, out, supply', hextend, hexpand, hfilled, -, hfragments⟩ := expand_invocation_fills applied
    (.mk 6 (.lambdaOf [x, y] body)) body [x, y] arguments _ _ ⟨10⟩ rfl rfl (by decide) rfl (by decide +kernel)
    (by decide +kernel) (by decide +kernel) (by decide +kernel) coherent_applied 4 (by decide +kernel)
  have hlabels : (expand 4 applied ⟨10⟩).map (fun r => r.1.tree.children.map (·.label)) =
      .ok [7, 8, 2, 7, 2] := by decide +kernel
  rw [hexpand] at hlabels
  refine ⟨inner, out, supply', hextend, hexpand, hfilled, Except.ok.inj hlabels, ?_⟩
  obtain ⟨heap, hnext, hheld⟩ := coherent_applied.exists_heap
  have hready : Expansion.Ready ([x, y].zip arguments) 10 body 2 heap inBody :=
    { holds := (hheld.child (c := .mk 6 (.lambdaOf [x, y] body)) List.mem_cons_self).child List.mem_cons_self
      frame := fun p hp => hheld.child (List.mem_cons_of_mem _ (List.of_mem_zip hp).2)
      first := Nat.le_of_eq hnext.symm
      supply := hnext.symm
      room := ⟨_, rfl, by decide⟩ }
  obtain ⟨copied, st', hcopied, -, -, hspared⟩ := hfragments body body.mem_nodes_self (.binding nested)
    (by simp [body, initializer, nested, Node.fragments, Binding.fragmentsOfAll, Binding.fragments]) 2 2 heap inBody hready (by decide +kernel) (Nat.le_refl 2)
  have hone : one.Spared ([x, y].zip arguments) := by
    refine Expr.spared_iff.2 ⟨fun p _ hvariable => ?_, fun c hc => absurd hc List.not_mem_nil⟩
    cases hvariable
  obtain rfl : copied = none := hspared (List.forall_mem_singleton.2 hone)
  exact ⟨st', hcopied⟩

end AppliedInitializer

end ExprTree
