import ExprTree.Proofs.Copying
import ExprTree.Proofs.Rebuilding

/-!
# Walks that change leaves

A walker with nothing but its own treatment of leaves visits them one after the other, and what it does
above them is settled by what it gets. If a leaf fails, the walk fails there. Otherwise it gives the tree
with all nodes made again around the new leaves (`Expr.rebuilt`), but makes no node again without need: it
gives back the tree itself exactly if every leaf came back as itself, and it shares everything in which no
leaf has changed, down to the constructor calls, bindings and element initializers that it visits as parts of
a node (`walk_rebuilds_and_shares`).

What a walker gives for a leaf is any expression, one that exists or one that it makes. It decides on it
with the help of a state of its own. That labels are identities is something a walker could break, by giving
a label to a second node; `Walker.OnlyLeaves` says that it does not.
-/

namespace ExprTree

open Walk

variable {σ α : Type}

/-! ## Walkers for leaves -/

/-- What becomes of a leaf. A node of unknown kind fails. -/
def Walker.leaf (w : Walker σ) (e : Expr) : Walk σ Expr :=
  match e.node with
  | .constant value _ => w.constant e value
  | .variable v => w.var e v
  | .extension kind _ => throw (.unhandledKind kind)
  | _ => pure e

/-- There is no guard, the labels drawn so far are those of the heap, and the walker can rely on what it
keeps. -/
structure Walker.Fits (keeps : Heap → σ → Prop) (h : Heap) (st : WalkState σ) : Prop where
  guard : st.guard = none
  next : st.supply.next = h.next
  own : keeps h st.own

/-- The walker treats leaves in its own way and nothing else, and under it labels stay identities: what it
gives for a leaf is held by a heap that has grown from the one before. It may rely on what it keeps from one
leaf to the next, and on whatever stays true as heaps grow. -/
structure Walker.OnlyLeaves (w : Walker σ) (keeps : Heap → σ → Prop) : Prop where
  enter : ∀ e, w.enter e = pure ()
  mono : ∀ {h h' own}, h ≤ h' → keeps h own → keeps h' own
  leaf : ∀ {h st e out st'}, h.Holds e → Fits keeps h st → (w.leaf e).Yields st out st' →
    ∃ h', h ≤ h' ∧ Fits keeps h' st' ∧ h'.Holds out

/-- Nothing has happened but that labels were drawn. -/
structure WalkState.Drawn (st st' : WalkState σ) : Prop where
  guard : st'.guard = st.guard
  own : st'.own = st.own
  supply : st.supply.next ≤ st'.supply.next

theorem WalkState.Drawn.refl (st : WalkState σ) : st.Drawn st := ⟨rfl, rfl, Nat.le_refl _⟩

theorem WalkState.Drawn.trans {st₁ st₂ st₃ : WalkState σ} (h : st₁.Drawn st₂) (h' : st₂.Drawn st₃) :
    st₁.Drawn st₃ :=
  ⟨h'.guard.trans h.guard, h'.own.trans h.own, Nat.le_trans h.supply h'.supply⟩

namespace Walker

/-- The leaves are treated one after the other, with these results. In between nothing but labels is
drawn, for the nodes above them. -/
inductive Visits (w : Walker σ) : WalkState σ → List Expr → List Expr → WalkState σ → Prop
  | done {st st' : WalkState σ} : st.Drawn st' → Visits w st [] [] st'
  | leaf {st st₁ st₂ st' : WalkState σ} {x out : Expr} {xs outs : List Expr} : st.Drawn st₁ →
      (w.leaf x).Yields st₁ out st₂ → Visits w st₂ xs outs st' → Visits w st (x :: xs) (out :: outs) st'

/-- One of the leaves fails, and all before it are treated. -/
def FailsFirst (w : Walker σ) (st : WalkState σ) (xs : List Expr) (failure : Failure) : Prop :=
  ∃ before x after outs st₁, xs = before ++ x :: after ∧ w.Visits st before outs st₁ ∧
    (w.leaf x).Fails st₁ failure

variable {w : Walker σ} {st st₁ st₂ : WalkState σ} {xs ys outs outs' : List Expr} {failure : Failure}

theorem Visits.after_drawn (hdrawn : st.Drawn st₁) (h : w.Visits st₁ xs outs st₂) :
    w.Visits st xs outs st₂ := by
  cases h with
  | done hlast => exact .done (hdrawn.trans hlast)
  | leaf hfirst hx hrest => exact .leaf (hdrawn.trans hfirst) hx hrest

theorem Visits.append (h : w.Visits st xs outs st₁) (h' : w.Visits st₁ ys outs' st₂) :
    w.Visits st (xs ++ ys) (outs ++ outs') st₂ := by
  induction h with
  | done hdrawn => exact h'.after_drawn hdrawn
  | leaf hdrawn hx _ ih => exact .leaf hdrawn hx (ih h')

theorem FailsFirst.append (h : w.FailsFirst st xs failure) (ys : List Expr) :
    w.FailsFirst st (xs ++ ys) failure := by
  obtain ⟨before, x, after, outs, st₁, rfl, hvisits, hfails⟩ := h
  exact ⟨before, x, after ++ ys, outs, st₁, by simp, hvisits, hfails⟩

theorem Visits.failsFirst (h : w.Visits st xs outs st₁) (h' : w.FailsFirst st₁ ys failure) :
    w.FailsFirst st (xs ++ ys) failure := by
  obtain ⟨before, x, after, outs', st₂, rfl, hvisits, hfails⟩ := h'
  exact ⟨xs ++ before, x, after, outs ++ outs', st₂, by simp, h.append hvisits, hfails⟩

/-! ## Runs -/

/-- A run fails where the first of the leaves fails; or it treats them all and succeeds. -/
def Runs (w : Walker σ) (keeps : Heap → σ → Prop) (h : Heap) (st : WalkState σ) (x : Walk σ α)
    (leaves : List Expr) (Q : Heap → α → List Expr → Prop) : Prop :=
  (∃ failure, x.Fails st failure ∧ w.FailsFirst st leaves failure) ∨
    ∃ a st' h' outs, x.Yields st a st' ∧ w.Visits st leaves outs st' ∧ h ≤ h' ∧ Fits keeps h' st' ∧
      Q h' a outs

/-- What a run makes of an expression. -/
def Treats (next : Nat) (e : Expr) (h : Heap) (out : Expr) (outs : List Expr) : Prop :=
  h.Holds out ∧ outs = e.results out ∧ e.Walked next out

variable {keeps : Heap → σ → Prop} {h : Heap} {next : Nat} {e : Expr}

/-- Expressions that are treated in every later heap are treated one after the other. -/
theorem runs_each {f : Expr → Walk σ Expr} (hst : Fits keeps h st)
    (hvisit : ∀ x ∈ xs, ∀ h' st', h ≤ h' → Fits keeps h' st' →
      w.Runs keeps h' st' (f x) x.leaves (Treats next x)) :
    w.Runs keeps h st (each f xs) (xs.flatMap Expr.leaves) fun h' cs outs =>
      (∀ c ∈ cs, h'.Holds c) ∧ outs = Expr.resultsOfAll xs cs ∧ List.Forall₂ (Expr.Walked next) xs cs := by
  induction xs generalizing h st with
  | nil =>
    exact .inr ⟨[], st, h, [], yields_each_nil.2 ⟨rfl, rfl⟩, .done (.refl st), h.le_refl, hst, by simp, rfl,
      .nil⟩
  | cons x xs ih =>
    rw [List.forall_mem_cons] at hvisit
    obtain ⟨failure, hx, hfirst⟩ |
      ⟨y, st₁, h₁, outs₁, hy, hvisits₁, hle₁, hfits₁, hheld, rfl, hwalked⟩ :=
        hvisit.1 h st h.le_refl hst
    · exact .inl ⟨failure, fails_each_cons.2 (.inl hx), hfirst.append _⟩
    have hrest := ih hfits₁ fun z hz h' st' hle => hvisit.2 z hz h' st' (Heap.le_trans hle₁ hle)
    obtain ⟨failure, hxs, hfirst⟩ |
      ⟨ys, st₂, h₂, outs₂, hys, hvisits₂, hle₂, hfits₂, hhelds, rfl, hwalkeds⟩ := hrest
    · exact .inl ⟨failure, fails_each_cons.2 (.inr ⟨y, st₁, hy, hxs⟩), hvisits₁.failsFirst hfirst⟩
    · refine .inr ⟨y :: ys, st₂, h₂, _, yields_each_cons.2 ⟨y, st₁, ys, hy, hys, rfl⟩,
        hvisits₁.append hvisits₂, Heap.le_trans hle₁ hle₂, hfits₂, ?_, rfl, .cons hwalked hwalkeds⟩
      exact List.forall_mem_cons.2 ⟨hheld.mono hle₂, hhelds⟩

/-- The expression above children that are treated is kept or made again. -/
theorem runs_children {f : Expr → Walk σ Expr} (hw : w.OnlyLeaves keeps) (he : h.Holds e)
    (hst : Fits keeps h st) (hnext : next ≤ h.next) (hnode : e.isLeaf = false)
    (hvisit : ∀ c ∈ e.children, ∀ h' st', h ≤ h' → Fits keeps h' st' →
      w.Runs keeps h' st' (f c) c.leaves (Treats next c)) :
    w.Runs keeps h st (Walk.children e fun c _ => f c) e.leaves (Treats next e) := by
  rw [Expr.leaves_of_node hnode]
  obtain ⟨failure, hfails, hfirst⟩ |
    ⟨cs, st₁, h₁, outs, heach, hvisits, hle₁, hfits₁, hheld, rfl, hwalked⟩ :=
      runs_each hst fun c hc => hvisit c (Node.mem_visitOrder.1 hc)
  · exact .inl ⟨failure, fails_children.2 hfails, hfirst⟩
  obtain ⟨out, st₂, h₂, hrun, hle₂, hholds, hnext₂, hguard₂, hown₂, hshape, rfl⟩ :=
    Yields.children (he.mono hle₁) hheld hfits₁.next heach
  -- the node that is made draws a label, and nothing else happens after the children
  have hdrawn : st₁.Drawn st₂ :=
    ⟨hguard₂, hown₂, by rw [hfits₁.next, hnext₂]; exact hle₂.next_le⟩
  have hfits₂ : Fits keeps h₂ st₂ :=
    ⟨hguard₂.trans hfits₁.guard, hnext₂, hown₂ ▸ hw.mono hle₂ hfits₁.own⟩
  have hvisits₂ := hvisits.append (.done hdrawn)
  rw [List.append_nil, List.append_nil] at hvisits₂
  refine .inr ⟨out, st₂, h₂, _, hrun, hvisits₂, Heap.le_trans hle₁ hle₂, hfits₂, hholds,
    (Expr.results_of_node hnode).symm, ?_⟩
  refine .node hnode hshape hwalked.length_eq.symm (fun p hp => (List.forall₂_iff_zip.1 hwalked).2 hp)
    (fun hsame => ?_) fun hchanged => ?_
  · rw [hsame] at heach
    exact (hrun.unique (Yields.children_self heach)).1
  · have hchildren : out.children ≠ e.children := fun hsame =>
      hchanged (Node.visitOrder_congr hshape hsame)
    rw [Yields.label_of_children heach hrun hchildren, hfits₁.next]
    exact Nat.le_trans hnext hle₁.next_le

theorem visit_of_leaf (hw : w.OnlyLeaves keeps) (hguard : st.guard = none) (hleaf : e.isLeaf = true) :
    w.visit e st = w.leaf e st := by
  rw [Walker.visit, hw.enter]
  show Walk.guarded _ st = _
  simp only [Walk.guarded, hguard, Walker.leaf]
  obtain ⟨l, n⟩ := e
  cases n <;> first | rfl | cases hleaf

theorem visit_of_node (hw : w.OnlyLeaves keeps) (hguard : st.guard = none) (hnode : e.isLeaf = false) :
    w.visit e st = Walk.children e (fun c _ => w.visit c) st := by
  rw [Walker.visit, hw.enter]
  show Walk.guarded _ st = _
  simp only [Walk.guarded, hguard]
  obtain ⟨l, n⟩ := e
  cases n <;> first | rfl | cases hnode

/-- A walk treats the tree that it visits. -/
theorem runs_visit (hw : w.OnlyLeaves keeps) (he : h.Holds e) (hst : Fits keeps h st)
    (hnext : next ≤ h.next) : w.Runs keeps h st (w.visit e) e.leaves (Treats next e) := by
  induction e using Expr.childInduction generalizing h st with
  | step e ih =>
    cases hleaf : e.isLeaf with
    | true =>
      have hvisit := visit_of_leaf hw hst.guard hleaf
      rw [Expr.leaves_of_leaf hleaf]
      obtain ⟨out, st', hout⟩ | ⟨failure, hfails⟩ := yields_or_fails (w.leaf e) st
      · obtain ⟨h', hle, hfits, hheld⟩ := hw.leaf he hst hout
        exact .inr ⟨out, st', h', [out], hvisit.trans hout, .leaf (.refl st) hout (.done (.refl st')), hle,
          hfits, hheld, (Expr.results_of_leaf hleaf).symm, .leaf hleaf⟩
      · refine .inl ⟨failure, ?_, [], e, [], [], st, rfl, .done (.refl st), hfails⟩
        obtain ⟨st', hrun⟩ := hfails
        exact ⟨st', hvisit.trans hrun⟩
    | false =>
      have hvisit := visit_of_node hw hst.guard hleaf
      have hruns := runs_children hw he hst hnext hleaf fun c hc h' st' hle hfits =>
        ih c hc (Heap.Holds.mono (he.child hc) hle) hfits (Nat.le_trans hnext hle.next_le)
      obtain ⟨failure, ⟨st', hrun⟩, hfirst⟩ | ⟨out, st', h', outs, hrun, hrest⟩ := hruns
      · exact .inl ⟨failure, ⟨st', hvisit.trans hrun⟩, hfirst⟩
      · exact .inr ⟨out, st', h', outs, hvisit.trans hrun, hrest⟩

/-- Visiting expressions that are held gives expressions that are told from them by their labels. -/
theorem labelsDecide_of_each {cs : List Expr} (hw : w.OnlyLeaves keeps) (hxs : ∀ x ∈ xs, h.Holds x)
    (hst : Fits keeps h st) (hcs : (each w.visit xs).Yields st cs st₁) : LabelsDecide xs cs := by
  obtain ⟨failure, ⟨st', hfails⟩, -⟩ | ⟨cs', st', h', -, hcs', -, hle, -, hheld, -⟩ :=
    runs_each hst fun x hx h' st' hle hfits => runs_visit hw ((hxs x hx).mono hle) hfits h'.next.zero_le
  · rw [hcs] at hfails
    cases hfails
  · obtain ⟨rfl, -⟩ := hcs.unique hcs'
    exact fun x hx c hc hlabel => (hheld c hc).eq_of_label ((hxs x hx).mono hle) hlabel

/-- The walk goes through an expression part by part. -/
theorem visit_eq_byParts (hw : w.OnlyLeaves keeps) (he : h.Holds e) (hst : Fits keeps h st)
    (hnode : e.isLeaf = false) : w.visit e st = Walk.byParts e w.visit st := by
  rw [visit_of_node hw hst.guard hnode]
  refine children_eq_byParts fun cs st' hcs => ?_
  exact labelsDecide_of_each hw (fun c hc => he.child (Node.mem_visitOrder.1 hc)) hst hcs

/-- A fragment is copied if and only if a leaf in it has changed. -/
def Copies (f : Fragment) (copied : Option Fragment) (outs : List Expr) : Prop :=
  outs = f.results (copied.getD f) ∧ (copied = none ↔ outs.map (·.label) = f.leaves.map (·.label))

theorem runs_fragment (hw : w.OnlyLeaves keeps) (hst : Fits keeps h st) {f : Fragment}
    (hf : ∀ c ∈ f.exprs, h.Holds c) :
    w.Runs keeps h st (f.copy w.visit) f.leaves fun _ => Copies f := by
  have hcopy := Fragment.copy_matches w.visit f
  obtain ⟨failure, hfails, hfirst⟩ |
    ⟨cs, st₁, h₁, outs, hcs, hvisits, hle, hfits, hheld, rfl, hwalked⟩ :=
      runs_each hst fun c hc h' st' hle hfits => runs_visit hw ((hf c hc).mono hle) hfits h'.next.zero_le
  · exact .inl ⟨failure, hcopy.fails hfails, hfirst⟩
  obtain ⟨copied, hrun, hback⟩ := hcopy.yields hcs
  obtain ⟨rfl, hsame⟩ := hback (labelsDecide_of_each hw hf hst hcs)
  refine .inr ⟨copied, st₁, h₁, _, hrun, hvisits, hle, hfits, rfl, ?_⟩
  rw [← Option.isNone_iff_eq_none, hsame]
  exact (Expr.map_label_resultsOfAll_iff hwalked (fun c hc => (hf c hc).mono hle) hheld).symm

end Walker

/-- Copy-on-write walking is plain rebuilding. A walker that only treats leaves fails on a tree with the
first failure that it meets, in the order of the leaves. Otherwise it succeeds, and the result is the tree
made again from top to bottom around what it gave for the leaves, identities aside. The result is the tree
itself exactly if every leaf came back as itself, and at every place what holds no changed leaf is shared:
expressions, constructor calls, bindings and element initializers. The walk goes through a node part by
part, and it copies a constructor call, a binding or an element initializer exactly if one of its leaves has
changed. -/
theorem walk_rebuilds_and_shares (w : Walker σ) (keeps : Heap → σ → Prop) (hw : w.OnlyLeaves keeps)
    (h : Heap) (e : Expr) (st : WalkState σ) (he : h.Holds e) (hst : Walker.Fits keeps h st) :
    ((∃ failure, (w.visit e).Fails st failure ∧ w.FailsFirst st e.leaves failure) ∨
      ∃ out st' outs, (w.visit e).Yields st out st' ∧ w.Visits st e.leaves outs st' ∧
        out.recast {} = (e.rebuilt outs).recast {} ∧
        (out.label = e.label ↔ outs.map (·.label) = e.leaves.map (·.label)) ∧
        outs = e.results out ∧ ∀ c c', e.Beside out c c' → c.Shares st.supply.next c') ∧
      (e.isLeaf = false → w.visit e st = Walk.byParts e w.visit st) ∧
      ∀ f : Fragment, (∀ c ∈ f.exprs, h.Holds c) →
        w.Runs keeps h st (f.copy w.visit) f.leaves fun _ => Walker.Copies f := by
  refine ⟨?_, Walker.visit_eq_byParts hw he hst, fun f hf => Walker.runs_fragment hw hst hf⟩
  have hruns : w.Runs keeps h st (w.visit e) e.leaves (Walker.Treats st.supply.next e) :=
    Walker.runs_visit hw he hst (Nat.le_of_eq hst.next)
  obtain hfails | ⟨out, st', h', _, hrun, hvisits, hle, -, hheld, rfl, hwalked⟩ := hruns
  · exact .inl hfails
  · exact .inr ⟨out, st', e.results out, hrun, hvisits, hwalked.recast_rebuilt,
      hwalked.label_eq_iff (he.mono hle) hheld, rfl, fun _ _ hplace => hwalked.shares hplace⟩

namespace RenamedInitializer

def x : Variable := ⟨0, "x", .int⟩

def y : Variable := ⟨1, "y", .int⟩

/-- Makes a new occurrence of `y` for each occurrence of `x`, and counts them. -/
def renamer : Walker Nat where
  var e v := if v = x then do modifyOwn (· + 1); alloc (.variable y) else pure e

theorem onlyLeaves_renamer : renamer.OnlyLeaves fun _ _ => True where
  enter _ := rfl
  mono _ _ := trivial
  leaf := by
    intro h st e out st' he hst hout
    have hkept : (pure e : Walk Nat Expr).Yields st out st' →
        ∃ h', h ≤ h' ∧ Walker.Fits (fun _ _ => True) h' st' ∧ h'.Holds out := by
      intro hpure
      obtain ⟨rfl, rfl⟩ := yields_pure.1 hpure
      exact ⟨h, h.le_refl, hst, he⟩
    simp only [Walker.leaf] at hout
    split at hout
    · exact hkept hout
    · simp only [renamer] at hout
      split at hout
      · obtain ⟨_, st₁, hcount, halloc⟩ := yields_bind.1 hout
        obtain rfl := yields_modifyOwn.1 hcount
        obtain ⟨rfl, rfl⟩ := yields_alloc.1 halloc
        refine ⟨h.push (.variable y), h.le_push _, ⟨hst.guard, congrArg (· + 1) hst.next, trivial⟩, ?_⟩
        show (h.push (.variable y)).Holds (.mk st.supply.next (.variable y))
        rw [hst.next]
        exact Heap.holds_push fun c hc => absurd hc List.not_mem_nil
      · exact hkept hout
    · exact absurd hout not_yields_throw
    · exact hkept hout

def member (name : String) : Member := ⟨.type "P", name, .field, .int⟩

def add : Method := { owner := "P", name := "Add", isStatic := false, ret := .unit }

def one : Expr := .mk 0 (.int 1)

/-- A binding without an occurrence of `x`. -/
def nested : Binding Expr := .nested (member "b") [.assign (member "c") one]

def initializerNode : Node :=
  .memberInit ⟨.named "P", [.mk 1 (.variable x)], none⟩ [.assign (member "a") (.mk 2 (.variable y)), nested,
    .elements (member "d") [⟨add, [.mk 1 (.variable x)]⟩, ⟨add, [one]⟩]]

def initializer : Expr := .mk 3 initializerNode

theorem made_initializer :
    Made ⟨4⟩ [initializer, .mk 2 (.variable y), .mk 1 (.variable x), one] := by
  have hone := (Made.start ⟨0⟩).next (.int 1)
    (by simp [Node.int, Node.children, Node.payload, Value.trees])
  have hx := hone.next (.variable x) (by simp [Node.children, Node.payload])
  have hy := hx.next (.variable y) (by simp [Node.children, Node.payload])
  exact hy.next initializerNode
    (by simp [initializerNode, nested, one, Node.children, Node.payload, Binding.exprsOfAll, Binding.exprs])

def start : WalkState Nat := ⟨⟨4⟩, none, 0⟩

/-- The initializer is made again, with a new variable in both places, and the binding is kept. -/
theorem walk_renames_initializer :
    (∃ out st' outs, (renamer.visit initializer).Yields start out st' ∧
      renamer.Visits start initializer.leaves outs st' ∧ outs.map (·.label) = [4, 2, 0, 5, 0] ∧
      out.recast {} = (initializer.rebuilt outs).recast {} ∧ out.label ≠ initializer.label ∧
      ∀ c c', initializer.Beside out c c' → c.Shares 4 c') ∧
    ∃ st', ((Fragment.binding nested).copy renamer.visit).Yields start none st' := by
  obtain ⟨h, hnext, hheld⟩ := made_initializer.exists_heap
  have hfits : Walker.Fits (fun _ _ => True) h start := ⟨rfl, hnext.symm, trivial⟩
  obtain ⟨hwalk, -, hfragments⟩ := walk_rebuilds_and_shares renamer _ onlyLeaves_renamer h initializer
    start (hheld _ (by simp)) hfits
  refine ⟨?_, ?_⟩
  · have hlabels : (renamer.visit initializer start).1.map
        (fun out => (initializer.results out).map (·.label)) = .ok [4, 2, 0, 5, 0] := by decide +kernel
    obtain ⟨failure, ⟨st', hrun⟩, -⟩ |
      ⟨out, st', outs, hrun, hvisits, hrebuilt, hsame, rfl, hshares⟩ := hwalk
    · rw [hrun] at hlabels
      cases hlabels
    · rw [hrun] at hlabels
      have houts : (initializer.results out).map (·.label) = [4, 2, 0, 5, 0] := Except.ok.inj hlabels
      refine ⟨out, st', _, hrun, hvisits, houts, hrebuilt, ?_, hshares⟩
      rw [ne_eq, hsame, houts]
      decide +kernel
  · have hlabels : ((Fragment.binding nested).copy renamer.visit start).1.map (fun copied =>
        ((Fragment.binding nested).results (copied.getD (.binding nested))).map (·.label)) = .ok [0] := by
      decide +kernel
    obtain ⟨failure, ⟨st', hrun⟩, -⟩ | ⟨copied, st', h', _, hrun, -, -, -, rfl, hkept⟩ :=
      hfragments (.binding nested) (List.forall_mem_singleton.2 (hheld one (by simp)))
    · rw [hrun] at hlabels
      cases hlabels
    · rw [hrun] at hlabels
      have hleaves : [0] = (Fragment.binding nested).leaves.map (·.label) := by decide +kernel
      obtain rfl : copied = none := hkept.2 ((Except.ok.inj hlabels).trans hleaves)
      exact ⟨st', hrun⟩

end RenamedInitializer

end ExprTree
