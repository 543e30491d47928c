import ExprTree.Proofs.RecastNodes
import ExprTree.Proofs.Sequencing
import ExprTree.Proofs.Substitution

/-!
# Trees with other leaves

A walk ends at the leaves of a tree: constants, variables and nodes of unknown kind. If it changes nothing
but leaves, its result is known from what it gives for them, in the order in which they are met. There are
two ways to say so.

* `Expr.rebuilt` makes every node of the tree again, around the given leaves, and copies everything else.
* `Expr.Walked` makes no node again without need: it says that only children differ, and that an expression
  whose children did not change is the expression that was there.

Both give the same tree, identities aside (`Expr.Walked.recast_rebuilt`). The second one shares with the
tree everything that has no changed leaf in it, and nothing else (`Expr.Walked.shares`).
-/

namespace ExprTree

/-! ## Leaves -/

namespace Expr

/-- Is this a place where a walk goes no further down? -/
def isLeaf (e : Expr) : Bool :=
  match e.node with
  | .constant .. | .variable _ | .extension .. => true
  | _ => false

/-- The leaves of a tree in the order in which a walk meets them. -/
def leaves (e : Expr) : List Expr :=
  if e.isLeaf then [e] else e.node.visitOrder.attach.flatMap fun c => leaves c.1
termination_by sizeOf e
decreasing_by exact sizeOf_lt_of_mem_children (Node.mem_visitOrder.1 c.2)

/-- What stands in the second tree where the leaves of the first one stand. -/
def results (e out : Expr) : List Expr :=
  if e.isLeaf then [out]
  else (e.node.visitOrder.zip out.node.visitOrder).attach.flatMap fun p => results p.1.1 p.1.2
termination_by sizeOf e
decreasing_by exact sizeOf_lt_of_mem_children (Node.mem_visitOrder.1 (List.of_mem_zip p.2).1)

/-- The results in place of the leaves of many trees. -/
def resultsOfAll (es outs : List Expr) : List Expr := (es.zip outs).flatMap fun p => p.1.results p.2

variable {e out : Expr}

theorem leaves_of_leaf (h : e.isLeaf = true) : e.leaves = [e] := by
  rw [leaves, if_pos h]

theorem leaves_of_node (h : e.isLeaf = false) : e.leaves = e.node.visitOrder.flatMap leaves := by
  rw [leaves, if_neg (by simp [h]), List.flatMap_def, List.flatMap_def, List.attach_map_val]

theorem results_of_leaf (h : e.isLeaf = true) : e.results out = [out] := by
  rw [results, if_pos h]

theorem results_of_node (h : e.isLeaf = false) :
    e.results out = resultsOfAll e.node.visitOrder out.node.visitOrder := by
  rw [results, if_neg (by simp [h]), resultsOfAll, List.flatMap_def, List.flatMap_def]
  exact congrArg List.flatten (List.attach_map_val (f := fun p : Expr × Expr => p.1.results p.2))

theorem resultsOfAll_self {es : List Expr} (h : ∀ e ∈ es, e.results e = e.leaves) :
    resultsOfAll es es = es.flatMap leaves := by
  induction es with
  | nil => rfl
  | cons e es ih =>
    rw [List.forall_mem_cons] at h
    show e.results e ++ resultsOfAll es es = e.leaves ++ es.flatMap leaves
    rw [h.1, ih h.2]

theorem results_self (e : Expr) : e.results e = e.leaves := by
  induction e using childInduction with
  | step e ih =>
    cases h : e.isLeaf with
    | true => rw [results_of_leaf h, leaves_of_leaf h]
    | false =>
      rw [results_of_node h, leaves_of_node h]
      exact resultsOfAll_self fun c hc => ih c (Node.mem_visitOrder.1 hc)

/-- Whatever stands in place of a leaf is held with the tree that it stands in. -/
theorem holds_of_mem_results {h : Heap} (hout : h.Holds out) {o : Expr} (ho : o ∈ e.results out) :
    h.Holds o := by
  induction e using childInduction generalizing out with
  | step e ih =>
    cases hleaf : e.isLeaf with
    | true =>
      rw [results_of_leaf hleaf, List.mem_singleton] at ho
      exact ho ▸ hout
    | false =>
      rw [results_of_node hleaf] at ho
      obtain ⟨⟨c, c'⟩, hmem, ho⟩ := List.mem_flatMap.1 ho
      obtain ⟨hc, hc'⟩ := List.of_mem_zip hmem
      exact ih c (Node.mem_visitOrder.1 hc) (hout.child (Node.mem_visitOrder.1 hc')) ho

theorem holds_of_mem_leaves {h : Heap} (he : h.Holds e) {a : Expr} (ha : a ∈ e.leaves) : h.Holds a :=
  holds_of_mem_results he (results_self e ▸ ha)

end Expr

/-! ## Making everything again -/

/-- Takes the next of the expressions that are to stand in place of leaves. -/
def takeNext (leaf : Expr) : StateM (List Expr) Expr := modifyGet fun
  | [] => (leaf, [])
  | out :: rest => (out, rest)

mutual

/-- Makes every node again, with all it has, around leaves that are taken one after the other. -/
def Expr.rebuilding : Expr → StateM (List Expr) Expr
  | .mk _ (.unary op e t m) => do
    let e ← e.rebuilding
    pure (.mk 0 (.unary op e t m))
  | .mk _ (.binary op x y c lifted m t) => do
    let x ← x.rebuilding
    let y ← y.rebuilding
    let c ← Expr.rebuildingOption c
    pure (.mk 0 (.binary op x y c lifted m t))
  | .mk _ (.typeIs e t) => do
    let e ← e.rebuilding
    pure (.mk 0 (.typeIs e t))
  | .mk _ (.conditional a b c t) => do
    let a ← a.rebuilding
    let b ← b.rebuilding
    let c ← c.rebuilding
    pure (.mk 0 (.conditional a b c t))
  | .mk l (.constant v t) => takeNext (.mk l (.constant v t))
  | .mk l (.variable v) => takeNext (.mk l (.variable v))
  | .mk _ (.memberAccess o m) => do
    let o ← Expr.rebuildingOption o
    pure (.mk 0 (.memberAccess o m))
  | .mk _ (.call o m as) => do
    let o ← Expr.rebuildingOption o
    let as ← Expr.rebuildingList as
    pure (.mk 0 (.call o m as))
  | .mk _ (.lambda ps b t) => do
    let b ← b.rebuilding
    pure (.mk 0 (.lambda ps b t))
  | .mk _ (.construct c) => do
    let c ← Expr.rebuildingConstruct c
    pure (.mk 0 (.construct c))
  | .mk _ (.newArray k t es) => do
    let es ← Expr.rebuildingList es
    pure (.mk 0 (.newArray k t es))
  | .mk _ (.invocation e as t) => do
    let as ← Expr.rebuildingList as
    let e ← e.rebuilding
    pure (.mk 0 (.invocation e as t))
  | .mk _ (.memberInit c bs) => do
    let c ← Expr.rebuildingConstruct c
    let bs ← Expr.rebuildingBindings bs
    pure (.mk 0 (.memberInit c bs))
  | .mk _ (.listInit c es) => do
    let c ← Expr.rebuildingConstruct c
    let es ← Expr.rebuildingElements es
    pure (.mk 0 (.listInit c es))
  | .mk l (.extension k t) => takeNext (.mk l (.extension k t))

/-- Makes an optional expression again. -/
def Expr.rebuildingOption : Option Expr → StateM (List Expr) (Option Expr)
  | none => pure none
  | some e => do
    let e ← e.rebuilding
    pure (some e)

/-- Makes expressions again. -/
def Expr.rebuildingList : List Expr → StateM (List Expr) (List Expr)
  | [] => pure []
  | e :: es => do
    let e ← e.rebuilding
    let es ← Expr.rebuildingList es
    pure (e :: es)

/-- Makes a constructor call again. -/
def Expr.rebuildingConstruct : Construct Expr → StateM (List Expr) (Construct Expr)
  | ⟨t, as, ms⟩ => do
    let as ← Expr.rebuildingList as
    pure ⟨t, as, ms⟩

/-- Makes a binding again. -/
def Expr.rebuildingBinding : Binding Expr → StateM (List Expr) (Binding Expr)
  | .assign m e => do
    let e ← e.rebuilding
    pure (.assign m e)
  | .nested m bs => do
    let bs ← Expr.rebuildingBindings bs
    pure (.nested m bs)
  | .elements m es => do
    let es ← Expr.rebuildingElements es
    pure (.elements m es)

/-- Makes bindings again. -/
def Expr.rebuildingBindings : List (Binding Expr) → StateM (List Expr) (List (Binding Expr))
  | [] => pure []
  | b :: bs => do
    let b ← Expr.rebuildingBinding b
    let bs ← Expr.rebuildingBindings bs
    pure (b :: bs)

/-- Makes element initializers again. -/
def Expr.rebuildingElements : List (ElementInit Expr) → StateM (List Expr) (List (ElementInit Expr))
  | [] => pure []
  | ⟨m, as⟩ :: es => do
    let as ← Expr.rebuildingList as
    let es ← Expr.rebuildingElements es
    pure (⟨m, as⟩ :: es)

end

/-- The tree made again from top to bottom, around the given leaves. Its nodes have no identity. -/
def Expr.rebuilt (e : Expr) (outs : List Expr) : Expr := (e.rebuilding.run outs).1

/-! The parts of a node are made again in the order in which a walk visits them. -/

theorem Expr.rebuildingOption_eq (o : Option Expr) :
    Expr.rebuildingOption o = visitOption o fun e _ => e.rebuilding := by
  cases o <;> rfl

theorem Expr.rebuildingList_eq (es : List Expr) :
    Expr.rebuildingList es = visitList es fun e _ => e.rebuilding := by
  induction es with
  | nil => rfl
  | cons e es ih => rw [Expr.rebuildingList, visitList, ih]

theorem Expr.rebuildingConstruct_eq (c : Construct Expr) :
    Expr.rebuildingConstruct c = c.traverse fun e _ => e.rebuilding := by
  rw [Expr.rebuildingConstruct, Construct.traverse, Expr.rebuildingList_eq]

theorem Expr.rebuildingElements_eq : ∀ es : List (ElementInit Expr),
    Expr.rebuildingElements es = ElementInit.traverseAll es fun e _ => e.rebuilding
  | [] => rfl
  | e :: es => by
    rw [Expr.rebuildingElements, ElementInit.traverseAll, Expr.rebuildingList_eq,
      Expr.rebuildingElements_eq es]

mutual

theorem Expr.rebuildingBinding_eq : ∀ b : Binding Expr,
    Expr.rebuildingBinding b = b.traverse fun e _ => e.rebuilding
  | .assign m e => rfl
  | .nested m bs => by
    rw [Expr.rebuildingBinding, Binding.traverse, Expr.rebuildingBindings_eq bs]
  | .elements m es => by
    rw [Expr.rebuildingBinding, Binding.traverse, Expr.rebuildingElements_eq]

theorem Expr.rebuildingBindings_eq : ∀ bs : List (Binding Expr),
    Expr.rebuildingBindings bs = Binding.traverseAll bs fun e _ => e.rebuilding
  | [] => rfl
  | b :: bs => by
    rw [Expr.rebuildingBindings, Binding.traverseAll, Expr.rebuildingBinding_eq b,
      Expr.rebuildingBindings_eq bs]

end

theorem Expr.rebuilding_of_leaf {e : Expr} (h : e.isLeaf = true) : e.rebuilding = takeNext e := by
  obtain ⟨l, n⟩ := e
  cases n <;> first | rfl | cases h

theorem Expr.rebuilding_of_node {e : Expr} (h : e.isLeaf = false) :
    e.rebuilding = (Expr.mk 0 ·) <$> e.node.traverse fun c _ => c.rebuilding := by
  obtain ⟨l, n⟩ := e
  cases n with
  | constant | «variable» | extension => cases h
  | memberAccess o m =>
    simp only [Expr.rebuilding, Expr.node_mk, Node.traverse, map_eq_pure_bind, bind_assoc, pure_bind,
      Expr.rebuildingOption_eq]
    rfl
  | construct c =>
    simp only [Expr.rebuilding, Expr.node_mk, Node.traverse, map_eq_pure_bind, bind_assoc, pure_bind,
      Expr.rebuildingConstruct_eq]
    rfl
  | newArray k t es =>
    simp only [Expr.rebuilding, Expr.node_mk, Node.traverse, map_eq_pure_bind, bind_assoc, pure_bind,
      Expr.rebuildingList_eq]
    rfl
  | _ =>
    simp only [Expr.rebuilding, Expr.node_mk, Node.traverse, map_eq_pure_bind, bind_assoc, pure_bind,
      Expr.rebuildingOption_eq, Expr.rebuildingList_eq, Expr.rebuildingConstruct_eq,
      Expr.rebuildingElements_eq, Expr.rebuildingBindings_eq]

/-! ## Visits that only keep a state -/

/-- A computation on what a walk keeps for itself, as a step of the walk. -/
def Walk.ofState {σ α : Type} (x : StateM σ α) : Walk σ α := fun st =>
  (.ok (x.run st.own).1, { st with own := (x.run st.own).2 })

theorem sequenced_ofState (σ : Type) :
    Sequenced fun α (x : StateM σ α) (y : Walk σ α) => y = Walk.ofState x where
  done _ := rfl
  next := by
    rintro α β x _ f g rfl hfg
    funext st
    rw [Walk.run_bind]
    show g (x.run st.own).1 { st with own := (x.run st.own).2 } = _
    rw [hfg]
    rfl

theorem Walk.yields_ofState {σ α : Type} {x : StateM σ α} {a : α} {st st' : WalkState σ} :
    (Walk.ofState x).Yields st a st' ↔ x.run st.own = (a, st'.own) ∧ st' = { st with own := st'.own } := by
  constructor
  · intro h
    cases h
    exact ⟨rfl, rfl⟩
  · rintro ⟨hrun, hst⟩
    rw [hst]
    show (_, _) = _
    rw [hrun]

theorem run_visitList_cons {σ α β : Type} (f : α → StateM σ β) (x : α) (xs : List α) (s : σ) :
    (visitList (x :: xs) fun a _ => f a).run s =
      (((f x).run s).1 :: ((visitList xs fun a _ => f a).run ((f x).run s).2).1,
        ((visitList xs fun a _ => f a).run ((f x).run s).2).2) := rfl

/-- If the children of a node can be visited one after the other, so can the node, and the visit puts the
results in their places. -/
theorem Node.run_traverse {σ : Type} {f : Expr → StateM σ Expr} {n : Node} {cs : List Expr} {s s' : σ}
    (h : (visitList n.visitOrder fun c _ => f c).run s = (cs, s')) :
    ∃ n', (n.traverse fun c _ => f c).run s = (n', s') ∧ n'.shape = n.shape ∧ n'.visitOrder = cs := by
  have hlist : Walk.each (fun c => Walk.ofState (f c)) n.visitOrder =
      Walk.ofState (visitList n.visitOrder fun c _ => f c) :=
    (sequenced_ofState σ).visitList fun _ _ => rfl
  have hnode : (n.traverse fun c _ => Walk.ofState (f c)) = Walk.ofState (n.traverse fun c _ => f c) :=
    (sequenced_ofState σ).node fun _ _ => rfl
  have hcs : (Walk.each (fun c => Walk.ofState (f c)) n.visitOrder).Yields
      { supply := {}, guard := none, own := s } cs { supply := {}, guard := none, own := s' } := by
    rw [hlist]
    exact Walk.yields_ofState.2 ⟨h, rfl⟩
  obtain ⟨n', hn', horder⟩ := Node.exists_traverse hcs
  refine ⟨n', ?_, (Node.shape_of_traverse hn').1, horder⟩
  rw [hnode] at hn'
  exact (Walk.yields_ofState.1 hn').1

/-! ## Sharing what has not changed -/

namespace Expr

/-- The second tree is the first one with other leaves. Nothing but children differs above them, an
expression whose children are the same is the same, and every other one is new, with an identity from
`next` on. -/
inductive Walked (next : Nat) : Expr → Expr → Prop
  | leaf {e out : Expr} : e.isLeaf = true → Walked next e out
  | node {e out : Expr} : e.isLeaf = false → out.node.shape = e.node.shape →
      out.node.visitOrder.length = e.node.visitOrder.length →
      (∀ p ∈ e.node.visitOrder.zip out.node.visitOrder, Walked next p.1 p.2) →
      (out.node.visitOrder = e.node.visitOrder → out = e) →
      (out.node.visitOrder ≠ e.node.visitOrder → next ≤ out.label) → Walked next e out

variable {next : Nat} {e out : Expr}

theorem forall₂_of_mem_zip {R : Expr → Expr → Prop} {es outs : List Expr}
    (hlength : outs.length = es.length) (h : ∀ p ∈ es.zip outs, R p.1 p.2) : List.Forall₂ R es outs :=
  List.forall₂_iff_zip.2 ⟨hlength.symm, fun hp => h _ hp⟩

theorem resultsOfAll_cons (e out : Expr) (es outs : List Expr) :
    resultsOfAll (e :: es) (out :: outs) = e.results out ++ resultsOfAll es outs := rfl

theorem Walked.length_results (h : Walked next e out) : (e.results out).length = e.leaves.length := by
  induction h with
  | leaf hleaf => rw [results_of_leaf hleaf, leaves_of_leaf hleaf]; rfl
  | @node e out hleaf _ hlength _ _ _ ih =>
    rw [results_of_node hleaf, leaves_of_node hleaf]
    have hall := forall₂_of_mem_zip (R := fun c c' => (c.results c').length = c.leaves.length) hlength ih
    generalize e.node.visitOrder = es at hall
    generalize out.node.visitOrder = outs at hall
    induction hall with
    | nil => rfl
    | cons hhead _ ih => rw [resultsOfAll_cons, List.flatMap_cons, List.length_append,
        List.length_append, hhead, ih]

/-- Trees that came back with all their leaves came back as they were. -/
theorem eq_of_resultsOfAll {es outs : List Expr} (hall : List.Forall₂ (Walked next) es outs)
    (hself : List.Forall₂ (fun e out => e.results out = e.leaves → out = e) es outs)
    (h : resultsOfAll es outs = es.flatMap leaves) : outs = es := by
  induction hall with
  | nil => rfl
  | @cons e out es outs hwalked _ ih =>
    cases hself with
    | cons hhead htail =>
      rw [resultsOfAll_cons, List.flatMap_cons] at h
      obtain ⟨hfirst, hrest⟩ := List.append_inj h hwalked.length_results
      rw [hhead hfirst, ih htail hrest]

/-- A tree came back as it was if and only if all its leaves did. -/
theorem Walked.results_eq_leaves_iff (h : Walked next e out) : e.results out = e.leaves ↔ out = e := by
  refine ⟨fun hresults => ?_, fun hself => hself ▸ results_self e⟩
  induction h with
  | leaf hleaf =>
    rw [results_of_leaf hleaf, leaves_of_leaf hleaf] at hresults
    exact List.singleton_inj.1 hresults
  | node hleaf _ hlength hwalked hsame _ ih =>
    rw [results_of_node hleaf, leaves_of_node hleaf] at hresults
    exact hsame (eq_of_resultsOfAll (forall₂_of_mem_zip hlength hwalked) (forall₂_of_mem_zip hlength ih)
      hresults)

theorem resultsOfAll_eq_leaves_iff {es outs : List Expr} (hall : List.Forall₂ (Walked next) es outs) :
    resultsOfAll es outs = es.flatMap leaves ↔ outs = es := by
  refine ⟨eq_of_resultsOfAll hall (hall.imp fun _ _ h => h.results_eq_leaves_iff.1), ?_⟩
  rintro rfl
  exact resultsOfAll_self fun e _ => e.results_self

/-- Where labels are identities, it is enough to compare those of the leaves. -/
theorem map_label_resultsOfAll_iff {h : Heap} {es outs : List Expr}
    (hall : List.Forall₂ (Walked next) es outs) (hes : ∀ e ∈ es, h.Holds e)
    (houts : ∀ o ∈ outs, h.Holds o) :
    (resultsOfAll es outs).map (·.label) = (es.flatMap leaves).map (·.label) ↔ outs = es := by
  rw [← resultsOfAll_eq_leaves_iff hall]
  refine ⟨Heap.eq_of_map_label (h := h) (fun o ho => ?_) fun a ha => ?_, congrArg _⟩
  · obtain ⟨p, hp, ho⟩ := List.mem_flatMap.1 ho
    exact holds_of_mem_results (houts p.2 (List.of_mem_zip hp).2) ho
  · obtain ⟨e, he, ha⟩ := List.mem_flatMap.1 ha
    exact holds_of_mem_leaves (hes e he) ha

theorem Walked.label_eq_iff {h : Heap} (hwalked : Walked next e out) (he : h.Holds e) (hout : h.Holds out) :
    out.label = e.label ↔ (e.results out).map (·.label) = e.leaves.map (·.label) := by
  have hone := map_label_resultsOfAll_iff (.cons hwalked .nil) (List.forall_mem_singleton.2 he)
    (List.forall_mem_singleton.2 hout)
  rw [resultsOfAll_cons, List.flatMap_cons, List.singleton_inj] at hone
  rw [← List.append_nil (e.results out), ← List.append_nil e.leaves]
  exact ⟨fun hlabel => hone.2 (hout.eq_of_label he hlabel), fun hlabels => congrArg _ (hone.1 hlabels)⟩

/-- Making every node again gives the same tree, identities aside. -/
theorem Walked.exists_rebuilding (h : Walked next e out) (rest : List Expr) :
    ∃ r, e.rebuilding.run (e.results out ++ rest) = (r, rest) ∧ r.recast {} = out.recast {} := by
  induction h generalizing rest with
  | @leaf e out hleaf =>
    rw [rebuilding_of_leaf hleaf, results_of_leaf hleaf]
    exact ⟨out, rfl, rfl⟩
  | @node e out hleaf hshape hlength _ _ _ ih =>
    have hlist : ∀ (es outs : List Expr), List.Forall₂ (fun e out => ∀ rest, ∃ r,
        e.rebuilding.run (e.results out ++ rest) = (r, rest) ∧ r.recast {} = out.recast {}) es outs →
        ∃ rs, (visitList es fun e _ => e.rebuilding).run (resultsOfAll es outs ++ rest) = (rs, rest) ∧
          rs.map (·.recast {}) = outs.map (·.recast {}) := by
      intro es outs hall
      induction hall with
      | nil => exact ⟨[], rfl, rfl⟩
      | @cons e out es outs hhead _ ih =>
        obtain ⟨r, hr, hrecast⟩ := hhead (resultsOfAll es outs ++ rest)
        obtain ⟨rs, hrs, hrecasts⟩ := ih
        refine ⟨r :: rs, ?_, by rw [List.map_cons, List.map_cons, hrecast, hrecasts]⟩
        rw [resultsOfAll_cons, List.append_assoc, run_visitList_cons, hr, hrs]
    obtain ⟨rs, hrs, hrecasts⟩ := hlist _ _ (forall₂_of_mem_zip hlength fun p hp rest => ih p hp rest)
    obtain ⟨n, hn, hnshape, horder⟩ := Node.run_traverse hrs
    refine ⟨.mk 0 n, ?_, ?_⟩
    · rw [rebuilding_of_node hleaf, results_of_node hleaf, StateT.run_map, hn]
      rfl
    · have hnode : n.recast {} = out.node.recast {} := by
        refine Node.eq_of_shape (Node.shape_recast_congr rfl (hnshape.trans hshape.symm)) ?_
        rw [Node.visitOrder_recast, Node.visitOrder_recast, horder, hrecasts]
      obtain ⟨l, m⟩ := out
      exact congrArg (Expr.mk 0) hnode

theorem Walked.recast_rebuilt (h : Walked next e out) :
    out.recast {} = (e.rebuilt (e.results out)).recast {} := by
  obtain ⟨r, hr, hrecast⟩ := h.exists_rebuilding []
  rw [List.append_nil] at hr
  rw [rebuilt, hr, hrecast]

end Expr

/-- The leaves in a fragment. -/
def Fragment.leaves (f : Fragment) : List Expr := f.exprs.flatMap Expr.leaves

/-- What stands in the second fragment where the leaves of the first one stand. -/
def Fragment.results (f f' : Fragment) : List Expr := Expr.resultsOfAll f.exprs f'.exprs

namespace Expr

/-- `e.Beside out c c'`: the expressions `c` and `c'` stand at the same place of the two trees, at a leaf of
the first one or above. -/
inductive Beside : Expr → Expr → Expr → Expr → Prop
  | here (e out : Expr) : Beside e out e out
  | under {e out a a' c c' : Expr} : e.isLeaf = false →
      (a, a') ∈ e.node.visitOrder.zip out.node.visitOrder → Beside a a' c c' → Beside e out c c'

/-- At one place of two trees everything without a changed leaf is shared, the expression as well as its
fragments, and an expression above a changed leaf is new, with an identity from `next` on. -/
structure Shares (next : Nat) (e out : Expr) : Prop where
  same : e.results out = e.leaves → out = e
  made : e.isLeaf = false → e.results out ≠ e.leaves → next ≤ out.label
  fragments : e.isLeaf = false →
    List.Forall₂ (fun f f' => f.results f' = f.leaves → f' = f) e.node.fragments out.node.fragments

variable {next : Nat} {e out c c' : Expr}

/-- Above a leaf, only children differ. -/
theorem Walked.node_cases (h : Walked next e out) (hnode : e.isLeaf = false) :
    out.node.shape = e.node.shape ∧
      List.Forall₂ (Walked next) e.node.visitOrder out.node.visitOrder ∧
      (out.node.visitOrder = e.node.visitOrder → out = e) ∧
      (out.node.visitOrder ≠ e.node.visitOrder → next ≤ out.label) := by
  cases h with
  | leaf hleaf => rw [hleaf] at hnode; cases hnode
  | node _ hshape hlength hwalked hsame hmade =>
    exact ⟨hshape, forall₂_of_mem_zip hlength hwalked, hsame, hmade⟩

theorem Walked.beside (h : Walked next e out) (hc : e.Beside out c c') : Walked next c c' := by
  induction hc with
  | here => exact h
  | under hnode hmem _ ih =>
    obtain ⟨-, hwalked, -⟩ := h.node_cases hnode
    exact ih ((List.forall₂_iff_zip.1 hwalked).2 hmem)

/-- The fragments differ in their expressions only, and these are walked. -/
theorem Walked.fragments_alike (h : Walked next e out) (hnode : e.isLeaf = false) :
    List.Forall₂ (Fragment.Alike (Walked next)) e.node.fragments out.node.fragments := by
  obtain ⟨hshape, hwalked, -⟩ := h.node_cases hnode
  have hkind : out.node.kind = e.node.kind := Node.kind_eq_of_shape hshape
  by_cases hinvocation : e.node.kind = .invocation
  · -- only here are the children not visited in their order, and there are no fragments
    have hnone : ∀ n : Node, n.kind = .invocation → n.fragments = [] := by
      intro n hn
      cases n <;> first | rfl | cases hn
    rw [hnone _ hinvocation, hnone _ (hkind.trans hinvocation)]
    exact .nil
  · rw [Node.visitOrder_eq_children hinvocation,
      Node.visitOrder_eq_children (hkind ▸ hinvocation)] at hwalked
    exact Node.fragments_alike hshape hwalked

/-- What is walked shares all it can, at every place. -/
theorem Walked.shares (h : Walked next e out) (hc : e.Beside out c c') : Shares next c c' := by
  have hwalked := h.beside hc
  refine ⟨hwalked.results_eq_leaves_iff.1, fun hnode hchanged => ?_, fun hnode => ?_⟩
  · obtain ⟨-, -, hsame, hmade⟩ := hwalked.node_cases hnode
    refine hmade fun horder => hchanged ?_
    rw [hsame horder, results_self]
  · refine (hwalked.fragments_alike hnode).imp fun f f' halike hresults => halike.same ?_
    exact eq_of_resultsOfAll halike.exprs
      (halike.exprs.imp fun _ _ hpair => hpair.results_eq_leaves_iff.1) hresults

end Expr

end ExprTree
