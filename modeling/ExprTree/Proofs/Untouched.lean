import ExprTree.Proofs.Idempotence
import ExprTree.Proofs.Reading

/-!
# Trees that come back untouched

An expansion gives back the very expression it was given exactly if it has counted nothing
(`expand_eq_self_iff_stats_empty`).

If nothing is counted, nothing is inlined, resolved or unwrapped, and in the empty scope every
expression comes back as itself (`Expansion.self_of_total_le`). Conversely, what an inlining, a captured
read or a marker leads to has another label than the expression it stands at: it is made by the run, or
it was written inside the expression, and no part of a tree has the label of the whole
(`Expansion.total_le_of_label_eq`). Above it, every expression is made again.
-/

namespace ExprTree

namespace Walk

variable {σ α : Type} {measure : σ → Nat} {f : α → Walk σ α} {st st' : WalkState σ}

/-- If items come back as themselves where the measure does not grow, and it does not grow over a list
of them, then the list comes back as itself. -/
theorem Yields.each_self (hf : ∀ a, Grows measure (f a))
    (hself : ∀ x y st st', (f x).Yields st y st' → measure st'.own ≤ measure st.own → y = x)
    {xs ys : List α} (h : (each f xs).Yields st ys st') (hle : measure st'.own ≤ measure st.own) :
    ys = xs := by
  induction xs generalizing st ys with
  | nil => exact (yields_each_nil.1 h).1
  | cons x xs ih =>
    obtain ⟨y, st₁, ys, hy, hys, rfl⟩ := yields_each_cons.1 h
    have hfirst := hf x _ _ _ hy
    have hothers := grows_each hf xs _ _ _ hys
    rw [hself x y _ _ hy (by omega), ih hys (by omega)]

end Walk

namespace Expansion

open Walk

variable {watch : Watch} {n : Nat} {s : Scope} {e out : Expr} {st st' : WalkState Stats}

/-! ## Labels that a run avoids -/

/-- No expression within the tree has the label. -/
abbrev Avoids (l : Nat) (e : Expr) : Prop := e.Everywhere fun a => a.label ≠ l

/-- A run that starts after a label was drawn, on trees that avoid it, gives a tree that avoids it. -/
def KeepsAvoiding (watch : Watch) (n : Nat) (s : Scope) (e : Expr) : Prop :=
  ∀ {l : Nat} {st st' : WalkState Stats} {out : Expr}, Avoids l e →
    (∀ p ∈ s.bindings, Avoids l p.2) → (expandUnder watch asWritten n s e).Yields st out st' →
    l < st.supply.next → Avoids l out ∧ st.supply.next ≤ st'.supply.next

theorem keepsAvoiding_each {l : Nat} (hkeeps : ∀ e, KeepsAvoiding watch n s e) {xs ys : List Expr}
    (hxs : ∀ x ∈ xs, Avoids l x) (hscope : ∀ p ∈ s.bindings, Avoids l p.2)
    (hrun : (each (expandUnder watch asWritten n s) xs).Yields st ys st') (hl : l < st.supply.next) :
    (∀ y ∈ ys, Avoids l y) ∧ st.supply.next ≤ st'.supply.next := by
  induction xs generalizing st ys with
  | nil =>
    obtain ⟨rfl, rfl⟩ := yields_each_nil.1 hrun
    exact ⟨by simp, Nat.le_refl _⟩
  | cons x xs ih =>
    obtain ⟨y, st₁, ys, hy, hys, rfl⟩ := yields_each_cons.1 hrun
    obtain ⟨havoids, hle⟩ := hkeeps x (hxs x List.mem_cons_self) hscope hy hl
    obtain ⟨hrest, hle'⟩ := ih (fun x hx => hxs x (List.mem_cons_of_mem _ hx)) hys
      (Nat.lt_of_lt_of_le hl hle)
    exact ⟨List.forall_mem_cons.2 ⟨havoids, hrest⟩, Nat.le_trans hle hle'⟩

/-- What an expression is replaced by avoids a label if all its children do; the expression itself need
not. -/
theorem Visited.avoids {l : Nat} (h : Visited watch n s e st out st')
    (hkeeps : ∀ s e, KeepsAvoiding watch n s e) (hreplaces : e.node.action.replaces = true)
    (hchildren : ∀ c ∈ e.children, Avoids l c) (hscope : ∀ p ∈ s.bindings, Avoids l p.2)
    (hl : l < st.supply.next) : Avoids l out ∧ st.supply.next ≤ st'.supply.next := by
  cases h with
  | look h | pass h | descend h =>
    rw [h] at hreplaces
    cases hreplaces
  | inline hinline hpeel _ hreplacements hextend hbody =>
    obtain ⟨htarget, hargs⟩ := Expr.mem_children_of_inline hinline
    obtain ⟨hsupply, hpeels⟩ := peels_of_yields hpeel
    rw [← hsupply] at hl ⊢
    obtain ⟨havoids, hle⟩ := keepsAvoiding_each (hkeeps s) (fun a ha => hchildren a (hargs a ha)) hscope
      hreplacements hl
    obtain ⟨hout, hle'⟩ := hkeeps _ _ (hpeels.everywhere_body hscope (hchildren _ htarget))
      (Scope.forall_bindings_extend hextend hscope havoids) hbody (Nat.lt_of_lt_of_le hl hle)
    exact ⟨hout, Nat.le_trans hle hle'⟩
  | capture hcapture hrest =>
    obtain ⟨c, hc, htree⟩ := Expr.within_child_of_capture hcapture
    have hout := hkeeps s _ ((hchildren c hc).within htree) hscope hrest hl
    exact hout
  | unwrap hunwrap hrest =>
    have hout := hkeeps s _ (hchildren _ (Expr.mem_children_of_unwrap hunwrap)) hscope hrest hl
    exact hout

theorem keepsAvoiding (n : Nat) (s : Scope) (e : Expr) : KeepsAvoiding watch n s e := by
  induction n generalizing s e with
  | zero => exact fun _ _ hrun => absurd hrun not_yields_tooDeep
  | succ n ih =>
    intro l st st' out he hscope hrun hl
    obtain ⟨g, st₁, hvisited, hsupply, -⟩ := visited_of_yields hrun
    rw [hsupply]
    by_cases hreplaces : e.node.action.replaces = true
    · exact hvisited.avoids ih hreplaces (fun c hc => he.child hc) hscope hl
    cases hvisited with
    | @look v _ =>
      cases hlookup : s.lookup? v with
      | none => exact ⟨he, Nat.le_refl _⟩
      | some r => exact ⟨hscope _ (Scope.mem_bindings_of_lookup? hlookup), Nat.le_refl _⟩
    | pass => exact ⟨he, Nat.le_refl _⟩
    | inline h | capture h | unwrap h => exact absurd (by rw [h]; rfl) hreplaces
    | descend _ _ hwalk =>
      obtain ⟨node, st₂, heach, hshape, hout⟩ := hwalk.of_children
      obtain ⟨havoids, hle⟩ := keepsAvoiding_each (ih s)
        (fun c hc => he.child (Node.mem_visitOrder.1 hc)) hscope heach hl
      rcases hout with ⟨-, rfl, rfl⟩ | ⟨rfl, rfl⟩
      · exact ⟨he, hle⟩
      · have hnew : l < st₂.supply.next := Nat.lt_of_lt_of_le hl hle
        refine ⟨Expr.everywhere_iff.2 ⟨(Nat.ne_of_lt hnew).symm, fun c hc => ?_⟩, Nat.le_succ_of_le hle⟩
        rcases List.mem_append.1 hc with hc | hc
        · exact havoids c (Node.mem_visitOrder.2 hc)
        · rw [Expr.node_mk, ← Node.payload_shape, hshape, Node.payload_shape] at hc
          exact he.part (List.mem_append_right _ hc)

/-! ## Counting and sharing -/

/-- If nothing is counted in the empty scope, the expression comes back as itself. -/
theorem self_of_total_le {n : Nat} {e out : Expr} {st st' : WalkState Stats}
    (hrun : (expandUnder .idle asWritten n .root e).Yields st out st')
    (htotal : st'.own.total ≤ st.own.total) : out = e := by
  induction n generalizing e out st st' with
  | zero => exact absurd hrun not_yields_tooDeep
  | succ n ih =>
    obtain ⟨g, st₁, hvisited, -, hown⟩ := visited_of_yields hrun
    rw [hown] at htotal
    by_cases hreplaces : e.node.action.replaces = true
    · exact absurd (hvisited.total_lt hreplaces) (Nat.not_lt.2 htotal)
    cases hvisited with
    | look => rfl
    | pass => rfl
    | inline h | capture h | unwrap h => exact absurd (by rw [h]; rfl) hreplaces
    | descend _ _ hwalk =>
      obtain ⟨node, st₂, heach, -, hout⟩ := hwalk.of_children
      have hsame : st₁.own = st₂.own := by rcases hout with ⟨-, -, rfl⟩ | ⟨-, rfl⟩ <;> rfl
      have horder := heach.each_self (grows_expandUnder n .root) (fun _ _ _ _ h => ih h)
        (by rw [← hsame]; exact htotal)
      rw [horder] at heach
      exact (hwalk.unique heach.children_self).1

end Expansion

namespace Expr

/-- The parts of a coherent tree have other labels than the tree. -/
theorem Coherent.part_avoids {supply : Supply} {e c : Expr} (he : e.Coherent supply)
    (hc : c ∈ e.parts) : Expansion.Avoids e.label c := by
  intro a ha hlabel
  have hself : a = e := he.unique a e (.part hc ha) (.here e) hlabel
  have hsize := ha.sizeOf_le
  rw [hself] at hsize
  exact absurd (sizeOf_lt_of_mem_parts hc) (Nat.not_lt.2 hsize)

theorem Coherent.later {supply supply' : Supply} {e : Expr} (he : e.Coherent supply)
    (hle : supply.next ≤ supply'.next) : e.Coherent supply' where
  unique := he.unique
  drawn a ha := Nat.lt_of_lt_of_le (he.drawn a ha) hle

theorem Coherent.part {supply : Supply} {e c : Expr} (he : e.Coherent supply) (hc : c ∈ e.parts) :
    c.Coherent supply where
  unique a b ha hb := he.unique a b (.part hc ha) (.part hc hb)
  drawn := he.drawn.part hc

end Expr

namespace Expansion

open Walk

/-- A run draws labels and gives none back. -/
theorem supply_le {n : Nat} {e out : Expr} {st st' : WalkState Stats} (he : e.Coherent st.supply)
    (hrun : (expandUnder .idle asWritten n .root e).Yields st out st') :
    st.supply.next ≤ st'.supply.next := by
  obtain ⟨h, hnext, hholds⟩ := he.exists_heap
  obtain ⟨h', hle, hnext', -, -⟩ :=
    expands_of_yields n .root e hholds (by simp [Scope.root, Scope.bindings]) hrun hnext.symm
  rw [← hnext, hnext']
  exact hle.next_le

/-- If nothing is counted for an expression that comes back as itself, then nothing is counted for
expressions that all come back as themselves. -/
theorem total_le_of_labels_eq {n : Nat} (hone : ∀ {e out : Expr} {st st' : WalkState Stats},
      e.Coherent st.supply → (expandUnder .idle asWritten n .root e).Yields st out st' →
      out.label = e.label → st'.own.total ≤ st.own.total)
    {es outs : List Expr} {st st' : WalkState Stats}
    (hrun : (each (expandUnder .idle asWritten n .root) es).Yields st outs st')
    (hes : ∀ e ∈ es, e.Coherent st.supply) (hlabels : outs.map (·.label) = es.map (·.label)) :
    st'.own.total ≤ st.own.total := by
  induction es generalizing st outs with
  | nil =>
    obtain ⟨-, rfl⟩ := yields_each_nil.1 hrun
    exact Nat.le_refl _
  | cons e es ih =>
    obtain ⟨out, st₁, outs, hout, houts, rfl⟩ := yields_each_cons.1 hrun
    obtain ⟨hlabel, hlabels⟩ := List.cons.inj hlabels
    have he := hes e List.mem_cons_self
    have hle := supply_le he hout
    have hrest := ih houts (fun e' he' => (hes e' (List.mem_cons_of_mem _ he')).later hle) hlabels
    exact Nat.le_trans hrest (hone he hout hlabel)

/-- If an expression comes back as itself in the empty scope, nothing was counted. -/
theorem total_le_of_label_eq {n : Nat} {e out : Expr} {st st' : WalkState Stats}
    (he : e.Coherent st.supply)
    (hrun : (expandUnder .idle asWritten n .root e).Yields st out st')
    (hlabel : out.label = e.label) : st'.own.total ≤ st.own.total := by
  have hroot : ∀ l, ∀ p ∈ Scope.root.bindings, Avoids l p.2 := by simp [Scope.root, Scope.bindings]
  induction n generalizing e out st st' with
  | zero => exact absurd hrun not_yields_tooDeep
  | succ n ih =>
    obtain ⟨g, st₁, hvisited, -, hown⟩ := visited_of_yields hrun
    rw [hown]
    by_cases hreplaces : e.node.action.replaces = true
    · obtain ⟨havoids, -⟩ := hvisited.avoids (keepsAvoiding n) hreplaces
        (fun c hc => he.part_avoids (Expr.mem_parts_of_mem_children hc)) (hroot _)
        (he.drawn e (.here e))
      exact absurd hlabel havoids.here
    cases hvisited with
    | look => exact Nat.le_refl _
    | pass => exact Nat.le_refl _
    | inline h | capture h | unwrap h => exact absurd (by rw [h]; rfl) hreplaces
    | descend haction _ hwalk =>
      obtain ⟨node, st₂, heach, hshape, hout⟩ := hwalk.of_children
      rw [Node.visitOrder_eq_children (Expr.kind_of_descend haction)] at heach
      obtain ⟨-, hle⟩ := keepsAvoiding_each (keepsAvoiding n .root)
        (fun c hc => he.part_avoids (Expr.mem_parts_of_mem_children hc)) (hroot _) heach
        (he.drawn e (.here e))
      rcases hout with ⟨hsame, -, rfl⟩ | ⟨rfl, -⟩
      · have hchildren : node.visitOrder = node.children :=
          Node.visitOrder_eq_children (Node.kind_eq_of_shape hshape ▸ Expr.kind_of_descend haction)
        rw [hchildren] at heach
        have htotal := total_le_of_labels_eq ih heach
          (fun c hc => he.part (Expr.mem_parts_of_mem_children hc)) (beq_iff_eq.1 hsame).symm
        exact htotal
      · -- an expression that was made again has a label that was not drawn before
        exact absurd hlabel.symm (Nat.ne_of_lt (Nat.lt_of_lt_of_le (he.drawn e (.here e)) hle))

end Expansion

theorem Stats.isEmpty_iff {s : Stats} : s.isEmpty = true ↔ s.total = 0 := by
  rw [isEmpty, beq_iff_eq, total]
  constructor
  · rintro rfl
    rfl
  · intro h
    obtain ⟨inlined, resolved, unwrapped⟩ := s
    simp only [Nat.add_eq_zero_iff] at h
    obtain ⟨⟨rfl, rfl⟩, rfl⟩ := h
    rfl

/-- An expansion gives back the expression it was given if and only if it has counted nothing. -/
theorem expand_eq_self_iff_stats_empty (limit : Nat) (e : Expr) (supply supply' : Supply) (r : Expanded)
    (he : e.Coherent supply) (h : expand limit e supply = .ok (r, supply')) :
    (r.tree.label = e.label ↔ r.stats.isEmpty = true) ∧ (r.stats.isEmpty = true → r.tree = e) := by
  rw [← expandWith_idle] at h
  obtain ⟨guard, hrun⟩ := expandWith_eq_ok_iff.1 h
  have hself : r.stats.isEmpty = true → r.tree = e := fun hempty =>
    Expansion.self_of_total_le hrun (Nat.le_of_eq (Stats.isEmpty_iff.1 hempty))
  refine ⟨⟨fun hlabel => ?_, fun hempty => by rw [hself hempty]⟩, hself⟩
  exact Stats.isEmpty_iff.2 (Nat.le_zero.1 (Expansion.total_le_of_label_eq he hrun hlabel))

/-- Nothing to expand, though there is a lambda and a tree in a constant. -/
def idleLambda : String := "free g: F (call static C::f ((lambda ((x Int)) x) (tree (invoke g 1))) Int)"

/-- The result is an argument of the invocation. -/
def appliedIdentity : String := "(invoke (lambda ((x Int)) x) (neg 1))"

/-- One source of each kind. -/
theorem expand_eq_self_iff_on_sources :
    (∃ e supply r supply', parseTree idleLambda {} = .ok (e, supply) ∧
      expand 9 e supply = .ok (r, supply') ∧ r.stats.isEmpty = true ∧ r.tree = e) ∧
    ∃ e supply r supply', parseTree appliedIdentity {} = .ok (e, supply) ∧
      expand 9 e supply = .ok (r, supply') ∧ r.stats.isEmpty = false ∧ r.tree.label ≠ e.label := by
  constructor
  · have hpasses : passes idleLambda 9 (fun _ _ r => r.stats.isEmpty) = true := by
      decide +kernel
    obtain ⟨e, supply, r, supply', hparse, hexpand, hempty⟩ := exists_run_of_passes hpasses
    exact ⟨e, supply, r, supply', hparse, hexpand, hempty, (expand_eq_self_iff_stats_empty 9 e supply
      supply' r (grounded_of_parseTree hparse).coherent hexpand).2 hempty⟩
  · have hpasses : passes appliedIdentity 9 (fun _ _ r => !r.stats.isEmpty) = true := by decide +kernel
    obtain ⟨e, supply, r, supply', hparse, hexpand, hcounted⟩ := exists_run_of_passes hpasses
    rw [Bool.not_eq_true'] at hcounted
    refine ⟨e, supply, r, supply', hparse, hexpand, hcounted, fun hlabel => ?_⟩
    have hempty := (expand_eq_self_iff_stats_empty 9 e supply supply' r
      (grounded_of_parseTree hparse).coherent hexpand).1.1 hlabel
    rw [hcounted] at hempty
    cases hempty

end ExprTree
