import Mathlib.Data.List.Pairwise
import ExprTree.Proofs.DepthLimit
import ExprTree.Proofs.Escape
import ExprTree.Proofs.PrintedTree
import ExprTree.Proofs.Untouched

/-!
# First-order trees

An expansion that does not end by itself goes on through parameters: a body invokes what was bound to a
parameter, and so leaves the tree that it stands in. In a first-order tree no invocation target is a
variable, once the layers around it are taken off (`Expr.FirstOrder`). There all that a visit goes on with
stands within the expression it visits, so the levels on which the tree nests, through its closures, are
enough (`Expr.reach`).

A parameter would be bound again only inside the body of its own lambda. The tree of a source binds every
parameter once (`FromSource.boundOnce`), and so the lambda would stand within its own body. Hence the tree
of a first-order source is never refused for a recursive binding, and no limit from there on stops it
(`expand_of_firstOrder`).
-/

namespace ExprTree

/-! ## Invocation targets -/

namespace Expr

variable {e : Expr}

/-- What is under a layer is part of the node, or of something within the node. -/
theorem exists_part_of_layer {count : Stats → Stats} {inner : Expr}
    (h : e.node.layer = .around count inner) : ∃ o : Expr, o.Within e ∧ inner ∈ o.parts := by
  obtain ⟨-, hchild | hquoted | ⟨o, ho, htree⟩⟩ := origin_of_layer h
  · exact ⟨e, .here e, mem_parts_of_mem_children hchild⟩
  · exact ⟨e, .here e, List.mem_append_right _ (Node.mem_payload.2 (.inl hquoted))⟩
  · exact ⟨o, ho, List.mem_append_right _ (Node.mem_payload.2 (.inr htree))⟩

theorem sizeOf_lt_of_layer {count : Stats → Stats} {inner : Expr}
    (h : e.node.layer = .around count inner) : sizeOf inner < sizeOf e := by
  obtain ⟨o, ho, hinner⟩ := exists_part_of_layer h
  exact Nat.lt_of_lt_of_le (sizeOf_lt_of_mem_parts hinner) ho.sizeOf_le

/-- What an invocation target is once all layers are taken off: markers that compile it, quotations,
constants that carry it and reads of captured fields. -/
def peeled (e : Expr) : Expr :=
  match _h : e.node.layer with
  | .around _ inner => inner.peeled
  | _ => e
termination_by sizeOf e
decreasing_by exact sizeOf_lt_of_layer _h

theorem peeled_of_around {count : Stats → Stats} {inner : Expr}
    (h : e.node.layer = .around count inner) : e.peeled = inner.peeled := by
  rw [peeled]
  split
  · next hlayer =>
    cases hlayer.symm.trans h
    rfl
  · next hlayer =>
    exact absurd h (hlayer count inner)

theorem peeled_of_not_around (h : ∀ count inner, e.node.layer ≠ .around count inner) : e.peeled = e := by
  rw [peeled]
  split
  · next hlayer => exact absurd hlayer (h _ _)
  · rfl

theorem peeled_of_variable {v : Variable} (h : e.node = .variable v) : e.peeled = e :=
  peeled_of_not_around fun _ _ hlayer => by simp [h, Node.layer] at hlayer

theorem peeled_of_lambda {params : List Variable} {body : Expr} {ty : Ty}
    (h : e.node = .lambda params body ty) : e.peeled = e :=
  peeled_of_not_around fun _ _ hlayer => by simp [h, Node.layer] at hlayer

/-- What a target is peeled to stands within it. -/
theorem peeled_within (e : Expr) : e.peeled.Within e := by
  induction e using peeled.induct with
  | case1 e count inner hlayer ih =>
    rw [peeled_of_around hlayer]
    exact ih.trans (within_of_layer hlayer)
  | case2 e hlayer =>
    rw [peeled_of_not_around hlayer]
    exact .here e

end Expr

/-! ## Nesting through closures -/

namespace Expr

variable {a c e : Expr}

/-- The number of levels on which expressions nest, those in the closures that they refer to included. -/
def reach (e : Expr) : Nat := 1 + (e.parts.attach.map fun c => reach c.1).foldr max 0
termination_by sizeOf e
decreasing_by exact sizeOf_lt_of_mem_parts c.2

theorem reach_eq (e : Expr) : e.reach = 1 + (e.parts.map reach).foldr max 0 := by
  rw [reach, List.attach_map_val]

theorem reach_pos (e : Expr) : 0 < e.reach := by
  rw [reach_eq]
  omega

theorem reach_lt_of_mem_parts (h : c ∈ e.parts) : c.reach < e.reach := by
  have hc := le_foldr_max (List.mem_map_of_mem (f := reach) h)
  rw [reach_eq e]
  omega

theorem reach_le {levels : Nat} (h : ∀ c ∈ e.parts, c.reach ≤ levels) : e.reach ≤ levels + 1 := by
  have hbelow : (e.parts.map reach).foldr max 0 ≤ levels := foldr_max_le_iff.2 fun n hn => by
    obtain ⟨c, hc, rfl⟩ := List.mem_map.1 hn
    exact h c hc
  rw [reach_eq]
  omega

theorem Within.reach_le (h : a.Within e) : a.reach ≤ e.reach := by
  induction h with
  | here => exact Nat.le_refl _
  | part hc _ ih => exact Nat.le_trans ih (Nat.le_of_lt (reach_lt_of_mem_parts hc))

theorem reach_lt_of_mem_children (h : c ∈ e.children) : c.reach < e.reach :=
  reach_lt_of_mem_parts (mem_parts_of_mem_children h)

/-- The trees in a closure reach less far than what refers to the closure. -/
theorem reach_lt_of_captured {o tree : Expr} (ho : o.Within e) (htree : tree ∈ o.node.captured) :
    tree.reach < e.reach :=
  Nat.lt_of_lt_of_le (reach_lt_of_mem_parts (List.mem_append_right _ (Node.mem_payload.2 (.inr htree))))
    ho.reach_le

theorem reach_lt_of_layer {count : Stats → Stats} {inner : Expr}
    (h : e.node.layer = .around count inner) : inner.reach < e.reach := by
  obtain ⟨o, ho, hinner⟩ := exists_part_of_layer h
  exact Nat.lt_of_lt_of_le (reach_lt_of_mem_parts hinner) ho.reach_le

/-- A tree goes as deep as it nests, and from there as deep as its closures go. -/
theorem reach_le_of_references {levels : Nat}
    (h : ∀ c ∈ e.references, ∀ t ∈ c.trees, t.reach ≤ levels) : e.reach ≤ e.nesting + levels := by
  induction e using innerInduction with
  | step e ih =>
    have hnesting := e.nesting_pos
    have hparts : ∀ c ∈ e.parts, c.reach ≤ e.nesting - 1 + levels := by
      intro c hc
      have hinner : c ∈ e.inner → c.reach ≤ e.nesting - 1 + levels := fun hc => by
        have hlt := nesting_lt_of_mem_inner hc
        have hle := ih c hc fun d hd => h d (mem_gather_of_inner hc hd)
        omega
      rcases List.mem_append.1 hc with hchild | hpayload
      · exact hinner (List.mem_append_left _ hchild)
      rcases Node.mem_payload.1 hpayload with hquoted | hcaptured
      · exact hinner (List.mem_append_right _ hquoted)
      · obtain ⟨d, hd, hc⟩ := Node.mem_captured.1 hcaptured
        exact Nat.le_add_left_of_le (h d (mem_gather_here hd) c hc)
    have hle := reach_le hparts
    omega

end Expr

/-- Closures that refer to those behind them only go one tree deeper from one to the next. -/
theorem Ordered.reach_le {D : Closure Value → Prop} {cs : List (Closure Value)} {levels : Nat}
    (h : Ordered D cs) (hnesting : ∀ c ∈ cs, ∀ t ∈ c.ownTrees, t.nesting ≤ levels) :
    ∀ c ∈ cs, ∀ t ∈ c.trees, t.reach ≤ levels * cs.length := by
  induction h with
  | nil => simp
  | @cons c cs _ _ _ hreferences ih =>
    rw [List.forall_mem_cons] at hnesting
    have ih := ih hnesting.2
    rw [List.length_cons, Nat.mul_succ]
    rw [List.forall_mem_cons]
    refine ⟨fun t ht => ?_, fun d hd t ht => Nat.le_add_right_of_le (ih d hd t ht)⟩
    obtain ⟨⟨name, v⟩, hf, ht⟩ := List.mem_flatMap.1 ht
    have hrefs : ∀ r ∈ v.references, r ∈ cs := fun r hr =>
      hreferences r (List.mem_flatMap.2 ⟨_, hf, hr⟩)
    cases v with
    | tree u =>
      obtain rfl : t = u := by simpa using ht
      have hle := Expr.reach_le_of_references fun d hd => ih d (hrefs d hd)
      have hown := hnesting.1 t (Closure.mem_ownTrees.2 ⟨name, hf⟩)
      omega
    | closure d =>
      have hd := ih d (hrefs d (List.mem_singleton_self d)) t (by simpa using ht)
      omega
    | _ => simp [Value.trees] at ht

/-- The tree of a source goes at most as deep as the reader does, once for itself and once for each closure
that it reaches. -/
theorem FromSource.reach_le {e : Expr} (h : FromSource e) :
    e.reach ≤ Parser.maxNesting * ((closuresOf e).length + 1) := by
  have hown : ∀ c ∈ (closuresOf e).reverse, ∀ t ∈ c.ownTrees, t.nesting ≤ Parser.maxNesting := fun c hc t ht =>
    h.nesting t (List.mem_append_left _ (List.mem_flatMap.2 ⟨c, List.mem_reverse.1 hc, ht⟩))
  have hclosures := h.ordered.reach_le hown
  rw [List.length_reverse] at hclosures
  have hle : e.reach ≤ e.nesting + Parser.maxNesting * (closuresOf e).length :=
    Expr.reach_le_of_references fun c hc => hclosures c (List.mem_reverse.2 (h.references c hc))
  have hnesting := h.nesting e (List.mem_append_right _ (List.mem_singleton_self e))
  rw [Nat.mul_succ]
  omega

/-! ## First-order trees -/

/-- The target of an invocation or of a marked one. -/
def Node.invoked (n : Node) : List Expr :=
  match n.action with
  | .inline target _ => [target]
  | _ => []

/-- Nowhere in the tree, and in the trees that it carries, a variable is invoked, whatever layers are
around it. -/
def Expr.FirstOrder (e : Expr) : Prop :=
  e.Everywhere fun a => ∀ target ∈ a.node.invoked, target.peeled.kind ≠ .variable

instance (e : Expr) : Decidable e.FirstOrder :=
  decidable_of_iff (∀ a ∈ e.within, ∀ target ∈ a.node.invoked, target.peeled.kind ≠ .variable)
    (forall_congr' fun _ => imp_congr_left Expr.mem_within)

/-! ## Trees that bind every parameter once -/

/-- No two lambdas within the tree have a parameter in common, and none has one twice. -/
structure Expr.BoundOnce (e : Expr) : Prop where
  unique : ∀ a b : Expr, a.Within e → b.Within e → ∀ p, p ∈ a.node.params → p ∈ b.node.params → a = b
  nodup : e.Everywhere fun a => a.node.params.Nodup

theorem Expr.BoundOnce.within {a e : Expr} (h : e.BoundOnce) (ha : a.Within e) : a.BoundOnce where
  unique b c hb hc := h.unique b c (hb.trans ha) (hc.trans ha)
  nodup := h.nodup.within ha

/-- The parameters of a node are not bound again below it. -/
theorem Expr.BoundOnce.not_mem_params {a c e : Expr} (h : e.BoundOnce) (hc : c ∈ e.children)
    (ha : a.Within c) {p : Variable} (hp : p ∈ e.node.params) : p ∉ a.node.params := by
  intro hpa
  have hself : a = e := h.unique a e (ha.trans (within_of_mem_children hc)) (.here e) p hpa hp
  have hle : sizeOf e ≤ sizeOf c := hself ▸ ha.sizeOf_le
  exact absurd (sizeOf_lt_of_mem_children hc) (Nat.not_lt.2 hle)

/-- Items of a list that have something in common are the same, where nothing is listed twice. -/
theorem eq_of_nodup_flatMap {α β : Type} {f : α → List β} {xs : List α} (h : (xs.flatMap f).Nodup)
    {x y : α} (hx : x ∈ xs) (hy : y ∈ xs) {b : β} (hbx : b ∈ f x) (hby : b ∈ f y) : x = y := by
  by_contra hne
  have : Std.Symm (Function.onFun List.Disjoint f) := ⟨fun _ _ hapart _ hx hy => hapart hy hx⟩
  exact (List.nodup_flatMap.1 h).2.forall hx hy hne hbx hby

namespace Expr.Inside

variable {a b t : Expr}

theorem params_sublist (h : a.Inside t) : a.node.params.Sublist t.binders := by
  induction h with
  | here =>
    rw [binders, gather_eq]
    exact List.sublist_append_left _ _
  | @inner c e hc _ ih =>
    rw [binders, gather_eq]
    exact (ih.trans (List.sublist_flatten_of_mem (List.mem_map_of_mem hc))).trans
      (List.sublist_append_right _ _)

theorem eq_of_mem_params (hnodup : t.binders.Nodup) (ha : a.Inside t) (hb : b.Inside t) {p : Variable}
    (hpa : p ∈ a.node.params) (hpb : p ∈ b.node.params) : a = b := by
  induction t using innerInduction with
  | step t ih =>
    have hsplit : t.binders = t.node.params ++ t.inner.flatMap binders := gather_eq _ t
    rw [hsplit] at hnodup
    obtain ⟨-, hbelow, happart⟩ := List.nodup_append.1 hnodup
    -- what is bound at the root is not bound below it
    have hroot : ∀ {c d : Expr}, c ∈ t.inner → d.Inside c → p ∈ d.node.params → p ∉ t.node.params :=
      fun hc hd hpd hpt => happart p hpt p
        (List.mem_flatMap.2 ⟨_, hc, hd.params_sublist.subset hpd⟩) rfl
    cases ha with
    | here =>
      cases hb with
      | here => rfl
      | inner hc hb => exact absurd hpa (hroot hc hb hpb)
    | @inner c _ hc ha =>
      cases hb with
      | here => exact absurd hpb (hroot hc ha hpa)
      | @inner d _ hd hb =>
        obtain rfl : c = d := eq_of_nodup_flatMap hbelow hc hd (ha.params_sublist.subset hpa)
          (hb.params_sublist.subset hpb)
        exact ih c hc ((List.nodup_flatMap.1 hbelow).1 c hc) ha hb

end Expr.Inside

/-- The tree of a source binds every parameter once. -/
theorem FromSource.boundOnce {e : Expr} (h : FromSource e) : e.BoundOnce := by
  have hbinders : (e.printed.flatMap Expr.binders).Nodup := (List.nodup_append.1 h.nodup).2.1
  refine ⟨fun a b ha hb p hpa hpb => ?_, fun a ha => ?_⟩
  · obtain ⟨t, ht, ha⟩ := h.closes.inside ha
    obtain ⟨u, hu, hb⟩ := h.closes.inside hb
    obtain rfl : t = u := eq_of_nodup_flatMap hbinders ht hu (ha.params_sublist.subset hpa)
      (hb.params_sublist.subset hpb)
    exact ha.eq_of_mem_params ((List.nodup_flatMap.1 hbinders).1 t ht) hb hpa hpb
  · obtain ⟨t, ht, ha⟩ := h.closes.inside ha
    exact ha.params_sublist.nodup ((List.nodup_flatMap.1 hbinders).1 t ht)

/-! ## Steps that end -/

namespace Walk

variable {σ α β : Type} {n : Nat}

/-- With room for `n` levels the step succeeds with a result in `Q`, and the guard is as it was, or it
fails for a cause of its own. -/
def Ends (n : Nat) (x : Walk σ α) (Q : α → Prop) : Prop :=
  ∀ st, Room n st → (∃ a st', x.Yields st a st' ∧ st'.guard = st.guard ∧ Q a) ∨
    ∃ failure, x.Fails st failure ∧ failure.isRunaway = false

theorem ends_pure {a : α} {Q : α → Prop} (h : Q a) : Ends n (pure a : Walk σ α) Q := fun st _ =>
  .inl ⟨a, st, yields_pure.2 ⟨rfl, rfl⟩, rfl, h⟩

theorem ends_throw {failure : Failure} {Q : α → Prop} (h : failure.isRunaway = false) :
    Ends n (throw failure : Walk σ α) Q := fun _ _ => .inr ⟨failure, fails_throw.2 rfl, h⟩

theorem ends_modifyOwn (f : σ → σ) : Ends n (modifyOwn f) fun _ => True := fun _ _ =>
  .inl ⟨(), _, yields_modifyOwn.2 rfl, rfl, trivial⟩

theorem ends_liftM {x : Except Failure α} {a : α} {Q : α → Prop} (hx : x = .ok a) (h : Q a) :
    Ends n (liftM x : Walk σ α) Q := fun st _ => .inl ⟨a, st, yields_liftM.2 ⟨hx, rfl⟩, rfl, h⟩

theorem Ends.bind {x : Walk σ α} {f : α → Walk σ β} {Q : α → Prop} {R : β → Prop} (hx : Ends n x Q)
    (hf : ∀ a, Q a → Ends n (f a) R) : Ends n (x >>= f) R := by
  intro st hroom
  obtain ⟨a, st₁, hyields, hguard, hQ⟩ | ⟨failure, hfails, hown⟩ := hx st hroom
  · obtain ⟨b, st₂, hyields₂, hguard₂, hR⟩ | ⟨failure, hfails, hown⟩ := hf a hQ st₁ (hroom.of_guard hguard)
    · exact .inl ⟨b, st₂, yields_bind.2 ⟨a, st₁, hyields, hyields₂⟩, hguard₂.trans hguard, hR⟩
    · exact .inr ⟨failure, fails_bind.2 (.inr ⟨a, st₁, hyields, hfails⟩), hown⟩
  · exact .inr ⟨failure, fails_bind.2 (.inl hfails), hown⟩

/-- One level further down there is room for one level less. -/
theorem Ends.guarded {x : Walk σ α} {Q : α → Prop} (hx : Ends n x Q) : Ends (n + 1) (guarded x) Q := by
  rintro st ⟨⟨limit, depth⟩, hguard, hroom⟩
  have hlt : depth < limit := by
    simp only at hroom
    omega
  have hrun := guarded_inside hguard hlt x
  have hinner : Room n { st with guard := some ⟨limit, depth + 1⟩ } :=
    ⟨⟨limit, depth + 1⟩, rfl, by simp only at hroom ⊢; omega⟩
  obtain ⟨a, st₁, hyields, hguard₁, hQ⟩ | ⟨failure, ⟨st₁, hfails⟩, hown⟩ := hx _ hinner
  · rw [show x _ = _ from hyields, hguard₁] at hrun
    exact .inl ⟨a, _, hrun, hguard.symm, hQ⟩
  · rw [hfails] at hrun
    exact .inr ⟨failure, ⟨_, hrun⟩, hown⟩

theorem Ends.each {f : α → Walk σ β} {xs : List α} (h : ∀ x ∈ xs, Ends n (f x) fun _ => True) :
    Ends n (each f xs) fun bs => bs.length = xs.length := by
  induction xs with
  | nil => exact ends_pure rfl
  | cons x xs ih =>
    rw [List.forall_mem_cons] at h
    refine h.1.bind fun b _ => (ih h.2).bind fun bs hlength => ends_pure ?_
    rw [List.length_cons, List.length_cons, hlength]

/-- A walk through the children ends if the visits do. -/
theorem Ends.children {f : Expr → Walk σ Expr} {e : Expr}
    (h : ∀ c ∈ e.children, Ends n (f c) fun _ => True) :
    Ends n (Walk.children e fun c _ => f c) fun _ => True := by
  intro st hroom
  have heach : Ends n (Walk.each f e.node.visitOrder) fun cs => cs.length = e.node.visitOrder.length :=
    Ends.each fun c hc => h c (Node.mem_visitOrder.1 hc)
  obtain ⟨cs, st₁, hyields, hguard, -⟩ | ⟨failure, hfails, hown⟩ := heach st hroom
  · obtain ⟨node, hnode, rfl⟩ := Node.exists_traverse hyields
    obtain ⟨hshape, -⟩ := Node.shape_of_traverse hnode
    by_cases hsame : sameChildren e.node node = true
    · refine .inl ⟨e, st₁, yields_children.2 ⟨node, st₁, hyields, hshape, ?_⟩, hguard, trivial⟩
      rw [if_pos hsame]
      exact yields_pure.2 ⟨rfl, rfl⟩
    · refine .inl ⟨.mk st₁.supply.next node, { st₁ with supply := ⟨st₁.supply.next + 1⟩ },
        yields_children.2 ⟨node, st₁, hyields, hshape, ?_⟩, hguard, trivial⟩
      rw [if_neg hsame]
      exact yields_alloc.2 ⟨rfl, rfl⟩
  · exact .inr ⟨failure, fails_children.2 hfails, hown⟩

end Walk

/-! ## The run -/

namespace Expansion

open Walk

/-- A target that is no variable under its layers leads to a lambda within it, in as many levels as it
reaches, or it cannot be invoked. -/
theorem ends_peelUnder {s : Scope} {levels : Nat} {target : Expr} (hreach : target.reach ≤ levels)
    (hpeeled : target.peeled.kind ≠ .variable) :
    Ends levels (peelUnder .idle s levels target) fun found =>
      ∃ (lambda : Expr) (ty : Ty), lambda.Within target ∧ lambda.node = .lambda found.1 found.2 ty := by
  induction levels generalizing target with
  | zero => exact absurd target.reach_pos (Nat.not_lt.2 hreach)
  | succ levels ih =>
    rw [peelUnder]
    refine Ends.guarded ?_
    cases hlayer : target.node.layer with
    | lambda params body =>
      obtain ⟨ty, hnode⟩ := Expr.node_of_layer_lambda hlayer
      exact ends_pure ⟨target, ty, .here target, hnode⟩
    | var v =>
      have hnode := Expr.node_of_layer_var hlayer
      rw [Expr.peeled_of_variable hnode, Expr.kind, hnode] at hpeeled
      exact absurd rfl hpeeled
    | around count inner =>
      have hinner : inner.reach < target.reach := Expr.reach_lt_of_layer hlayer
      rw [Expr.peeled_of_around hlayer] at hpeeled
      simp only [require_unquotes_idle]
      refine (ends_modifyOwn count).bind fun _ _ st hroom => ?_
      obtain ⟨found, st', hyields, hguard, lambda, ty, hwithin, hnode⟩ | hfails :=
        ih (by omega) hpeeled st hroom
      · exact .inl ⟨found, st', hyields, hguard, lambda, ty, hwithin.trans (Expr.within_of_layer hlayer),
          hnode⟩
      · exact .inr hfails
    | blocked failure => exact ends_throw (Node.failure_of_layer hlayer)

/-- Where every parameter is bound once, and the scope binds none of them, a lambda can be entered, and the
scope of its body binds no parameter of a lambda in it. -/
theorem extend_of_boundOnce {s : Scope} {e lambda body : Expr} {params : List Variable}
    {replacements : List Expr} {ty : Ty} (honce : e.BoundOnce)
    (hscope : ∀ p ∈ s.params, e.Everywhere fun a => p ∉ a.node.params) (hwithin : lambda.Within e)
    (hnode : lambda.node = .lambda params body ty) (hlength : replacements.length = params.length) :
    ∃ inner, s.extend (params.zip replacements) = .ok inner ∧
      ∀ p ∈ inner.params, body.Everywhere fun a => p ∉ a.node.params := by
  have hparams : lambda.node.params = params := by rw [hnode]; rfl
  have hbound : (params.zip replacements).map (·.1) = params :=
    List.map_fst_zip (Nat.le_of_eq hlength.symm)
  have hextend : s.extend (params.zip replacements) = .ok ⟨params.zip replacements :: s.frames⟩ := by
    refine Scope.extend_eq_ok_iff.2 ⟨rfl, ?_, fun p hp hs => hscope p.1 hs lambda hwithin ?_⟩
    · rw [hbound, ← hparams]
      exact honce.nodup lambda hwithin
    · rw [hparams]
      exact (List.of_mem_zip hp).1
  refine ⟨_, hextend, fun p hp => ?_⟩
  rcases (Scope.mem_params_extend hextend hlength).1 hp with hp | hp
  · exact fun a ha => (honce.within hwithin).not_mem_params (Expr.mem_children_of_lambda hnode) ha
      (hparams ▸ hp)
  · exact (hscope p hp).within
      ((Expr.within_of_mem_children (Expr.mem_children_of_lambda hnode)).trans hwithin)

/-- In a first-order tree that binds every parameter once, in a scope that binds none of them, as many
levels as the tree reaches are enough, and no parameter is bound again. -/
theorem ends_expandUnder {s : Scope} {levels : Nat} {e : Expr} (hreach : e.reach ≤ levels)
    (hfirst : e.FirstOrder) (honce : e.BoundOnce)
    (hscope : ∀ p ∈ s.params, e.Everywhere fun a => p ∉ a.node.params) :
    Ends levels (expandUnder .idle asWritten levels s e) fun _ => True := by
  induction levels generalizing s e with
  | zero => exact absurd e.reach_pos (Nat.not_lt.2 hreach)
  | succ levels ih =>
    -- whatever is visited next stands within `e` and reaches less far
    have hvisit : ∀ {c : Expr}, c.Within e → c.reach < e.reach →
        Ends levels (expandUnder .idle asWritten levels s c) fun _ => True := fun hc hlt =>
      ih (by omega) (hfirst.within hc) (honce.within hc) fun p hp => (hscope p hp).within hc
    have hchild : ∀ c ∈ e.children,
        Ends levels (expandUnder .idle asWritten levels s c) fun _ => True := fun c hc =>
      hvisit (Expr.within_of_mem_children hc) (Expr.reach_lt_of_mem_children hc)
    rw [expandUnder]
    refine Ends.guarded ?_
    cases haction : e.node.action with
    | look v => exact ends_pure trivial
    | pass => exact ends_pure trivial
    | inline target args =>
      obtain ⟨htarget, hargs⟩ := Expr.mem_children_of_inline haction
      have hlt : target.reach < e.reach := Expr.reach_lt_of_mem_children htarget
      have hpeeled : target.peeled.kind ≠ .variable :=
        hfirst.here target (by rw [Node.invoked, haction]; exact List.mem_singleton_self target)
      refine (ends_peelUnder (by omega) hpeeled).bind fun found hfound => ?_
      obtain ⟨params, body⟩ := found
      obtain ⟨lambda, ty, hwithin, hnode⟩ := hfound
      have hlambda : lambda.Within e := hwithin.trans (Expr.within_of_mem_children htarget)
      have hbody : body ∈ lambda.children := Expr.mem_children_of_lambda hnode
      simp only
      by_cases harity : params.length ≠ args.length
      · rw [if_pos harity]
        exact (ends_throw (Q := fun _ => False) rfl).bind fun _ hfalse => hfalse.elim
      rw [if_neg harity]
      refine (Ends.each fun a ha => hchild a (hargs a ha)).bind fun rs hlength => ?_
      refine (ends_pure (Q := fun prepared => prepared = (params, body)) rfl).bind fun _ hprepared => ?_
      subst hprepared
      obtain ⟨inner, hextend, hinner⟩ := extend_of_boundOnce honce hscope hlambda hnode
        (hlength.trans (Decidable.not_not.1 harity).symm)
      refine (ends_liftM hextend rfl).bind fun _ hfound => ?_
      subst hfound
      refine (ends_modifyOwn _).bind fun _ _ => ?_
      have hinside : body.Within e := (Expr.within_of_mem_children hbody).trans hlambda
      have hless : body.reach < e.reach :=
        Nat.lt_of_lt_of_le (Expr.reach_lt_of_mem_children hbody) hlambda.reach_le
      exact ih (Nat.le_of_lt_succ (Nat.lt_of_lt_of_le hless hreach)) (hfirst.within hinside)
        (honce.within hinside) hinner
    | capture compiled tree =>
      obtain ⟨c, hc, o, ho, htree⟩ := Expr.captured_of_capture haction
      have ho := ho.trans (Expr.within_of_mem_children hc)
      exact (ends_modifyOwn _).bind fun _ _ =>
        hvisit (Expr.within_of_captured ho htree) (Expr.reach_lt_of_captured ho htree)
    | unwrap query =>
      exact (ends_modifyOwn _).bind fun _ _ => hchild query (Expr.mem_children_of_unwrap haction)
    | descend => exact Ends.children hchild
    | fail failure => exact ends_throw (Node.failure_of_action haction)

end Expansion

/-- In a tree that is first-order and binds every parameter once, every limit that is not below what the
tree reaches leads to a result or to a failure that does not come from going on. -/
theorem not_runaway_of_firstOrder {e : Expr} (honce : e.BoundOnce) (hfirst : e.FirstOrder)
    {limit : Nat} (hlimit : e.reach ≤ limit) (supply : Supply) {failure : Failure}
    (h : expand limit e supply = .error failure) : failure.isRunaway = false := by
  rw [← expandWith_idle, expandWith_eq_error_iff] at h
  obtain ⟨st, h⟩ := h
  have hends : Walk.Ends limit (Expansion.expandUnder .idle Expansion.asWritten limit .root e) fun _ => True :=
    Expansion.ends_expandUnder hlimit hfirst honce fun _ hp => absurd hp List.not_mem_nil
  obtain ⟨_, _, hyields, -⟩ | ⟨failure', ⟨st', hfails⟩, hown⟩ :=
    hends { supply, guard := some { limit }, own := {} } ⟨{ limit }, rfl, by simp⟩
  · cases h.symm.trans hyields
  · cases h.symm.trans hfails
    exact hown

/-- First-order sources always expand. Where no invocation target in the tree of a source, in the trees it
carries and in the fields of its closures is a variable under its layers, no limit leads to a recursive
binding. No limit stops the expansion that is not below the levels on which the tree nests, through its
closures. These are at most 256 for the tree and 256 for each closure that it reaches. -/
theorem expand_of_firstOrder (source : String) (supply₀ supply : Supply) (e : Expr)
    (hparse : parseTree source supply₀ = .ok (e, supply)) (hfirst : e.FirstOrder) :
    (∀ limit name, expand limit e supply ≠ .error (.recursiveBinding name)) ∧
      (∀ limit, e.reach ≤ limit → ∀ n, expand limit e supply ≠ .error (.depthExceeded n)) ∧
      e.reach ≤ 256 * ((closuresOf e).length + 1) := by
  have hsource := fromSource_of_parseTree hparse
  refine ⟨fun limit name hfails => ?_, fun limit hlimit n hfails => ?_, hsource.reach_le⟩
  · -- a smaller limit stops the run, or it changes nothing
    obtain ⟨-, hcut⟩ | ⟨hsame, -⟩ := expand_under_limits (Nat.le_max_left limit e.reach) e supply
    · cases hcut.symm.trans hfails
    · have hown := not_runaway_of_firstOrder hsource.boundOnce hfirst (Nat.le_max_right limit e.reach) supply
        (hsame.trans hfails)
      cases hown
  · have hown := not_runaway_of_firstOrder hsource.boundOnce hfirst hlimit supply hfails
    cases hown

/-- A captured lambda with an invocation in its body is invoked twice, once in an argument and once, through
a marker, in the body of the lambda that the argument is for. -/
def capturedTwice : String :=
  "closure E \x7bf = (tree (lambda ((y Int)) (invoke (quote (lambda ((z Int)) z)) y)))\x7d " ++
    "(invoke (lambda ((x Int)) (invoke! (compile (field E E::f F)) x)) (invoke (tree (field E E::f F)) 2))"

/-- The captured lambda may be invoked under any layers and any number of times. -/
theorem expand_capturedTwice_of_firstOrder :
    ∃ e supply out supply', parseTree capturedTwice {} = .ok (e, supply) ∧ e.FirstOrder ∧
      expand 9 e supply = .ok (out, supply') ∧ out.stats.invocationsInlined = 5 ∧ e.reach = 11 ∧
      (∀ limit name, expand limit e supply ≠ .error (.recursiveBinding name)) ∧
      ∀ limit, 11 ≤ limit → ∀ n, expand limit e supply ≠ .error (.depthExceeded n) := by
  have hpasses : passes capturedTwice 9 (fun e _ out =>
      decide (e.FirstOrder ∧ out.stats.invocationsInlined = 5 ∧ e.reach = 11)) = true := by decide +kernel
  obtain ⟨e, supply, out, supply', hparse, hexpand, hcheck⟩ := exists_run_of_passes hpasses
  obtain ⟨hfirst, hinlined, hreach⟩ := of_decide_eq_true hcheck
  obtain ⟨hrecursive, hlimits, -⟩ := expand_of_firstOrder capturedTwice {} supply e hparse hfirst
  exact ⟨e, supply, out, supply', hparse, hfirst, hexpand, hinlined, hreach, hrecursive, hreach ▸ hlimits⟩

end ExprTree
