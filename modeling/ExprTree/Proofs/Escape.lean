import ExprTree.Proofs.Derivation
import ExprTree.Proofs.Reading

/-!
# Which variables a result leaves loose

In the tree of a source every parameter stands below its lambda. Expansion takes lambdas away, and
the parameters it takes away with them are replaced everywhere in the body, with one exception: a
tree in a constant is data and is passed as it is. If such a tree is later opened as an invocation
target, what it refers to may be gone.

`Expands.looseOnly` bounds what a result leaves loose, reference by reference. The bound `A` is on
the references in replacements, in captured trees and in those carried trees that may be opened;
under a lambda it is widened by the parameters, so that the induction goes through with `A`
arbitrary. A run opens finitely many trees, and it passes under a watch that allows just these
(`exists_opened`), so that the bound speaks of them only
(`expand_leaves_loose_declared_or_opened`).
-/

namespace ExprTree

namespace Expr

/-! ## Loose references -/

/-- The node `a` refers to `v`, children lead from the last argument to it, and no lambda on the way
lists `v`. -/
inductive LooseIn (v : Variable) : Expr → Expr → Prop
  | here {a : Expr} : a.node = .variable v → LooseIn v a a
  | under {a c e : Expr} : c ∈ e.children → v ∉ e.node.params → LooseIn v a c → LooseIn v a e

/-- All references that are loose in `e` satisfy `A`. -/
def LooseOnly (A : Variable → Expr → Prop) (e : Expr) : Prop := ∀ v a, LooseIn v a e → A v a

variable {A B : Variable → Expr → Prop} {opened : Expr → Bool} {a e : Expr} {v : Variable}

/-- The variables of the loose references are the exposed ones. -/
theorem mem_exposed_iff_looseIn : v ∈ e.exposed ↔ ∃ a, LooseIn v a e := by
  constructor
  · induction e using childInduction with
    | step e ih =>
      intro hv
      rcases mem_exposed.1 hv with hown | ⟨hparams, c, hc, hv⟩
      · exact ⟨e, .here (Node.mem_own.1 hown)⟩
      · obtain ⟨a, ha⟩ := ih c hc hv
        exact ⟨a, .under hc hparams ha⟩
  · rintro ⟨a, ha⟩
    induction ha with
    | here hnode => exact mem_exposed.2 (.inl (Node.mem_own.2 hnode))
    | under hc hparams _ ih => exact mem_exposed.2 (.inr ⟨hparams, _, hc, ih⟩)

theorem looseOnly_iff_exposed {P : Variable → Prop} :
    e.LooseOnly (fun v _ => P v) ↔ ∀ v ∈ e.exposed, P v := by
  simp only [LooseOnly, mem_exposed_iff_looseIn, forall_exists_index]

theorem LooseOnly.imp (h : e.LooseOnly A) (hAB : ∀ v a, A v a → B v a) : e.LooseOnly B :=
  fun v a ha => hAB v a (h v a ha)

/-- An expression that binds nothing leaves loose what its children leave loose. -/
theorem LooseOnly.child {c : Expr} (h : e.LooseOnly A) (hparams : e.node.params = [])
    (hc : c ∈ e.children) : c.LooseOnly A :=
  fun v a ha => h v a (.under hc (by simp [hparams]) ha)

theorem eq_of_looseIn_variable {u : Variable} (hnode : e.node = .variable v) (h : LooseIn u a e) :
    u = v ∧ a = e := by
  cases h with
  | here hnode' => exact ⟨by simpa [hnode, eq_comm] using hnode', rfl⟩
  | under hc =>
    rw [children, hnode] at hc
    cases hc

theorem not_looseIn_constant {value : Value} {ty : Ty} (hnode : e.node = .constant value ty) :
    ¬ LooseIn v a e := by
  intro h
  cases h with
  | here hnode' => cases hnode.symm.trans hnode'
  | under hc =>
    rw [children, hnode] at hc
    cases hc

theorem not_mem_exposed_constant {value : Value} {ty : Ty} (hnode : e.node = .constant value ty) :
    v ∉ e.exposed := by
  intro hv
  obtain ⟨a, ha⟩ := mem_exposed_iff_looseIn.1 hv
  exact not_looseIn_constant hnode ha

/-- Loose references in a captured tree satisfy `A`, and so do those in a carried tree that may be
opened. -/
structure Carries (opened : Expr → Bool) (A : Variable → Expr → Prop) (a : Expr) : Prop where
  quoted : ∀ t ∈ a.node.quoted, opened t = true → t.LooseOnly A
  captured : ∀ t ∈ a.node.captured, t.LooseOnly A

theorem Carries.of_shape {a b : Expr} (hshape : a.node.shape = b.node.shape)
    (h : Carries opened A b) : Carries opened A a where
  quoted t ht := h.quoted t (by rwa [← Node.quoted_shape, ← hshape, Node.quoted_shape])
  captured t ht := h.captured t (by rwa [← Node.captured_shape, ← hshape, Node.captured_shape])

theorem Carries.imp (h : Carries opened A e) (hAB : ∀ v a, A v a → B v a) : Carries opened B e where
  quoted t ht hopened := (h.quoted t ht hopened).imp hAB
  captured t ht := (h.captured t ht).imp hAB

end Expr

/-! ## What an expansion leaves loose -/

/-- The lambda that a target stands for leaves no more loose than the target, the replacements, the
captured trees and the carried trees that may be opened. -/
theorem Peels.looseOnly {watch : Watch} {s : Scope} {n : Nat} {target body : Expr}
    {params : List Variable} {A : Variable → Expr → Prop}
    (h : Peels watch s n target params body)
    (hcarries : ∀ p ∈ s.bindings, p.2.Everywhere (Expr.Carries watch.unquotes A))
    (hscope : ∀ p ∈ s.bindings, p.2.LooseOnly A)
    (htarget : target.Everywhere (Expr.Carries watch.unquotes A))
    (hloose : target.LooseOnly fun v a => A v a ∨ v ∈ s.params) :
    body.LooseOnly fun v a => v ∈ params ∨ A v a ∨ v ∈ s.params := by
  induction h with
  | @lambda _ _ body params hlayer =>
    intro v a ha
    obtain ⟨ty, hnode⟩ := Expr.node_of_layer_lambda hlayer
    by_cases hparam : v ∈ params
    · exact .inl hparam
    · refine .inr (hloose v a (.under (Expr.mem_children_of_lambda hnode) ?_ ha))
      rw [hnode]
      exact hparam
  | var _ hlookup _ _ _ ih =>
    have hmem := Scope.mem_bindings_of_lookup? hlookup
    exact ih (hcarries _ hmem) ((hscope _ hmem).imp fun _ _ => .inl)
  | around hlayer hunquotes _ ih =>
    refine ih (htarget.within (Expr.within_of_layer hlayer)) ?_
    obtain ⟨hparams, hchild | hquoted | ⟨o, ho, htree⟩⟩ := Expr.origin_of_layer hlayer
    · exact hloose.child hparams hchild
    · exact (htarget.here.quoted _ hquoted (hunquotes _ hquoted)).imp fun _ _ => .inl
    · exact ((htarget o ho).captured _ htree).imp fun _ _ => .inl

/-- Extending a scope binds the new parameters beside the old ones. -/
theorem Scope.mem_params_extend {s inner : Scope} {params : List Variable} {rs : List Expr}
    (hextend : s.extend (params.zip rs) = .ok inner) (hlength : rs.length = params.length)
    {v : Variable} : v ∈ inner.params ↔ v ∈ params ∨ v ∈ s.params := by
  have hzip : (params.zip rs).map (·.1) = params := List.map_fst_zip (Nat.le_of_eq hlength.symm)
  rw [Scope.params, Scope.bindings_of_extend hextend, List.map_append, hzip, List.mem_append]
  rfl

/-- If the loose references in replacements and in the trees that may be opened satisfy `A`, and
those in the expression do or are bound, then the loose references in the result satisfy `A`. -/
theorem Expands.looseOnly {watch : Watch} {n : Nat} {s : Scope} {e out : Expr}
    {A : Variable → Expr → Prop} (h : Expands watch n s e out)
    (hcarries : ∀ p ∈ s.bindings, p.2.Everywhere (Expr.Carries watch.unquotes A))
    (hscope : ∀ p ∈ s.bindings, p.2.LooseOnly A)
    (he : e.Everywhere (Expr.Carries watch.unquotes A))
    (hloose : e.LooseOnly fun v a => A v a ∨ v ∈ s.params) : out.LooseOnly A := by
  induction h generalizing A with
  | found _ hlookup => exact hscope _ (Scope.mem_bindings_of_lookup? hlookup)
  | unbound haction hlookup =>
    intro u a ha
    obtain ⟨rfl, -⟩ := Expr.eq_of_looseIn_variable (Expr.node_of_look haction) ha
    exact (hloose u a ha).resolve_right (Scope.lookup?_eq_none_iff.1 hlookup)
  | pass haction =>
    intro u a ha
    obtain ⟨value, ty, hnode⟩ := Expr.node_of_pass haction
    exact absurd ha (Expr.not_looseIn_constant hnode)
  | @inline n s inner e target body out args replacements params haction hpeels harity hlength hargs
      hextend _ ihargs ihbody =>
    obtain ⟨htarget, hchildren⟩ := Expr.mem_children_of_inline haction
    have hparams : e.node.params = [] := Expr.params_of_action (by simp [haction])
    -- the arguments expand to allowed replacements, which the inner scope then binds
    have hreplaced : ∀ r ∈ replacements,
        r.Everywhere (Expr.Carries watch.unquotes A) ∧ r.LooseOnly A := by
      intro r hr
      obtain ⟨a, ha, hpair⟩ := exists_mem_zip hlength hr
      have harg := he.child (hchildren a ha)
      refine ⟨(hargs _ hpair).everywhere (fun _ _ => Expr.Carries.of_shape) hcarries harg, ?_⟩
      exact ihargs _ hpair hcarries hscope harg (hloose.child hparams (hchildren a ha))
    refine ihbody
      (Scope.forall_bindings_extend hextend hcarries fun r hr => (hreplaced r hr).1)
      (Scope.forall_bindings_extend hextend hscope fun r hr => (hreplaced r hr).2)
      (hpeels.everywhere_body hcarries (he.child htarget)) fun v a ha => ?_
    simp only [Scope.mem_params_extend hextend (hlength.trans harity.symm)]
    rcases hpeels.looseOnly hcarries hscope (he.child htarget) (hloose.child hparams htarget) v a ha
      with hparam | hallowed | hbound
    · exact .inr (.inl hparam)
    · exact .inl hallowed
    · exact .inr (.inr hbound)
  | capture haction _ ih =>
    obtain ⟨c, hc, o, ho, htree⟩ := Expr.captured_of_capture haction
    have ho := ho.trans (Expr.within_of_mem_children hc)
    exact ih hcarries hscope (he.within (Expr.within_of_capture haction))
      (((he o ho).captured _ htree).imp fun _ _ => .inl)
  | @unwrap n s e query out haction _ ih =>
    have hparams : e.node.params = [] := Expr.params_of_action (by simp [haction])
    have hquery := Expr.mem_children_of_unwrap haction
    exact ih hcarries hscope (he.child hquery) (hloose.child hparams hquery)
  | @descend n s e out haction _ hshape hlength _ ih =>
    intro v a ha
    have hparams : out.node.params = e.node.params := by
      rw [← Node.params_shape, hshape, Node.params_shape]
    cases ha with
    | here hnode =>
      have hkind := (Expr.plain_of_descend haction).2.1
      rw [← Node.kind_eq_of_shape hshape, hnode] at hkind
      exact absurd rfl hkind
    | @under c _ hc hinner ha =>
      -- below the node its parameters are allowed as well
      obtain ⟨b, hb, hpair⟩ := exists_mem_zip hlength hc
      have hallowed := ih _ hpair (A := fun v a => A v a ∨ v ∈ e.node.params)
        (fun p hp => (hcarries p hp).imp fun _ hcarry => hcarry.imp fun _ _ => .inl)
        (fun p hp => (hscope p hp).imp fun _ _ => .inl)
        ((he.child hb).imp fun _ hcarry => hcarry.imp fun _ _ => .inl) ?_ v a ha
      · exact hallowed.resolve_right (hparams ▸ hinner)
      · intro u b' hb'
        by_cases hparam : u ∈ e.node.params
        · exact .inl (.inr hparam)
        · exact (hloose u b' (.under hb hparam hb')).imp_left .inl

/-! ## The trees that a run opens

A watch that lets some carried trees be opened lets a run pass if the trees that the run opens are
among them. Which trees these are depends on the run alone: `Asks` says that there is a finite list of
them, step by step.
-/

namespace Walk

variable {σ α β : Type} {x : (Expr → Bool) → Walk σ α} {y : Walk σ α}

/-- Whenever `y` succeeds, `x` does the same for exactly those choices of trees that hold all of some
list, and it succeeds in no other way. -/
structure Asks (x : (Expr → Bool) → Walk σ α) (y : Walk σ α) : Prop where
  refines : ∀ opened, (x opened).Refines y
  trees : ∀ {st a st'}, y.Yields st a st' → ∃ ts : List Expr, ∀ opened,
    (x opened).Yields st a st' ↔ ∀ t ∈ ts, opened t = true

theorem asks_self (y : Walk σ α) : Asks (fun _ => y) y where
  refines _ := Refines.refl y
  trees h := ⟨[], fun _ => iff_of_true h (by simp)⟩

/-- A step that fails asks for nothing, whatever were to come after it. -/
theorem asks_throw_bind (failure : Failure) (f : (Expr → Bool) → α → Walk σ β) (g : α → Walk σ β) :
    Asks (fun opened => throw failure >>= f opened) (throw failure >>= g) where
  refines _ st b st' h := by
    obtain ⟨_, _, hthrow, -⟩ := yields_bind.1 h
    exact absurd hthrow not_yields_throw
  trees h := by
    obtain ⟨_, _, hthrow, -⟩ := yields_bind.1 h
    exact absurd hthrow not_yields_throw

/-- The second step asks for its trees in addition. -/
theorem Asks.bind {f : (Expr → Bool) → α → Walk σ β} {g : α → Walk σ β} (hx : Asks x y)
    (hf : ∀ a, Asks (fun opened => f opened a) (g a)) :
    Asks (fun opened => x opened >>= f opened) (y >>= g) where
  refines opened := (hx.refines opened).bind fun a => (hf a).refines opened
  trees {st b st'} h := by
    obtain ⟨a, st₁, hy, hg⟩ := yields_bind.1 h
    obtain ⟨ts, hts⟩ := hx.trees hy
    obtain ⟨us, hus⟩ := (hf a).trees hg
    refine ⟨ts ++ us, fun opened => ?_⟩
    rw [List.forall_mem_append, ← hts, ← hus, yields_bind]
    constructor
    · rintro ⟨a', st₂, hx', hf'⟩
      obtain ⟨rfl, rfl⟩ := (hx.refines opened _ _ _ hx').unique hy
      exact ⟨hx', hf'⟩
    · rintro ⟨hx', hf'⟩
      exact ⟨a, st₁, hx', hf'⟩

/-- One level further down a step asks for the same trees. -/
theorem Asks.guarded (h : Asks x y) : Asks (fun opened => Walk.guarded (x opened)) (Walk.guarded y) where
  refines opened := (h.refines opened).guarded
  trees {st a st'} hrun := by
    simp only [Yields, Walk.guarded] at hrun
    split at hrun
    · next hguard =>
      obtain ⟨ts, hts⟩ := h.trees hrun
      refine ⟨ts, fun opened => ?_⟩
      rw [← hts, Yields, Walk.guarded, hguard]
      rfl
    · next g hguard =>
      split at hrun
      · cases hrun
      · next g' henter =>
        rcases hy : y { st with guard := some g' } with ⟨_ | b, st₁⟩ <;> rw [hy] at hrun
        · cases hrun
        obtain ⟨ts, hts⟩ := h.trees hy
        refine ⟨ts, fun opened => ?_⟩
        rw [← hts]
        simp only [Yields, Walk.guarded, hguard, henter]
        constructor
        · intro hx
          rcases hinside : x opened { st with guard := some g' } with ⟨_ | b', st₂⟩ <;> rw [hinside] at hx
          · cases hx
          -- what comes of it is what comes of `y`
          obtain ⟨rfl, rfl⟩ := (h.refines opened _ _ _ hinside).unique hy
          rfl
        · intro hx
          rw [hx]
          exact hrun

theorem Asks.each {f : (Expr → Bool) → α → Walk σ β} {g : α → Walk σ β}
    (hf : ∀ a, Asks (fun opened => f opened a) (g a)) (xs : List α) :
    Asks (fun opened => Walk.each (f opened) xs) (Walk.each g xs) := by
  induction xs with
  | nil => exact asks_self _
  | cons x xs ih => exact (hf x).bind fun b => ih.bind fun bs => asks_self _

theorem Asks.children {f : (Expr → Bool) → Expr → Walk σ Expr} {g : Expr → Walk σ Expr}
    (hf : ∀ c, Asks (fun opened => f opened c) (g c)) (e : Expr) :
    Asks (fun opened => Walk.children e fun c _ => f opened c) (Walk.children e fun c _ => g c) where
  refines opened := Refines.children (fun c => (hf c).refines opened) e
  trees {st out st'} h := by
    obtain ⟨n, st₁, heach, hshape, hout⟩ := yields_children.1 h
    have heachAsks := Asks.each hf e.node.visitOrder
    obtain ⟨ts, hts⟩ := heachAsks.trees heach
    refine ⟨ts, fun opened => ?_⟩
    rw [← hts, yields_children]
    constructor
    · rintro ⟨n', st₂, heach', hshape', hout'⟩
      obtain ⟨horder, rfl⟩ := (heachAsks.refines opened _ _ _ heach').unique heach
      exact horder ▸ heach'
    · exact fun heach' => ⟨n, st₁, heach', hshape, hout⟩

end Walk

namespace Expansion

open Walk

/-- A carried tree that is opened is asked for. -/
theorem asks_require (n : Node) :
    Asks (fun opened => require (n.quoted.all opened)) (require (n.quoted.all Watch.idle.unquotes)) where
  refines opened := refines_require (List.all_eq_true.2 fun _ _ => rfl)
  trees {st a st'} h := by
    obtain ⟨-, rfl⟩ := yields_require.1 h
    refine ⟨n.quoted, fun opened => ?_⟩
    rw [yields_require, List.all_eq_true]
    exact and_iff_left rfl

theorem asks_peelUnder (s : Scope) (n : Nat) (target : Expr) :
    Asks (fun opened => peelUnder (.opening opened) s n target) (peelUnder .idle s n target) := by
  induction n generalizing target with
  | zero => exact asks_self _
  | succ n ih =>
    simp only [peelUnder]
    refine Asks.guarded ?_
    split
    · exact asks_self _
    · split
      · exact asks_self _
      · split
        · exact asks_self _
        · exact (asks_self _).bind fun _ => ih _
    · exact (asks_self _).bind fun _ => (asks_require _).bind fun _ => ih _
    · exact asks_self _

theorem asks_expandUnder (n : Nat) (s : Scope) (e : Expr) :
    Asks (fun opened => expandUnder (.opening opened) asWritten n s e)
      (expandUnder .idle asWritten n s e) := by
  induction n generalizing s e with
  | zero => exact asks_self _
  | succ n ih =>
    simp only [expandUnder]
    refine Asks.guarded ?_
    split
    · exact asks_self _
    · exact (asks_self (require true)).bind fun _ => asks_self _
    · refine (asks_peelUnder s n _).bind fun found => ?_
      split
      · exact asks_throw_bind _ _ _
      · refine (Asks.each (ih s) _).bind fun _ => (asks_self _).bind fun _ => ?_
        exact (asks_self _).bind fun inner => (asks_self _).bind fun _ => ih inner _
    · exact (asks_self _).bind fun _ => ih s _
    · exact (asks_self _).bind fun _ => ih s _
    · exact (asks_self _).bind fun _ => Asks.children (ih s) e
    · exact asks_self _

end Expansion

/-- The expansion of `e` opens the carried tree `t`: it does not pass under a watch that leaves `t`
out. -/
def Opens (limit : Nat) (e : Expr) (supply : Supply) (t : Expr) : Prop :=
  ∀ opened : Expr → Bool,
    (expandWith (.opening opened) Expansion.asWritten limit e supply).isOk = true → opened t = true

/-- An expansion passes under the watch that lets just those trees be opened that it opens. -/
theorem exists_opened {limit : Nat} {e : Expr} {supply supply' : Supply} {r : Expanded}
    (h : expand limit e supply = .ok (r, supply')) :
    ∃ opened : Expr → Bool, (∀ t, opened t = true → Opens limit e supply t) ∧
      expandWith (.opening opened) Expansion.asWritten limit e supply = .ok (r, supply') := by
  classical
  rw [← expandWith_idle] at h
  obtain ⟨guard, hrun⟩ := expandWith_eq_ok_iff.1 h
  obtain ⟨ts, hts⟩ := (Expansion.asks_expandUnder limit .root e).trees hrun
  refine ⟨fun t => decide (t ∈ ts), fun t ht opened hopened => ?_, ?_⟩
  · rw [expandWith_idle] at h
    obtain ⟨guard', hrun'⟩ := expandWith_eq_ok_iff.1 (expandWith_eq_of_isOk h hopened)
    have hsame := (Expansion.expandUnder_refines _ _ _ _ _ _ _ _ hrun').unique hrun
    exact (hts opened).1 (hsame.2 ▸ hrun') t (of_decide_eq_true ht)
  · exact expandWith_eq_ok_iff.2 ⟨guard, (hts _).2 fun t ht => decide_eq_true ht⟩

/-- Every reference that is loose in the result of expanding a source is to a variable declared free
in the source, or it is a node of a tree that the source carries in a constant and that the run opens as
an invocation target, loose in that tree. -/
theorem expand_leaves_loose_declared_or_opened (source : String) (supply₀ supply supply' : Supply)
    (limit : Nat) (e : Expr) (r : Expanded) (hparse : parseTree source supply₀ = .ok (e, supply))
    (hexpand : expand limit e supply = .ok (r, supply')) :
    ∀ v a, Expr.LooseIn v a r.tree → v ∈ freeVariables source supply₀ ∨
      ∃ (k t : Expr) (ty : Ty), k.Within e ∧ k.node = .constant (.tree t) ty ∧ Opens limit e supply t ∧
        Expr.LooseIn v a t := by
  have hground := grounded_of_parseTree hparse
  obtain ⟨opened, hopens, hwatched⟩ := exists_opened hexpand
  refine (expands_of_expandWith hground.coherent hwatched).2.looseOnly ?_ ?_ (fun k hk => ?_) ?_
  · simp [Scope.root, Scope.bindings]
  · simp [Scope.root, Scope.bindings]
  · refine ⟨fun t ht hopened v a ha => ?_, fun t ht v a ha => ?_⟩
    · obtain ⟨ty, hnode⟩ := Node.mem_quoted.1 ht
      exact .inr ⟨k, t, ty, hk, hnode, hopens t hopened, ha⟩
    · exact .inl ((hground.seals k hk).captured_closed t ht v
        (Expr.mem_freeVars_of_exposed (Expr.mem_exposed_iff_looseIn.2 ⟨a, ha⟩)))
  · intro v a ha
    exact .inl (.inl (hground.closed v
      (Expr.mem_freeVars_of_exposed (Expr.mem_exposed_iff_looseIn.2 ⟨a, ha⟩))))

/-- A tree that refers to the parameter `x`, opened where `x` is gone. -/
def openedTree : String :=
  "(invoke (lambda ((h F)) (invoke h 1)) (invoke (lambda ((x Int)) (tree (lambda ((z Int)) x))) 5))"

/-- Opening a carried tree can expose a parameter of the source that is declared nowhere. -/
theorem expand_exposes_parameter_of_openedTree :
    ∃ e supply r supply', parseTree openedTree {} = .ok (e, supply) ∧
      expand 10 e supply = .ok (r, supply') ∧
      ∃ v ∈ r.tree.exposed, v ∉ freeVariables openedTree {} := by
  have hpasses : passes openedTree 10 (fun _ _ r =>
      r.tree.exposed.any fun v => !(freeVariables openedTree {}).contains v) = true := by
    decide +kernel
  obtain ⟨e, supply, r, supply', hparse, hexpand, hcheck⟩ := exists_run_of_passes hpasses
  exact ⟨e, supply, r, supply', hparse, hexpand, by simpa using hcheck⟩

/-- The loose reference in the result stands in the tree that was opened. -/
theorem expand_openedTree_leaves_loose_opened :
    ∃ e supply r supply', parseTree openedTree {} = .ok (e, supply) ∧
      expand 10 e supply = .ok (r, supply') ∧ r.tree.exposed ≠ [] ∧
      ∀ v a, Expr.LooseIn v a r.tree → v ∈ freeVariables openedTree {} ∨
        ∃ (k t : Expr) (ty : Ty), k.Within e ∧ k.node = .constant (.tree t) ty ∧
          Opens 10 e supply t ∧ Expr.LooseIn v a t := by
  have hpasses : passes openedTree 10 (fun _ _ r => !r.tree.exposed.isEmpty) = true := by decide +kernel
  obtain ⟨e, supply, r, supply', hparse, hexpand, hexposed⟩ := exists_run_of_passes hpasses
  exact ⟨e, supply, r, supply', hparse, hexpand, by simpa using hexposed,
    expand_leaves_loose_declared_or_opened openedTree {} supply supply' 10 e r hparse hexpand⟩

end ExprTree
