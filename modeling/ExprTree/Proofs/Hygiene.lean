import Mathlib.Data.List.Nodup
import ExprTree.Proofs.Escape
import ExprTree.Proofs.Freshening

/-!
# Expansion and renaming

The reference for what an expansion should give is `expandFreshly`: it differs from `expand` in that
every lambda is given new parameters before it is inlined. Expansion substitutes by identity and
renames nothing, so the two can differ (`expand_ne_expandFreshly_on_doubledLambda`). They agree up to
bound variables along every derivation that keeps identities apart, as `Watch.apart` says it
(`Expands.exists_expandFreshly`).

The proof runs both side by side. `Slot` is one entry of two corresponding scopes and `Beside`
relates two visits: the expressions are equal if the binders in both scopes are paired, and so are
the replacements of all variables that are free in the expression. The conditions of the watch are
what keeps the second part true below a lambda, in an opened replacement and at a constant.
-/

namespace ExprTree

/-- The conditions under which identities cannot be confused.
* The parameters of a lambda that is walked under are not bound in the scope if they occur in its
  body, and are not free in the replacement of a variable that is free in the lambda.
* The free variables of a replacement that is opened are not bound in the scope.
* The free variables of a constant that is given back are not bound in the scope. -/
def Watch.apart : Watch where
  walks s e := e.node.params.all fun p =>
    (e.children.all fun c => decide (p ∈ c.freeVars → p ∉ s.params)) &&
      s.bindings.all fun b => decide (b.1 ∈ e.freeVars → p ∉ b.2.freeVars)
  opens s replacement := replacement.freeVars.all fun v => decide (v ∉ s.params)
  unquotes _ := true
  passes s e := e.freeVars.all fun v => decide (v ∉ s.params)

namespace Watch

variable {s : Scope} {e : Expr}

theorem apart_walks : apart.walks s e = true ↔ ∀ p ∈ e.node.params,
    (∀ c ∈ e.children, p ∈ c.freeVars → p ∉ s.params) ∧
      ∀ b ∈ s.bindings, b.1 ∈ e.freeVars → p ∉ b.2.freeVars := by
  simp only [apart, List.all_eq_true, Bool.and_eq_true, decide_eq_true_eq]

theorem apart_opens : apart.opens s e = true ↔ ∀ v ∈ e.freeVars, v ∉ s.params := by
  simp only [apart, List.all_eq_true, decide_eq_true_eq]

theorem apart_passes : apart.passes s e = true ↔ ∀ v ∈ e.freeVars, v ∉ s.params := by
  simp only [apart, List.all_eq_true, decide_eq_true_eq]

end Watch

/-! ## Pairs of a variable and its copy -/

section Tracked

variable {base : Nat} {top : List Variable} {w w' : World base} {v u : Variable}
  {ρ ξ ω : List (Variable × Variable)} {a b : Expr}

/-- The right side of each pair is a copy of the left, which is not a top-level variable. -/
def Tracked (top : List Variable) (w : World base) (ρ : List (Variable × Variable)) : Prop :=
  ∀ p ∈ ρ, w.Copies p.1 p.2 ∧ p.1 ∉ top

theorem Tracked.mono (h : Tracked top w ρ) (hle : w ≤ w') : Tracked top w' ρ :=
  fun p hp => ⟨(h p hp).1.mono hle, (h p hp).2⟩

theorem tracked_append : Tracked top w (ξ ++ ρ) ↔ Tracked top w ξ ∧ Tracked top w ρ :=
  List.forall_mem_append

theorem Tracked.origin_of_matched (h : Tracked top w ρ) (hv : v.id < base) (hm : Matched ρ v u) :
    w.origin u = v := by
  rcases hm with hbound | ⟨-, -, rfl⟩
  · exact (h _ hbound.mem).1.origin_eq
  · exact w.origin_base v hv

/-- Pairs that do not hold the origin of a variable do not hold the variable. -/
theorem Tracked.not_mem_right (h : Tracked top w ξ) (horigin : w.origin u = v)
    (hv : v ∉ ξ.map (·.1)) : u ∉ ξ.map (·.2) := by
  intro hu
  obtain ⟨p, hp, rfl⟩ := List.mem_map.1 hu
  exact hv (List.mem_map.2 ⟨p, hp, (h p hp).1.origin_eq.symm.trans horigin⟩)

theorem Tracked.matched_top (h : Tracked top w ρ) (hv : v ∈ top) (hlt : v.id < base) :
    Matched ρ v v := by
  have hleft : v ∉ ρ.map (·.1) := by
    intro hmem
    obtain ⟨p, hp, rfl⟩ := List.mem_map.1 hmem
    exact (h p hp).2 hv
  exact .inr ⟨hleft, h.not_mem_right (w.origin_base v hlt) hleft, rfl⟩

/-- The free variables of a sealed tree are below the base. -/
theorem id_lt_of_mem_freeVars (ha : a.Everywhere (Sealed top base)) (hv : v ∈ a.freeVars) :
    v.id < base := by
  induction a using Expr.partInduction with
  | step a ih =>
    rcases Expr.mem_freeVars.1 hv with hown | ⟨-, c, hc, hv⟩
    · exact ha.here.own_lt v hown
    · have hpart : c ∈ a.parts := by
        rcases List.mem_append.1 hc with hc | hc
        · exact Expr.mem_parts_of_mem_children hc
        · exact List.mem_append_right _ (Node.mem_payload.2 (.inl hc))
      exact ih c hpart (ha.part hpart) hv

namespace AlphaEq

/-- Pairs may be added whose left sides are not free in the left tree. -/
theorem weaken (h : AlphaEq w.Copies ρ a b) (hρ : Tracked top w ρ) (hξ : Tracked top w ξ)
    (ha : a.Everywhere (Sealed top base)) (hfree : ∀ v ∈ a.freeVars, v ∉ ξ.map (·.1)) :
    AlphaEq w.Copies (ξ ++ ρ) a b := by
  refine h.change (fun _ _ hok => hok) fun v u hv hm => ?_
  have horigin := hρ.origin_of_matched (id_lt_of_mem_freeVars ha hv) hm
  exact matched_append.2 (.inr ⟨hfree v hv, hξ.not_mem_right horigin (hfree v hv), hm⟩)

/-- Pairs may be left out whose left sides are not free in the left tree. -/
theorem strengthen (h : AlphaEq w.Copies (ξ ++ ρ) a b)
    (hfree : ∀ v ∈ a.freeVars, v ∉ ξ.map (·.1)) : AlphaEq w.Copies ρ a b := by
  refine h.change (fun _ _ hok => hok) fun v u hv hm => ?_
  rcases matched_append.1 hm with hbound | ⟨-, -, hm⟩
  · exact absurd (List.mem_map_of_mem hbound.mem) (hfree v hv)
  · exact hm

/-- Pairs may change places if no free variable of the left tree is on the left of both. -/
theorem exchange (h : AlphaEq w.Copies (ξ ++ (ρ ++ ω)) a b) (hξ : Tracked top w ξ)
    (hρ : Tracked top w ρ) (ha : a.Everywhere (Sealed top base))
    (hdisjoint : ∀ v ∈ a.freeVars, v ∈ ξ.map (·.1) → v ∉ ρ.map (·.1)) :
    AlphaEq w.Copies (ρ ++ (ξ ++ ω)) a b := by
  refine h.change (fun _ _ hok => hok) fun v u hv hm => ?_
  rcases matched_append.1 hm with hbound | ⟨hvξ, huξ, hm⟩
  · have hleft : v ∉ ρ.map (·.1) := hdisjoint v hv (List.mem_map_of_mem hbound.mem)
    have horigin := hξ.origin_of_matched (id_lt_of_mem_freeVars ha hv) (.inl hbound)
    exact matched_append.2 (.inr ⟨hleft, hρ.not_mem_right horigin hleft,
      matched_append.2 (.inl hbound)⟩)
  · rcases matched_append.1 hm with hbound | ⟨hvρ, huρ, hm⟩
    · exact matched_append.2 (.inl hbound)
    · exact matched_append.2 (.inr ⟨hvρ, huρ, matched_append.2 (.inr ⟨hvξ, huξ, hm⟩)⟩)

/-- A tree over the top-level variables is equal to itself, whatever is paired. -/
theorem of_top (hρ : Tracked top w ρ) (ha : a.Everywhere (Sealed top base))
    (htop : ∀ v ∈ top, v.id < base) (hfree : ∀ v ∈ a.freeVars, v ∈ top) :
    AlphaEq w.Copies ρ a a :=
  refl (ha.imp fun _ hseal p hp => World.copies_self (hseal.params_lt p hp))
    fun v hv => hρ.matched_top (hfree v hv) (htop v (hfree v hv))

end AlphaEq

end Tracked

/-! ## Scopes side by side -/

/-- A parameter that one scope binds, its copy that another binds, and their replacements. -/
structure Slot where
  left : Variable
  right : Variable
  before : Expr
  after : Expr

namespace Slot

/-- The parameters beside their copies. -/
def pairing (δ : List Slot) : List (Variable × Variable) := δ.map fun d => (d.left, d.right)

/-- The bindings on the left. -/
def lefts (δ : List Slot) : List (Variable × Expr) := δ.map fun d => (d.left, d.before)

/-- The bindings on the right. -/
def rights (δ : List Slot) : List (Variable × Expr) := δ.map fun d => (d.right, d.after)

/-- Four lists side by side. -/
def zip (ps cs : List Variable) (rs rs' : List Expr) : List Slot :=
  ((ps.zip cs).zip (rs.zip rs')).map fun t => ⟨t.1.1, t.1.2, t.2.1, t.2.2⟩

variable {ps cs : List Variable} {rs rs' : List Expr}

theorem zip_cons (p c : Variable) (r r' : Expr) :
    zip (p :: ps) (c :: cs) (r :: rs) (r' :: rs') = ⟨p, c, r, r'⟩ :: zip ps cs rs rs' :=
  rfl

theorem maps_zip (hcs : cs.length = ps.length) (hrs : rs.length = ps.length)
    (hrs' : rs'.length = ps.length) :
    pairing (zip ps cs rs rs') = ps.zip cs ∧ lefts (zip ps cs rs rs') = ps.zip rs ∧
      rights (zip ps cs rs rs') = cs.zip rs' := by
  induction ps generalizing cs rs rs' with
  | nil =>
    obtain rfl : cs = [] := List.eq_nil_of_length_eq_zero hcs
    exact ⟨rfl, rfl, rfl⟩
  | cons p ps ih =>
    obtain ⟨c, cs, rfl⟩ := List.exists_cons_of_length_eq_add_one hcs
    obtain ⟨r, rs, rfl⟩ := List.exists_cons_of_length_eq_add_one hrs
    obtain ⟨r', rs', rfl⟩ := List.exists_cons_of_length_eq_add_one hrs'
    obtain ⟨hpairing, hlefts, hrights⟩ :=
      ih (Nat.succ.inj hcs) (Nat.succ.inj hrs) (Nat.succ.inj hrs')
    rw [zip_cons]
    exact ⟨congrArg (_ :: ·) hpairing, congrArg (_ :: ·) hlefts, congrArg (_ :: ·) hrights⟩

theorem mem_zip {d : Slot} (h : d ∈ zip ps cs rs rs') :
    (d.left, d.right) ∈ ps.zip cs ∧ (d.before, d.after) ∈ rs.zip rs' := by
  obtain ⟨t, ht, rfl⟩ := List.mem_map.1 h
  exact List.of_mem_zip ht

end Slot

/-- In a scope that binds every parameter once, every binding is found. -/
theorem Scope.lookup?_of_mem {s : Scope} {v : Variable} {e : Expr} (hnodup : s.params.Nodup)
    (h : (v, e) ∈ s.bindings) : s.lookup? v = some e := by
  cases hlookup : s.lookup? v with
  | none => exact absurd (List.mem_map_of_mem h) (Scope.lookup?_eq_none_iff.1 hlookup)
  | some e' =>
    have hpair : (v, e') = (v, e) :=
      List.inj_on_of_nodup_map hnodup (Scope.mem_bindings_of_lookup? hlookup) h rfl
    cases hpair
    rfl

open Slot

section SameScope

variable {base : Nat} {top : List Variable} {w w' : World base} {δ : List Slot} {s s' : Scope}
  {ω : List (Variable × Variable)}

/-- Two scopes with the same bindings, up to the names of the parameters. -/
structure SameScope (top : List Variable) (w : World base) (δ : List Slot) (s s' : Scope) :
    Prop where
  left_eq : s.bindings = lefts δ
  right_eq : s'.bindings = rights δ
  left_nodup : s.params.Nodup
  right_nodup : s'.params.Nodup
  tracked : Tracked top w (pairing δ)
  seals : ∀ d ∈ δ, d.before.Everywhere (Sealed top base)
  kept : ∀ d ∈ δ, w.Keeps d.after

namespace SameScope

theorem mono (h : SameScope top w δ s s') (hle : w ≤ w') : SameScope top w' δ s s' :=
  { h with tracked := h.tracked.mono hle, kept := fun d hd => (h.kept d hd).mono hle }

theorem params_eq (h : SameScope top w δ s s') : s.params = (pairing δ).map (·.1) := by
  rw [Scope.params, h.left_eq, lefts, pairing, List.map_map, List.map_map]
  rfl

theorem params_eq_right (h : SameScope top w δ s s') : s'.params = (pairing δ).map (·.2) := by
  rw [Scope.params, h.right_eq, rights, pairing, List.map_map, List.map_map]
  rfl

theorem left_mem_params (h : SameScope top w δ s s') {d : Slot} (hd : d ∈ δ) :
    d.left ∈ s.params := by
  rw [Scope.params, h.left_eq]
  exact List.mem_map_of_mem (List.mem_map_of_mem hd)

theorem not_mem_params (h : SameScope top w δ s s') {v : Variable} (hv : v ∈ top) :
    v ∉ s.params := by
  rw [h.params_eq]
  intro hmem
  obtain ⟨p, hp, rfl⟩ := List.mem_map.1 hmem
  exact (h.tracked p hp).2 hv

theorem bindings_seals (h : SameScope top w δ s s') :
    ∀ p ∈ s.bindings, p.2.Everywhere (Sealed top base) := by
  rw [h.left_eq]
  intro p hp
  obtain ⟨d, hd, rfl⟩ := List.mem_map.1 hp
  exact h.seals d hd

/-- Variables that stand for each other are found in the same slot. -/
theorem lookup_some (h : SameScope top w δ s s') {v u : Variable} {r : Expr}
    (hm : Matched (pairing δ ++ ω) v u) (hlookup : s.lookup? v = some r) :
    ∃ d ∈ δ, d.left = v ∧ d.before = r ∧ s'.lookup? u = some d.after := by
  have hmem := Scope.mem_bindings_of_lookup? hlookup
  have hparam : v ∈ (pairing δ).map (·.1) := h.params_eq ▸ List.mem_map_of_mem hmem
  rcases matched_append.1 hm with hbound | ⟨hv, -, -⟩
  · obtain ⟨d, hd, hpair⟩ := List.mem_map.1 hbound.mem
    obtain ⟨rfl, rfl⟩ := Prod.mk.inj hpair
    have hleft : (d.left, d.before) ∈ s.bindings := h.left_eq ▸ List.mem_map_of_mem hd
    have hright : (d.right, d.after) ∈ s'.bindings := h.right_eq ▸ List.mem_map_of_mem hd
    have hfound := Scope.lookup?_of_mem h.left_nodup hleft
    exact ⟨d, hd, rfl, Option.some.inj (hfound.symm.trans hlookup),
      Scope.lookup?_of_mem h.right_nodup hright⟩
  · exact absurd hparam hv

theorem lookup_none (h : SameScope top w δ s s') {v u : Variable}
    (hm : Matched (pairing δ ++ ω) v u) (hlookup : s.lookup? v = none) :
    s'.lookup? u = none ∧ Matched ω v u := by
  have hv : v ∉ (pairing δ).map (·.1) := h.params_eq ▸ Scope.lookup?_eq_none_iff.1 hlookup
  rcases matched_append.1 hm with hbound | ⟨-, hu, hm⟩
  · exact absurd (List.mem_map_of_mem hbound.mem) hv
  · exact ⟨Scope.lookup?_eq_none_iff.2 (h.params_eq_right ▸ hu), hm⟩

/-- If the left scope is extended by parameters, the right one can be extended by new copies. -/
theorem extend (h : SameScope top w δ s s') (hle : w ≤ w') {inner : Scope} {ps cs : List Variable}
    {rs rs' : List Expr} (hextend : s.extend (ps.zip rs) = .ok inner)
    (hrs : rs.length = ps.length) (hrs' : rs'.length = ps.length)
    (hcopies : Aligned w'.Copies ps cs) (hnodup : cs.Nodup) (hnew : ∀ c ∈ cs, w.next ≤ c.id)
    (hinner : ∀ p ∈ ps, p ∉ top) (hseals : ∀ r ∈ rs, r.Everywhere (Sealed top base))
    (hkept : ∀ r ∈ rs', w'.Keeps r) :
    ∃ inner', s'.extend (cs.zip rs') = .ok inner' ∧
      SameScope top w' (Slot.zip ps cs rs rs' ++ δ) inner inner' := by
  have hlength : rs'.length = cs.length := hrs'.trans hcopies.length_eq.symm
  obtain ⟨hpairing, hlefts, hrights⟩ := maps_zip hcopies.length_eq hrs hrs'
  obtain ⟨rfl, hdistinct, hfree⟩ := Scope.extend_eq_ok_iff.1 hextend
  have hfresh : ∀ c ∈ cs, c ∉ s'.params := by
    intro c hc hmem
    rw [h.params_eq_right] at hmem
    obtain ⟨p, hp, rfl⟩ := List.mem_map.1 hmem
    exact absurd (h.tracked p hp).1.lt_next (Nat.not_lt.2 (hnew _ hc))
  have hextend' : s'.extend (cs.zip rs') = .ok ⟨cs.zip rs' :: s'.frames⟩ := by
    refine Scope.extend_eq_ok_iff.2 ⟨rfl, ?_, fun p hp => hfresh p.1 (List.of_mem_zip hp).1⟩
    rwa [map_fst_zip_of_length hlength]
  refine ⟨_, hextend', ?_⟩
  have hleft := Scope.bindings_of_extend hextend
  have hright := Scope.bindings_of_extend hextend'
  refine ⟨?_, ?_, ?_, ?_, ?_, ?_, ?_⟩
  · rw [hleft, h.left_eq, ← hlefts, lefts, lefts, lefts, List.map_append]
  · rw [hright, h.right_eq, ← hrights, rights, rights, rights, List.map_append]
  · rw [Scope.params, hleft, List.map_append]
    -- `Scope.extend` has checked the left side already
    refine List.nodup_append.2 ⟨hdistinct, h.left_nodup, ?_⟩
    rintro x hx y hy rfl
    obtain ⟨p, hp, rfl⟩ := List.mem_map.1 hx
    exact hfree p hp hy
  · rw [Scope.params, hright, List.map_append, map_fst_zip_of_length hlength]
    -- on the right, the copies are newer than everything that is bound
    refine List.nodup_append.2 ⟨hnodup, h.right_nodup, ?_⟩
    rintro x hx y hy rfl
    exact hfresh x hx hy
  · rw [pairing, List.map_append]
    refine tracked_append.2 ⟨fun p hp => ?_, h.tracked.mono hle⟩
    have hp' : p ∈ ps.zip cs := hpairing ▸ hp
    exact ⟨hcopies.rel p hp', hinner _ (List.of_mem_zip hp').1⟩
  · intro d hd
    rcases List.mem_append.1 hd with hd | hd
    · exact hseals _ (List.of_mem_zip (mem_zip hd).2).1
    · exact h.seals d hd
  · intro d hd
    rcases List.mem_append.1 hd with hd | hd
    · exact hkept _ (List.of_mem_zip (mem_zip hd).2).2
    · exact (h.kept d hd).mono hle

end SameScope

end SameScope

/-! ## Visits side by side -/

section Beside

variable {base : Nat} {top : List Variable} {w w' : World base} {δ : List Slot} {s s' : Scope}
  {ω : List (Variable × Variable)} {e e' : Expr}

/-- Two expressions that are visited in two scopes, below the pairs of binders `ω`. -/
structure Beside (top : List Variable) (w : World base) (δ : List Slot)
    (ω : List (Variable × Variable)) (s s' : Scope) (e e' : Expr) : Prop where
  scopes : SameScope top w δ s s'
  tracked : Tracked top w ω
  seals : e.Everywhere (Sealed top base)
  kept : w.Keeps e'
  replaced : ∀ d ∈ δ, d.left ∈ e.freeVars → AlphaEq w.Copies ω d.before d.after
  eq : AlphaEq w.Copies (pairing δ ++ ω) e e'

namespace Beside

theorem mono (h : Beside top w δ ω s s' e e') (hle : w ≤ w') : Beside top w' δ ω s s' e e' where
  scopes := h.scopes.mono hle
  tracked := h.tracked.mono hle
  seals := h.seals
  kept := h.kept.mono hle
  replaced d hd hfree := (h.replaced d hd hfree).later hle
  eq := h.eq.later hle

theorem action (h : Beside top w δ ω s s' e e') {action : Action} (haction : e.node.action = action) :
    ActionEq (AlphaEq w.Copies (pairing δ ++ ω)) (Matched (pairing δ ++ ω)) action e'.node.action :=
  haction ▸ h.eq.action

theorem layer (h : Beside top w δ ω s s' e e') {layer : Layer} (hlayer : e.node.layer = layer) :
    LayerEq w.Copies (pairing δ ++ ω) (fun t => ∃ o : Expr, o.Within e ∧ t ∈ o.node.captured) layer
      e'.node.layer :=
  hlayer ▸ h.eq.layer

theorem tracked_all (h : Beside top w δ ω s s' e e') : Tracked top w (pairing δ ++ ω) :=
  tracked_append.2 ⟨h.scopes.tracked, h.tracked⟩

/-- Parts with no other free variables are beside each other as well. -/
theorem part (h : Beside top w δ ω s s' e e') {c c' : Expr} (hc : c.Within e) (hc' : c'.Within e')
    (hfree : ∀ v ∈ c.freeVars, v ∈ s.params → v ∈ e.freeVars)
    (heq : AlphaEq w.Copies (pairing δ ++ ω) c c') : Beside top w δ ω s s' c c' where
  scopes := h.scopes
  tracked := h.tracked
  seals := h.seals.within hc
  kept := h.kept.within hc'
  replaced d hd hv := h.replaced d hd (hfree _ hv (h.scopes.left_mem_params hd))
  eq := heq

theorem child (h : Beside top w δ ω s s' e e') {c c' : Expr} (hparams : e.node.params = [])
    (hc : c ∈ e.children) (hc' : c' ∈ e'.children)
    (heq : AlphaEq w.Copies (pairing δ ++ ω) c c') : Beside top w δ ω s s' c c' := by
  refine h.part (.part (Expr.mem_parts_of_mem_children hc) (.here c))
    (.part (Expr.mem_parts_of_mem_children hc') (.here c')) (fun v hv _ => ?_) heq
  exact Expr.mem_freeVars_of_child hc hv (by simp [hparams])

/-- A captured tree is beside itself. -/
theorem captured (h : Beside top w δ ω s s' e e') (htop : ∀ v ∈ top, v.id < base) {o tree : Expr}
    (ho : o.Within e) (htree : tree ∈ o.node.captured) (htree' : tree.Within e') :
    Beside top w δ ω s s' tree tree := by
  have hwithin := Expr.within_of_captured ho htree
  have hclosed := (h.seals o ho).captured_closed tree htree
  refine h.part hwithin htree' (fun v hv hmem => ?_)
    (.of_top h.tracked_all (h.seals.within hwithin) htop hclosed)
  exact absurd hmem (h.scopes.not_mem_params (hclosed v hv))

/-- The replacements of a variable on both sides are beside each other where they may be opened. -/
theorem opened (h : Beside top w δ ω s s' e e') {d : Slot} (hd : d ∈ δ)
    (hfree : d.left ∈ e.freeVars) (hopens : ∀ v ∈ d.before.freeVars, v ∉ s.params) :
    Beside top w δ ω s s' d.before d.after where
  scopes := h.scopes
  tracked := h.tracked
  seals := h.scopes.seals d hd
  kept := h.scopes.kept d hd
  replaced _ hc hv := absurd (h.scopes.left_mem_params hc) (hopens _ hv)
  eq := (h.replaced d hd hfree).weaken h.tracked h.scopes.tracked (h.scopes.seals d hd)
    fun v hv => h.scopes.params_eq ▸ hopens v hv

end Beside

/-- What is free in the inner target of a layer is free in the target, top-level variables apart. -/
theorem Expr.mem_freeVars_of_layer {count : Stats → Stats} {inner : Expr} {v : Variable}
    (hlayer : e.node.layer = .around count inner) (he : e.Everywhere (Sealed top base))
    (hv : v ∈ inner.freeVars) (htop : v ∉ top) : v ∈ e.freeVars := by
  obtain ⟨hparams, hchild | hquoted | ⟨o, ho, htree⟩⟩ := origin_of_layer hlayer
  · exact mem_freeVars_of_child hchild hv (by simp [hparams])
  · refine mem_freeVars.2 (.inr ⟨by simp [hparams], _, ?_, hv⟩)
    exact List.mem_append_right _ hquoted
  · exact absurd ((he o ho).captured_closed _ htree v hv) htop

/-- What is free in the lambda that a target stands for is a parameter or free in the target, if the
scope binds it. -/
theorem Peels.freeVars {n : Nat} {target body : Expr} {params : List Variable}
    (h : Peels .apart s n target params body) (htop : ∀ v ∈ top, v ∉ s.params)
    (hscope : ∀ p ∈ s.bindings, p.2.Everywhere (Sealed top base))
    (htarget : target.Everywhere (Sealed top base)) :
    ∀ v ∈ body.freeVars, v ∈ s.params → v ∈ params ∨ v ∈ target.freeVars := by
  induction h with
  | @lambda n target body params hlayer =>
    intro v hv _
    obtain ⟨ty, hnode⟩ := Expr.node_of_layer_lambda hlayer
    refine or_iff_not_imp_left.2 fun hparam => ?_
    refine Expr.mem_freeVars_of_child (Expr.mem_children_of_lambda hnode) hv ?_
    rw [hnode]
    exact hparam
  | var _ hlookup _ hopens _ ih =>
    intro v hv hbound
    have hreplacement := hscope _ (Scope.mem_bindings_of_lookup? hlookup)
    refine (ih hreplacement v hv hbound).imp_right fun hfree => ?_
    exact absurd hbound (Watch.apart_opens.1 hopens v hfree)
  | around hlayer _ _ ih =>
    intro v hv hbound
    refine (ih (htarget.within (Expr.within_of_layer hlayer)) v hv hbound).imp_right fun hfree => ?_
    exact Expr.mem_freeVars_of_layer hlayer htarget hfree fun hmem => htop v hmem hbound

/-- Where the parameters extend the scope, they are none of the variables that the scope binds, so what
the scope binds and is free in the lambda is free in the target. -/
theorem Peels.freeVars_of_extend {n : Nat} {target body : Expr} {params : List Variable}
    {replacements : List Expr} {inner : Scope} (h : Peels .apart s n target params body)
    (htop : ∀ v ∈ top, v ∉ s.params) (hscope : ∀ p ∈ s.bindings, p.2.Everywhere (Sealed top base))
    (htarget : target.Everywhere (Sealed top base)) (hlength : replacements.length = params.length)
    (hextend : s.extend (params.zip replacements) = .ok inner) :
    ∀ v ∈ body.freeVars, v ∈ s.params → v ∈ target.freeVars := by
  intro v hv hbound
  refine (h.freeVars htop hscope htarget v hv hbound).resolve_left fun hparam => ?_
  obtain ⟨-, -, hunbound⟩ := Scope.extend_eq_ok_iff.1 hextend
  rw [← map_fst_zip_of_length hlength] at hparam
  obtain ⟨p, hp, rfl⟩ := List.mem_map.1 hparam
  exact hunbound p hp hbound

theorem Expansion.succeeds_require {st : WalkState Stats} (hst : st.supply.next = w.next) :
    Succeeds w st (require true) fun w' _ => w' = w :=
  ⟨(), st, w, yields_require.2 ⟨rfl, rfl⟩, rfl, w.le_refl, hst, rfl⟩

/-- If a target stands for a lambda, its counterpart stands for an equal one. -/
theorem Peels.succeeds (htop : ∀ v ∈ top, v.id < base) {n : Nat} {target target' body : Expr}
    {params : List Variable} {st : WalkState Stats} (h : Peels .apart s n target params body)
    (hb : Beside top w δ ω s s' target target') (hst : st.supply.next = w.next)
    (hroom : Walk.Room n st) :
    Succeeds w st (Expansion.peelUnder .idle s' n target') fun w' found => w' = w ∧
      Aligned w.Copies params found.1 ∧ w.Keeps found.2 ∧
      AlphaEq w.Copies (params.zip found.1 ++ (pairing δ ++ ω)) body found.2 := by
  induction h generalizing target' st with
  | lambda hlayer =>
    have hlayers := hb.layer hlayer
    rw [Expansion.peelUnder]
    refine Succeeds.guarded hst hroom fun st₀ hst₀ _ => ?_
    generalize hlayer' : target'.node.layer = layer' at hlayers
    cases hlayers with
    | @lambda ps qs c d hlength hpairs hbody =>
      obtain ⟨ty, hnode⟩ := Expr.node_of_layer_lambda hlayer'
      have hkept := hb.kept.child (Expr.mem_children_of_lambda hnode)
      exact Succeeds.pure hst₀ ⟨rfl, ⟨hlength, hpairs⟩, hkept, hbody⟩
  | @var n target replacement body params v hlayer hlookup hkind hopens _ ih =>
    have hlayers := hb.layer hlayer
    rw [Expansion.peelUnder]
    refine Succeeds.guarded hst hroom fun st₀ hst₀ hroom₀ => ?_
    generalize hlayer' : target'.node.layer = layer' at hlayers
    cases hlayers with
    | @var _ u hm =>
      obtain ⟨d, hd, rfl, rfl, hlookup'⟩ := hb.scopes.lookup_some hm hlookup
      have hfree : d.left ∈ target.freeVars :=
        Expr.mem_freeVars.2 (.inl (Node.mem_own.2 (Expr.node_of_layer_var hlayer)))
      -- an opened replacement is read in a larger scope than it was made in
      have hopened := hb.opened hd hfree (Watch.apart_opens.1 hopens)
      simp only [hlookup']
      split
      · next hnode =>
        rw [← hopened.eq.kind_eq, Expr.kind, hnode] at hkind
        exact absurd rfl hkind
      · refine (Expansion.succeeds_require hst₀).bind ?_
        rintro _ st₁ _ - hguard₁ hst₁ rfl
        exact ih hopened hst₁ (hroom₀.of_guard hguard₁)
  | @around n target inner body params count hlayer _ _ ih =>
    have hlayers := hb.layer hlayer
    rw [Expansion.peelUnder]
    refine Succeeds.guarded hst hroom fun st₀ hst₀ hroom₀ => ?_
    generalize hlayer' : target'.node.layer = layer' at hlayers
    simp only [Expansion.require_unquotes_idle]
    -- both kinds of inner targets are peeled in the same way
    have hcounted : ∀ {inner'}, Beside top w δ ω s s' inner inner' → Succeeds w st₀
        (Walk.modifyOwn count >>= fun _ => Expansion.peelUnder .idle s' n inner') fun w' found =>
          w' = w ∧ Aligned w.Copies params found.1 ∧ w.Keeps found.2 ∧
          AlphaEq w.Copies (params.zip found.1 ++ (pairing δ ++ ω)) body found.2 := by
      intro inner' hinner
      refine (Succeeds.modifyOwn hst₀).bind ?_
      rintro _ st₁ _ - hguard₁ hst₁ rfl
      exact ih hinner hst₁ (hroom₀.of_guard hguard₁)
    cases hlayers with
    | @inner _ _ u heq =>
      refine hcounted (hb.part (Expr.within_of_layer hlayer) (Expr.within_of_layer hlayer') ?_ heq)
      intro v hv hbound
      refine Expr.mem_freeVars_of_layer hlayer hb.seals hv fun hmem => ?_
      exact hb.scopes.not_mem_params hmem hbound
    | captured _ hcaptured =>
      obtain ⟨o, ho, htree⟩ := hcaptured
      exact hcounted (hb.captured htop ho htree (Expr.within_of_layer hlayer'))

namespace Beside

/-- The bodies of two lambdas are beside each other, below one more pair of binders for each
parameter. -/
theorem under (h : Beside top w δ ω s s' e e') {ps qs : List Variable} {c d : Expr} {ty : Ty}
    (hnode : e.node = .lambda ps c ty) (hnode' : e'.node = .lambda qs d ty)
    (hcopies : Aligned w.Copies ps qs)
    (heq : AlphaEq w.Copies (ps.zip qs ++ (pairing δ ++ ω)) c d)
    (hwalks : Watch.apart.walks s e = true) :
    Beside top w δ (ps.zip qs ++ ω) s s' c d := by
  have hc := Expr.mem_children_of_lambda hnode
  have hd := Expr.mem_children_of_lambda hnode'
  have hparams : e.node.params = ps := by rw [hnode]; rfl
  have hleft : (ps.zip qs).map (·.1) = ps := map_fst_zip_of_length hcopies.length_eq
  have hapart := Watch.apart_walks.1 hwalks
  rw [hparams] at hapart
  have hpairs : Tracked top w (ps.zip qs) := by
    intro p hp
    refine ⟨hcopies.rel p hp, h.seals.here.params_inner _ ?_⟩
    rw [hparams]
    exact (List.of_mem_zip hp).1
  refine ⟨h.scopes, tracked_append.2 ⟨hpairs, h.tracked⟩, h.seals.child hc, h.kept.child hd, ?_, ?_⟩
  · intro slot hslot hfree
    have hbound := h.scopes.left_mem_params hslot
    have hbinding : (slot.left, slot.before) ∈ s.bindings := by
      rw [h.scopes.left_eq]
      exact List.mem_map_of_mem hslot
    have hfree' : slot.left ∈ e.freeVars := by
      refine Expr.mem_freeVars_of_child hc hfree fun hmem => ?_
      rw [hparams] at hmem
      exact (hapart _ hmem).1 c hc hfree hbound
    -- the replacement goes under the lambda, and must not be captured there
    refine (h.replaced slot hslot hfree').weaken h.tracked hpairs (h.scopes.seals slot hslot) ?_
    intro v hv hmem
    rw [hleft] at hmem
    exact (hapart v hmem).2 _ hbinding hfree' hv
  -- the scope now stands inside the lambda, and must not bind its parameters
  · refine heq.exchange hpairs h.scopes.tracked (h.seals.child hc) fun v hv hmem => ?_
    rw [hleft] at hmem
    rw [← h.scopes.params_eq]
    exact (hapart v hmem).1 c hc hv

/-- The body of an inlined lambda is beside its counterpart in the extended scopes. -/
theorem inlined (h : Beside top w δ ω s s' e e') (hle : w ≤ w') {inner inner' : Scope}
    {ps cs : List Variable} {rs rs' : List Expr} {c d : Expr}
    (hscopes : SameScope top w' (Slot.zip ps cs rs rs' ++ δ) inner inner')
    (hcs : cs.length = ps.length) (hrs : rs.length = ps.length)
    (hpairs : Aligned (AlphaEq w'.Copies ω) rs rs') (hc : c.Everywhere (Sealed top base))
    (hd : w'.Keeps d) (heq : AlphaEq w'.Copies (ps.zip cs ++ (pairing δ ++ ω)) c d)
    (hfree : ∀ v ∈ c.freeVars, v ∈ s.params → v ∈ e.freeVars) :
    Beside top w' (Slot.zip ps cs rs rs' ++ δ) ω inner inner' c d := by
  obtain ⟨hpairing, -, -⟩ := maps_zip hcs hrs (hpairs.length_eq.trans hrs)
  refine ⟨hscopes, h.tracked.mono hle, hc, hd, ?_, ?_⟩
  · intro slot hslot hleft
    rcases List.mem_append.1 hslot with hslot | hslot
    · exact hpairs.rel _ (mem_zip hslot).2
    · have hbound := h.scopes.left_mem_params hslot
      exact (h.replaced slot hslot (hfree _ hleft hbound)).later hle
  · rw [← hpairing, ← List.append_assoc, pairing, pairing, ← List.map_append] at heq
    exact heq

end Beside

/-- Wherever a counterpart of `e` is visited, the visit succeeds with a counterpart of `out`. -/
def Follows (base : Nat) (top : List Variable) (n : Nat) (s : Scope) (e out : Expr) : Prop :=
  ∀ ⦃w : World base⦄ ⦃st : WalkState Stats⦄ ⦃δ ω s' e'⦄, Beside top w δ ω s s' e e' →
    st.supply.next = w.next → Walk.Room n st →
    Succeeds w st (Expansion.expandUnder .idle Expansion.freshly n s' e') fun w' out' =>
      w'.Keeps out' ∧ AlphaEq w'.Copies ω out out'

/-- Expressions in a row give counterparts in a row. -/
theorem Follows.each {n : Nat} {xs ys xs' : List Expr} {st : WalkState Stats}
    (h : ∀ p ∈ xs.zip ys, Follows base top n s p.1 p.2) (hlength : ys.length = xs.length)
    (hbeside : Aligned (Beside top w δ ω s s') xs xs') (hst : st.supply.next = w.next)
    (hroom : Walk.Room n st) :
    Succeeds w st (Walk.each (Expansion.expandUnder .idle Expansion.freshly n s') xs')
      fun w' ys' => Aligned (fun y y' => w'.Keeps y' ∧ AlphaEq w'.Copies ω y y') ys ys' := by
  -- an item on the right stands beside an item on the left and its result
  have hbeside' : Aligned (fun p x' => Beside top w δ ω s s' p.1 x') (xs.zip ys) xs' := by
    rw [← map_fst_zip_of_length hlength] at hbeside
    exact aligned_map.1 hbeside
  refine (Succeeds.each
    (Q := fun w' (p : Expr × Expr) y' => w'.Keeps y' ∧ AlphaEq w'.Copies ω p.2 y')
    (fun hy hle => ⟨hy.1.mono hle, hy.2.later hle⟩) hbeside'.length_eq hst ?_).imp ?_
  · intro p hp w₁ st₁ hle₁ hguard₁ hst₁
    exact h p.1 (List.of_mem_zip hp).1 ((hbeside'.rel p hp).mono hle₁) hst₁ (hroom.of_guard hguard₁)
  · intro w₁ ys' _ hall
    rw [← map_snd_zip_of_length hlength]
    exact aligned_map.2 hall

/-- The children of two expressions give counterparts, below whatever pairs of binders. -/
theorem Follows.children {n : Nat} {out : Expr} {st : WalkState Stats}
    (h : ∀ p ∈ e.children.zip out.children, Follows base top n s p.1 p.2)
    (hlength : out.children.length = e.children.length) (hkind : e'.kind ≠ .invocation)
    (hkept : w.Keeps e') (hbeside : Aligned (Beside top w δ ω s s') e.children e'.children)
    (hst : st.supply.next = w.next) (hroom : Walk.Room n st) :
    Succeeds w st (Walk.children e' fun c _ =>
        Expansion.expandUnder .idle Expansion.freshly n s' c) fun w' out' =>
      w'.Keeps out' ∧ out'.node.shape = e'.node.shape ∧
        Aligned (AlphaEq w'.Copies ω) out.children out'.children := by
  have horder : e'.node.visitOrder = e'.children := Node.visitOrder_eq_children hkind
  have hvisits := Follows.each h hlength hbeside hst hroom
  rw [← horder] at hvisits
  refine (Succeeds.children (Q := fun w' cs => Aligned (AlphaEq w'.Copies ω) out.children cs)
    (fun hall hle => hall.imp fun _ _ _ _ heq => heq.later hle) hkept (hvisits.imp ?_)).imp ?_
  · intro w₁ ys _ hall
    refine ⟨fun y hy => ?_, hall.imp fun _ _ _ _ hpair => hpair.2⟩
    obtain ⟨x, -, hpair⟩ := exists_mem_zip hall.length_eq hy
    exact (hall.rel _ hpair).1
  · rintro w₁ out' - ⟨hkept', hshape, hall⟩
    have hkind' : out'.node.kind ≠ .invocation := Node.kind_eq_of_shape hshape ▸ hkind
    rw [Node.visitOrder_eq_children hkind'] at hall
    exact ⟨hkept', hshape, hall⟩

namespace Follows

variable {n : Nat} {out : Expr}

theorem found {v : Variable} {replacement : Expr} (haction : e.node.action = .look v)
    (hlookup : s.lookup? v = some replacement) : Follows base top (n + 1) s e replacement := by
  intro w st δ ω s' e' hb hst hroom
  have hactions := hb.action haction
  rw [Expansion.expandUnder]
  refine Succeeds.guarded hst hroom fun st₀ hst₀ _ => ?_
  generalize e'.node.action = action' at hactions
  cases hactions with
  | look hm =>
    obtain ⟨d, hd, rfl, rfl, hlookup'⟩ := hb.scopes.lookup_some hm hlookup
    have hfree : d.left ∈ e.freeVars :=
      Expr.mem_freeVars.2 (.inl (Node.mem_own.2 (Expr.node_of_look haction)))
    simp only [hlookup', Option.getD_some]
    exact Succeeds.pure hst₀ ⟨hb.scopes.kept d hd, hb.replaced d hd hfree⟩

theorem unbound {v : Variable} (haction : e.node.action = .look v) (hlookup : s.lookup? v = none) :
    Follows base top (n + 1) s e e := by
  intro w st δ ω s' e' hb hst hroom
  have hactions := hb.action haction
  rw [Expansion.expandUnder]
  refine Succeeds.guarded hst hroom fun st₀ hst₀ _ => ?_
  generalize haction' : e'.node.action = action' at hactions
  cases hactions with
  | look hm =>
    obtain ⟨hlookup', hm'⟩ := hb.scopes.lookup_none hm hlookup
    simp only [hlookup', Option.getD_none]
    exact Succeeds.pure hst₀
      ⟨hb.kept, .variable (Expr.node_of_look haction) (Expr.node_of_look haction') hm'⟩

theorem pass (haction : e.node.action = .pass) (hpasses : Watch.apart.passes s e = true) :
    Follows base top (n + 1) s e e := by
  intro w st δ ω s' e' hb hst hroom
  have hactions := hb.action haction
  rw [Expansion.expandUnder]
  refine Succeeds.guarded hst hroom fun st₀ hst₀ _ => ?_
  generalize e'.node.action = action' at hactions
  cases hactions with
  | pass =>
    refine (Expansion.succeeds_require hst₀).bind ?_
    rintro _ st₁ _ - - hst₁ rfl
    refine Succeeds.pure hst₁ ⟨hb.kept, hb.eq.strengthen fun v hv => ?_⟩
    rw [← hb.scopes.params_eq]
    exact Watch.apart_passes.1 hpasses v hv

theorem capture (htop : ∀ v ∈ top, v.id < base) {compiled : Bool} {tree : Expr}
    (haction : e.node.action = .capture compiled tree) (h : Follows base top n s tree out) :
    Follows base top (n + 1) s e out := by
  intro w st δ ω s' e' hb hst hroom
  have hactions := hb.action haction
  rw [Expansion.expandUnder]
  refine Succeeds.guarded hst hroom fun st₀ hst₀ hroom₀ => ?_
  generalize haction' : e'.node.action = action' at hactions
  cases hactions with
  | capture =>
    obtain ⟨c, hc, o, ho, htree⟩ := Expr.captured_of_capture haction
    have ho := ho.trans (Expr.within_of_mem_children hc)
    refine (Succeeds.modifyOwn hst₀).bind ?_
    rintro _ st₁ _ - hguard₁ hst₁ rfl
    exact h (hb.captured htop ho htree (Expr.within_of_capture haction')) hst₁
      (hroom₀.of_guard hguard₁)

theorem unwrap {query : Expr} (haction : e.node.action = .unwrap query)
    (h : Follows base top n s query out) : Follows base top (n + 1) s e out := by
  intro w st δ ω s' e' hb hst hroom
  have hactions := hb.action haction
  rw [Expansion.expandUnder]
  refine Succeeds.guarded hst hroom fun st₀ hst₀ hroom₀ => ?_
  generalize haction' : e'.node.action = action' at hactions
  cases hactions with
  | unwrap heq =>
    refine (Succeeds.modifyOwn hst₀).bind ?_
    rintro _ st₁ _ - hguard₁ hst₁ rfl
    have hquery := hb.child (Expr.params_of_action (by simp [haction]))
      (Expr.mem_children_of_unwrap haction) (Expr.mem_children_of_unwrap haction') heq
    exact h hquery hst₁ (hroom₀.of_guard hguard₁)

theorem inline (htop : ∀ v ∈ top, v.id < base) {inner : Scope} {target body : Expr}
    {args replacements : List Expr} {params : List Variable}
    (haction : e.node.action = .inline target args) (hpeels : Peels .apart s n target params body)
    (harity : params.length = args.length) (hlength : replacements.length = args.length)
    (hargs : ∀ p ∈ args.zip replacements, Expands .apart n s p.1 p.2)
    (hextend : s.extend (params.zip replacements) = .ok inner)
    (ihargs : ∀ p ∈ args.zip replacements, Follows base top n s p.1 p.2)
    (ihbody : Follows base top n inner body out) : Follows base top (n + 1) s e out := by
  intro w st δ ω s' e' hb hst hroom
  have hactions := hb.action haction
  rw [Expansion.expandUnder]
  refine Succeeds.guarded hst hroom fun st₀ hst₀ hroom₀ => ?_
  generalize haction' : e'.node.action = action' at hactions
  cases hactions with
  | @inline _ target' _ args' htarget hargs' =>
    have hbinds : e.node.params = [] := Expr.params_of_action (by simp [haction])
    obtain ⟨hchild, hchildren⟩ := Expr.mem_children_of_inline haction
    obtain ⟨hchild', hchildren'⟩ := Expr.mem_children_of_inline haction'
    have hbTarget := hb.child hbinds hchild hchild' htarget
    have hbArgs : Aligned (Beside top w δ ω s s') args args' :=
      hargs'.imp fun a ha a' ha' heq => hb.child hbinds (hchildren a ha) (hchildren' a' ha') heq
    have hscope := hb.scopes.bindings_seals
    have hrs : replacements.length = params.length := hlength.trans harity.symm
    have hinner : ∀ p ∈ params, p ∉ top := by
      obtain ⟨lambda, ty, hlambda, hseals⟩ := hpeels.everywhere hscope hbTarget.seals
      exact fun p hp => hseals.here.params_inner p (by rwa [hlambda])
    -- what the outer scope replaces in the body, it replaces in the target
    have hfree : ∀ v ∈ body.freeVars, v ∈ s.params → v ∈ e.freeVars := by
      intro v hv hbound
      have hfree := hpeels.freeVars_of_extend (fun _ => hb.scopes.not_mem_params) hscope hbTarget.seals
        hrs hextend v hv hbound
      exact Expr.mem_freeVars_of_child hchild hfree (by simp [hbinds])
    have hreplacements : ∀ r ∈ replacements, r.Everywhere (Sealed top base) := by
      intro r hr
      obtain ⟨a, ha, hpair⟩ := exists_mem_zip hlength hr
      exact (hargs _ hpair).everywhere (fun _ _ => Sealed.of_shape) hscope
        (hb.seals.child (hchildren a ha))
    -- from here on the right run is followed step by step
    refine (hpeels.succeeds htop hbTarget hst₀ hroom₀).bind ?_
    rintro ⟨qs, d⟩ st₁ _ - hguard₁ hst₁ ⟨rfl, hcopies, hkept, heq⟩
    simp only at hcopies hkept heq ⊢
    rw [if_neg (not_not.2 (hcopies.length_eq.trans (harity.trans hargs'.length_eq.symm)))]
    have hroom₁ := hroom₀.of_guard hguard₁
    refine (Follows.each ihargs hlength hbArgs hst₁ hroom₁).bind ?_
    rintro rs' st₂ w₂ hle₂ hguard₂ hst₂ hpairs
    refine (Expansion.succeeds_freshly hst₂ (hkept.mono hle₂)
      (hcopies.imp fun _ _ _ _ hcopy => hcopy.mono hle₂) (heq.later hle₂)).bind ?_
    rintro ⟨cs, d'⟩ st₃ w₃ hle₃ hguard₃ hst₃ ⟨hnodup, hnew, hcopies', hkept', heq'⟩
    simp only at hnodup hnew hcopies' hkept' heq' ⊢
    have hpairs' : Aligned (AlphaEq w₃.Copies ω) replacements rs' :=
      hpairs.imp fun _ _ _ _ hpair => hpair.2.later hle₃
    have hkept₃ : ∀ r' ∈ rs', w₃.Keeps r' := by
      intro r' hr'
      obtain ⟨r, -, hpair⟩ := exists_mem_zip hpairs.length_eq hr'
      exact (hpairs.rel _ hpair).1.mono hle₃
    obtain ⟨inner', hextend', hscopes⟩ := (hb.scopes.mono hle₂).extend hle₃ hextend hrs
      (hpairs.length_eq.trans hrs) hcopies' hnodup hnew hinner hreplacements hkept₃
    refine (Succeeds.liftM hst₃ hextend').bind ?_
    rintro _ st₄ _ - hguard₄ hst₄ ⟨rfl, rfl⟩
    refine (Succeeds.modifyOwn hst₄).bind ?_
    rintro _ st₅ _ - hguard₅ hst₅ rfl
    have hbBody := hb.inlined (World.le_trans hle₂ hle₃) hscopes hcopies'.length_eq hrs hpairs'
      (hpeels.everywhere_body hscope hbTarget.seals) hkept' heq' hfree
    refine ihbody hbBody hst₅ (hroom₁.of_guard ?_)
    rw [hguard₅, hguard₄, hguard₃, hguard₂]

theorem descend (haction : e.node.action = .descend) (hwalks : Watch.apart.walks s e = true)
    (hshape : out.node.shape = e.node.shape)
    (hlength : out.children.length = e.children.length)
    (h : ∀ p ∈ e.children.zip out.children, Follows base top n s p.1 p.2) :
    Follows base top (n + 1) s e out := by
  intro w st δ ω s' e' hb hst hroom
  have hactions := hb.action haction
  rw [Expansion.expandUnder]
  refine Succeeds.guarded hst hroom fun st₀ hst₀ hroom₀ => ?_
  generalize haction' : e'.node.action = action' at hactions
  cases hactions with
  | descend =>
    have hkind := Expr.kind_of_descend haction'
    refine (Expansion.succeeds_require hst₀).bind ?_
    rintro _ st₁ w₁ - hguard₁ hst₁ rfl
    have hroom₁ := hroom₀.of_guard hguard₁
    cases hb.eq with
    | «variable» hnode _ _ =>
      rw [hnode] at haction
      cases haction
    | quoted hnode _ _ =>
      rw [hnode] at haction
      cases haction
    | @lambda _ _ _ c d ps qs ty hnode hnode' hqs hpairs heq =>
      -- the parameters stay on both sides, so they are paired below
      have hunder := hb.under hnode hnode' ⟨hqs, hpairs⟩ heq hwalks
      have hbeside : Aligned (Beside top w₁ δ (ps.zip qs ++ ω) s s') e.children e'.children := by
        simp only [Expr.children, hnode, hnode', Node.children]
        exact aligned_cons.2 ⟨hunder, aligned_nil⟩
      refine (Follows.children h hlength hkind hb.kept hbeside hst₁ hroom₁).imp ?_
      rintro w₂ out' hle₂ ⟨hkept, hshape', hall⟩
      rw [hnode] at hshape
      rw [hnode'] at hshape'
      obtain ⟨c', hout⟩ := Node.lambda_of_shape hshape
      obtain ⟨d', hout'⟩ := Node.lambda_of_shape hshape'
      simp only [Expr.children, hout, hout', Node.children] at hall
      refine ⟨hkept, .lambda hout hout' hqs (fun p hp => ?_) (aligned_cons.1 hall).1⟩
      exact (hpairs p hp).mono hle₂
    | node hrigid hshapes hcount hpairs =>
      have hbeside : Aligned (Beside top w₁ δ ω s s') e.children e'.children :=
        Aligned.imp ⟨hcount, hpairs⟩ fun c hc c' hc' heq =>
          hb.child (Node.params_of_isRigid hrigid) hc hc' heq
      refine (Follows.children h hlength hkind hb.kept hbeside hst₁ hroom₁).imp ?_
      rintro w₂ out' - ⟨hkept, hshape', hall⟩
      refine ⟨hkept, .node ?_ (hshape'.trans (hshapes.trans hshape.symm)) hall.length_eq hall.rel⟩
      rwa [← Node.isRigid_shape, hshape, Node.isRigid_shape]

end Follows

/-- The reference follows every derivation that the watch lets pass. -/
theorem Expands.follows (htop : ∀ v ∈ top, v.id < base) {n : Nat} {out : Expr}
    (h : Expands .apart n s e out) : Follows base top n s e out := by
  induction h with
  | found haction hlookup => exact .found haction hlookup
  | unbound haction hlookup => exact .unbound haction hlookup
  | pass haction hpasses => exact .pass haction hpasses
  | inline haction hpeels harity hlength hargs hextend _ ihargs ihbody =>
    exact .inline htop haction hpeels harity hlength hargs hextend ihargs ihbody
  | capture haction _ ih => exact .capture htop haction ih
  | unwrap haction _ ih => exact .unwrap haction ih
  | descend haction hwalks hshape hlength _ ih =>
    exact .descend haction hwalks hshape hlength ih

end Beside

/-! ## Sources -/

/-- The reference: every lambda is given new parameters, inside and out, before it is inlined. -/
def expandFreshly (limit : Nat) (e : Expr) (supply : Supply) : Except Failure (Expanded × Supply) :=
  expandWith .idle Expansion.freshly limit e supply

/-- A tree that was read from a source is beside itself in the empty scope. -/
theorem Grounded.beside {top : List Variable} {supply : Supply} {e : Expr}
    (h : Grounded top supply e) {w : World supply.next} (hheld : w.toHeap.Holds e) :
    Beside top w [] [] .root .root e e where
  scopes := ⟨rfl, rfl, List.nodup_nil, List.nodup_nil, by simp [Tracked, pairing], by simp, by simp⟩
  tracked := by simp [Tracked]
  seals := h.seals
  kept := by
    refine ⟨hheld, h.seals.imp fun a ha v hv => Nat.lt_of_lt_of_le ?_ w.base_le⟩
    exact (List.mem_append.1 hv).elim (ha.own_lt v) (ha.params_lt v)
  replaced := by simp
  eq := AlphaEq.of_top (by simp [Tracked, pairing]) h.seals h.top_lt h.closed

/-- If a tree expands without confusing identities, then the reference succeeds as well, and both
results are equal up to the variables that lambdas bind. -/
theorem Expands.exists_expandFreshly {top : List Variable} {supply : Supply} {limit : Nat}
    {e out : Expr} (h : Expands .apart limit .root e out) (hground : Grounded top supply e) :
    ∃ r' supply'', expandFreshly limit e supply = .ok (r', supply'') ∧
      AlphaEq (fun v c => c.ty = v.ty) [] out r'.tree := by
  obtain ⟨heap, hnext, hheld⟩ := hground.coherent.exists_heap
  -- before the run, every variable is its own origin
  let w : World supply.next := ⟨heap, id, Nat.le_of_eq hnext.symm, fun _ _ => rfl⟩
  have hroom : Walk.Room limit
      ({ supply, guard := some { limit }, own := {} } : WalkState Stats) :=
    ⟨{ limit }, rfl, Nat.le_of_eq (Nat.zero_add limit)⟩
  obtain ⟨out', st, w', hrun, -, -, -, -, heq⟩ :=
    h.follows hground.top_lt (hground.beside (w := w) hheld) hnext.symm hroom
  exact ⟨⟨out', st.own⟩, st.supply, expandWith_eq_ok_iff.2 ⟨st.guard, hrun⟩,
    heq.mono fun _ _ hcopy => hcopy.ty_eq⟩

/-- The lambda `p` is inlined twice, and the argument of the outer inlining is a result of the inner
one: both have the same parameter `y`. -/
def doubledLambda : String :=
  "(invoke (lambda ((p F)) (invoke (lambda ((h F)) (invoke h 5)) (invoke p (invoke p 0)))) " ++
    "(lambda ((m F)) (lambda ((y Int)) (call static C::f (m y) Int))))"

/-- Expansion can replace a parameter of a lambda inside an argument, where the reference leaves
it. -/
theorem expand_ne_expandFreshly_on_doubledLambda :
    ∃ e supply r supply' r' supply'', parseTree doubledLambda {} = .ok (e, supply) ∧
      expand 10 e supply = .ok (r, supply') ∧
      expandFreshly 10 e supply = .ok (r', supply'') ∧
      ¬ AlphaEq (fun v c => c.ty = v.ty) [] r.tree r'.tree := by
  have hpasses : passes doubledLambda 10 (fun e supply r =>
      (expandFreshly 10 e supply).toOption.any fun found =>
        found.1.tree.nodes.map Expr.kind != r.tree.nodes.map Expr.kind) = true := by
    decide +kernel
  obtain ⟨e, supply, r, supply', hparse, hexpand, hcheck⟩ := exists_run_of_passes hpasses
  cases hfreshly : expandFreshly 10 e supply with
  | ok found =>
    rw [hfreshly] at hcheck
    refine ⟨e, supply, r, supply', found.1, found.2, hparse, hexpand, hfreshly, fun heq => ?_⟩
    exact absurd heq.map_kind_nodes (by simpa [Except.toOption] using hcheck)
  | error failure =>
    rw [hfreshly] at hcheck
    cases hcheck

end ExprTree
