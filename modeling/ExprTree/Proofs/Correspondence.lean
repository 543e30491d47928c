import Mathlib.Data.List.Forall2
import Mathlib.Data.List.Pairwise
import Mathlib.Data.List.Zip
import ExprTree.Proofs.Escape
import ExprTree.Proofs.Outline
import ExprTree.Proofs.RoundTrip

/-!
# Trees with the same bytes

Let two trees that were read from sources have the same bytes and the same outline. Then one is the
other under other identities (`exists_recasting_of_agrees`): agreement goes through both trees place by
place, and says at each place which variable and which closure stands for which.

The closures that have been met are kept in a table for each tree. A table only grows, and an entry is
made where a closure is met first, with the fields of both closures side by side (`Logged`); where it
is met again, the entry gives the fields back. What stands for a variable is found by the place where
the variable is bound (`Expr.sites`): by the name of a free variable, or by the position among the
parameters of a closure or of the tree.
-/

namespace ExprTree

/-! ## Tables of closures -/

namespace Sides

variable {M M₁ T : Sides Nat} {i i' j j' : Nat}

/-- The table of `M` is the beginning of that of `T`, on both sides. -/
structure Before (M T : Sides Nat) : Prop where
  left : M.left <+: T.left
  right : M.right <+: T.right

theorem Before.refl (M : Sides Nat) : M.Before M := ⟨List.prefix_rfl, List.prefix_rfl⟩

theorem Before.trans (h : M.Before M₁) (h' : M₁.Before T) : M.Before T :=
  ⟨h.left.trans h'.left, h.right.trans h'.right⟩

/-- Both sides have the same number of entries. -/
def Balanced (M : Sides Nat) : Prop := M.left.length = M.right.length

/-- The table with one more entry. -/
abbrev push (M : Sides Nat) (i i' : Nat) : Sides Nat := ⟨M.left ++ [i], M.right ++ [i']⟩

theorem before_push (M : Sides Nat) (i i' : Nat) : M.Before (M.push i i') :=
  ⟨List.prefix_append _ _, List.prefix_append _ _⟩

theorem Balanced.push (h : M.Balanced) (i i' : Nat) : (M.push i i').Balanced := by
  simpa [Balanced] using h

theorem idxOf?_append {α : Type} [BEq α] (xs ys : List α) (a : α) :
    (xs ++ ys).idxOf? a = (xs.idxOf? a).or ((ys.idxOf? a).map (· + xs.length)) :=
  List.findIdx?_append

theorem SamePlace.mono (h : M.SamePlace i j) (hle : M.Before T) : T.SamePlace i j := by
  obtain ⟨k, hleft, hright⟩ := h
  obtain ⟨l, hl⟩ := hle.left
  obtain ⟨l', hl'⟩ := hle.right
  refine ⟨k, ?_, ?_⟩
  · rw [← hl, idxOf?_append, hleft, Option.some_or]
  · rw [← hl', idxOf?_append, hright, Option.some_or]

theorem samePlace_push_here (hbalanced : M.Balanced) (hi : i ∉ M.left)
    (hi' : i' ∉ M.right) : (M.push i i').SamePlace i i' := by
  refine ⟨M.left.length, ?_, ?_⟩
  · rw [idxOf?_append, List.idxOf?_eq_none_iff.2 hi, Option.none_or]
    simp
  · rw [idxOf?_append, List.idxOf?_eq_none_iff.2 hi', Option.none_or, show M.left.length = _ from hbalanced]
    simp

theorem SamePlace.of_push (hbalanced : M.Balanced) (h : (M.push i i').SamePlace j j') :
    M.SamePlace j j' ∨ j = i ∧ j' = i' := by
  obtain ⟨k, hleft, hright⟩ := h
  have hlength : M.left.length = M.right.length := hbalanced
  rw [idxOf?_append] at hleft hright
  cases hj : M.left.idxOf? j with
  | some k₁ =>
    have hk : k < M.left.length := by
      obtain ⟨hlt, -⟩ := List.idxOf?_eq_some_iff.1 hj
      rw [hj, Option.some_or, Option.some.injEq] at hleft
      exact hleft ▸ hlt
    cases hj' : M.right.idxOf? j' with
    | some k₂ =>
      rw [hj, Option.some_or] at hleft
      rw [hj', Option.some_or] at hright
      exact .inl ⟨k, hj.trans hleft, hj'.trans hright⟩
    | none =>
      rw [hj', Option.none_or, Option.map_eq_some_iff] at hright
      obtain ⟨_, -, rfl⟩ := hright
      omega
  | none =>
    rw [hj, Option.none_or, Option.map_eq_some_iff] at hleft
    obtain ⟨k₁, hk₁, rfl⟩ := hleft
    have hji : j = i := by
      by_contra hne
      simp [List.idxOf?_cons, Ne.symm hne] at hk₁
    cases hj' : M.right.idxOf? j' with
    | some k₂ =>
      obtain ⟨hlt, -⟩ := List.idxOf?_eq_some_iff.1 hj'
      rw [hj', Option.some_or, Option.some.injEq] at hright
      omega
    | none =>
      rw [hj', Option.none_or, Option.map_eq_some_iff] at hright
      obtain ⟨k₂, hk₂, -⟩ := hright
      have hji' : j' = i' := by
        by_contra hne
        simp [List.idxOf?_cons, Ne.symm hne] at hk₂
      exact .inr ⟨hji, hji'⟩

theorem SamePlace.eq_right (h : T.SamePlace i j) (h' : T.SamePlace i j') : j = j' := by
  obtain ⟨k, hi, hj⟩ := h
  obtain ⟨k', hi', hj'⟩ := h'
  obtain rfl : k = k' := Option.some.inj (hi.symm.trans hi')
  obtain ⟨_, hj, -⟩ := List.idxOf?_eq_some_iff.1 hj
  obtain ⟨_, hj', -⟩ := List.idxOf?_eq_some_iff.1 hj'
  exact hj.symm.trans hj'

theorem SamePlace.eq_left (h : T.SamePlace i j) (h' : T.SamePlace i' j) : i = i' := by
  obtain ⟨k, hi, hj⟩ := h
  obtain ⟨k', hi', hj'⟩ := h'
  obtain rfl : k = k' := Option.some.inj (hj.symm.trans hj')
  obtain ⟨_, hi, -⟩ := List.idxOf?_eq_some_iff.1 hi
  obtain ⟨_, hi', -⟩ := List.idxOf?_eq_some_iff.1 hi'
  exact hi.symm.trans hi'

end Sides

section Log

variable {P P' : Closure Value → Prop} {T M M₁ M' : Sides Nat} {B : Sides Variable}

/-- Every entry of `M` was made for two closures whose fields agree, in tables that `T` goes on from. -/
structure Logged (P P' : Closure Value → Prop) (T M : Sides Nat) : Prop where
  balanced : M.Balanced
  entry : ∀ i j, M.SamePlace i j → ∃ c c' : Closure Value, P c ∧ P' c' ∧ c.id = i ∧ c'.id = j ∧
    c.name = c'.name ∧ ∃ M₀ B M₁, M₀.Balanced ∧ Threaded Field.Agrees M₀ B c.fields c'.fields M₁ ∧
      M₁.Before T

/-- The table grows from `M` to `M'`, and the entries that come in are logged. -/
structure Grows (P P' : Closure Value → Prop) (T M M' : Sides Nat) : Prop where
  before : M.Before M'
  balanced : M.Balanced → M'.Balanced
  logged : M'.Before T → Logged P P' T M → Logged P P' T M'

theorem Grows.refl (M : Sides Nat) : Grows P P' T M M := ⟨.refl M, id, fun _ h => h⟩

theorem Grows.trans (h : Grows P P' T M M₁) (h' : Grows P P' T M₁ M') : Grows P P' T M M' :=
  ⟨h.before.trans h'.before, h'.balanced ∘ h.balanced, fun hle hM =>
    h'.logged hle (h.logged (h'.before.trans hle) hM)⟩

theorem Threaded.grows {α : Type} {R : Sides Nat → Sides Variable → α → α → Sides Nat → Prop}
    {xs ys : List α} (h : Threaded R M B xs ys M')
    (hitem : ∀ x ∈ xs, ∀ y ∈ ys, ∀ {M M'}, R M B x y M' → Grows P P' T M M') : Grows P P' T M M' := by
  induction h with
  | nil => exact .refl _
  | cons hxy _ ih =>
    exact (hitem _ List.mem_cons_self _ List.mem_cons_self hxy).trans
      (ih fun x hx y hy => hitem x (List.mem_cons_of_mem _ hx) y (List.mem_cons_of_mem _ hy))

/-- Where two closures are met first, an entry is made and then the fields are looked at. -/
theorem Grows.first (c c' : Closure Value) (hc : P c) (hc' : P' c') (hname : c.name = c'.name)
    (hfields : Threaded Field.Agrees (M.push c.id c'.id) B c.fields c'.fields M')
    (h : Grows P P' T (M.push c.id c'.id) M') : Grows P P' T M M' where
  before := (Sides.before_push M _ _).trans h.before
  balanced hM := h.balanced (hM.push _ _)
  logged hle hM := by
    refine h.logged hle ⟨hM.balanced.push _ _, fun i j hplace => ?_⟩
    rcases hplace.of_push hM.balanced with hplace | ⟨rfl, rfl⟩
    · exact hM.entry i j hplace
    · exact ⟨c, c', hc, hc', rfl, rfl, hname, _, _, _, hM.balanced.push _ _, hfields, hle⟩

theorem Value.Agrees.grows {v v' : Value} (hclosures : ∀ c ∈ v.closures, P c)
    (hclosures' : ∀ c ∈ v'.closures, P' c)
    (htrees : ∀ t ∈ v.trees, ∀ t' ∈ v'.trees, ∀ {M M'}, t.Agrees M {} t' M' → Grows P P' T M M')
    (h : v.Agrees M B v' M') : Grows P P' T M M' := by
  induction v using Value.fieldInduction generalizing v' M M' with | step v ih => ?_
  cases h with
  | null | bool | int | float | str | again => exact .refl _
  | tree ht => exact htrees _ (by simp) _ (by simp) ht
  | @first _ _ _ i i' name fs fs' _ _ hfields =>
    rw [Value.closures_closure, List.forall_mem_cons] at hclosures hclosures'
    rw [Value.trees_closure, Value.trees_closure] at htrees
    have hgrows : Grows P P' T (M.push i i') M' := by
      refine hfields.grows fun f hf f' hf' M M' hfield => ?_
      cases hfield with
      | mk hvalue =>
        refine ih _ rfl _ hf (fun c hc => hclosures.2 c ?_) (fun c hc => hclosures'.2 c ?_)
          (fun t ht t' ht' => htrees t ?_ t' ?_) hvalue
        · exact List.mem_flatMap.2 ⟨_, hf, hc⟩
        · exact List.mem_flatMap.2 ⟨_, hf', hc⟩
        · exact List.mem_flatMap.2 ⟨_, hf, ht⟩
        · exact List.mem_flatMap.2 ⟨_, hf', ht'⟩
    exact .first ⟨i, name, fs⟩ ⟨i', name, fs'⟩ hclosures.1 hclosures'.1 rfl hfields hgrows

theorem Expr.Agrees.grows {x y : Expr} (hx : x.Everywhere fun a => ∀ c ∈ a.node.closures, P c)
    (hy : y.Everywhere fun a => ∀ c ∈ a.node.closures, P' c) (h : x.Agrees M B y M') :
    Grows P P' T M M' := by
  induction x using Expr.partInduction generalizing y M M' B with | step x ih => ?_
  by_cases hconstant : x.node.kind = .constant
  · have hnode := h.node
    have hclosures := hx.here
    have hclosures' := hy.here
    have htrees : ∀ t ∈ x.node.payload, ∀ t' ∈ y.node.payload, ∀ {M M'}, t.Agrees M {} t' M' →
        Grows P P' T M M' := fun t ht t' ht' M M' hagrees =>
      ih t (List.mem_append_right _ ht) (hx.part (List.mem_append_right _ ht))
        (hy.part (List.mem_append_right _ ht')) hagrees
    generalize x.node = n, y.node = n' at *
    cases hnode with
    | constant hvalue => exact hvalue.grows hclosures hclosures' htrees
    | _ => cases hconstant
  · exact (h.node.children hconstant).grows fun c hc d hd M M' hagrees =>
      ih c (Expr.mem_parts_of_mem_children hc) (hx.child hc) (hy.child hd) hagrees

theorem Field.threaded_grows {fs fs' : List (String × Value)}
    (h : Threaded Field.Agrees M B fs fs' M')
    (hfs : ∀ f ∈ fs, (∀ c ∈ f.2.closures, P c) ∧
      ∀ t ∈ f.2.trees, t.Everywhere fun a => ∀ c ∈ a.node.closures, P c)
    (hfs' : ∀ f ∈ fs', (∀ c ∈ f.2.closures, P' c) ∧
      ∀ t ∈ f.2.trees, t.Everywhere fun a => ∀ c ∈ a.node.closures, P' c) : Grows P P' T M M' := by
  refine h.grows fun f hf f' hf' M M' hfield => ?_
  cases hfield with
  | mk hvalue =>
    exact hvalue.grows (hfs _ hf).1 (hfs' _ hf').1 fun t ht t' ht' M M' hagrees =>
      hagrees.grows ((hfs _ hf).2 t ht) ((hfs' _ hf').2 t' ht')

/-- Values that agree: two trees, two closures in the same place of the table, or the same value
without parts. -/
theorem Value.Agrees.cases {v v' : Value} (h : v.Agrees M B v' M') (hbalanced : M.Balanced) :
    (∃ t t', v = .tree t ∧ v' = .tree t' ∧ t.Agrees M {} t' M') ∨
    (∃ c c', v = .closure c ∧ v' = .closure c' ∧ M'.SamePlace c.id c'.id) ∨
    (v' = v ∧ v.trees = [] ∧ v.closures = [] ∧ ∀ r, v.recast r = v) := by
  cases h with
  | null | bool | int | str =>
    exact .inr (.inr ⟨rfl, by simp [Value.trees], by simp [Value.closures], fun r => by rw [Value.recast]⟩)
  | @float _ _ x x' hbits =>
    obtain ⟨bits⟩ := x
    obtain ⟨bits'⟩ := x'
    cases hbits
    exact .inr (.inr ⟨rfl, by simp [Value.trees], by simp [Value.closures], fun r => by rw [Value.recast]⟩)
  | tree ht => exact .inl ⟨_, _, rfl, rfl, ht⟩
  | first hi hi' hfields =>
    have hgrows : Grows (fun _ => True) (fun _ => True) {} _ M' :=
      Field.threaded_grows hfields (fun _ _ => ⟨fun _ _ => trivial, fun _ _ _ _ _ _ => trivial⟩)
        (fun _ _ => ⟨fun _ _ => trivial, fun _ _ _ _ _ _ => trivial⟩)
    exact .inr (.inl ⟨_, _, rfl, rfl, (Sides.samePlace_push_here hbalanced hi hi').mono hgrows.before⟩)
  | again hplace => exact .inr (.inl ⟨_, _, rfl, rfl, hplace⟩)

end Log

/-! ## Partners -/

/-- Where variables are bound. -/
inductive Site where
  | free (name : String)
  | captured (closure : String)
  | tree
  deriving DecidableEq

/-- The variables of a tree by the sites where they are bound, in the order in which they are written. -/
def Expr.sites (top : List Variable) (e : Expr) : List (Site × List Variable) :=
  top.map (fun v => (.free v.name, [v])) ++
    ((closuresOf e).map (fun c => (.captured c.name, c.ownTrees.flatMap binders)) ++ [(.tree, e.binders)])

/-- The variables are bound in the same place of the same site. -/
def Partners (sites sites' : List (Site × List Variable)) (v w : Variable) : Prop :=
  ∃ site vs ws, (site, vs) ∈ sites ∧ (site, ws) ∈ sites' ∧ (v, w) ∈ vs.zip ws

section Partners

variable {sites sites' : List (Site × List Variable)} {v w w' : Variable}

theorem Partners.symm (h : Partners sites sites' v w) : Partners sites' sites w v := by
  obtain ⟨site, vs, ws, hvs, hws, hzip⟩ := h
  refine ⟨site, ws, vs, hws, hvs, ?_⟩
  rw [← List.zip_swap]
  exact List.mem_map.2 ⟨(v, w), hzip, rfl⟩

theorem eq_of_mem_zip {α β : Type} {xs : List α} {ys : List β} (hnodup : xs.Nodup) {x : α} {y y' : β}
    (h : (x, y) ∈ xs.zip ys) (h' : (x, y') ∈ xs.zip ys) : y = y' := by
  obtain ⟨i, hi, hxy⟩ := List.mem_iff_getElem.1 h
  obtain ⟨j, hj, hxy'⟩ := List.mem_iff_getElem.1 h'
  simp only [List.getElem_zip, Prod.mk.injEq] at hxy hxy'
  obtain rfl : i = j := (List.getElem_inj hnodup).1 (hxy.1.trans hxy'.1.symm)
  exact hxy.2.symm.trans hxy'.2

/-- A variable that is bound once has one partner. -/
theorem Partners.unique (hnodup : (sites.flatMap (·.2)).Nodup) (hsites' : (sites'.map (·.1)).Nodup)
    (h : Partners sites sites' v w) (h' : Partners sites sites' v w') : w = w' := by
  obtain ⟨site, vs, ws, hvs, hws, hzip⟩ := h
  obtain ⟨site', vs', ws', hvs', hws', hzip'⟩ := h'
  obtain ⟨hown, hdisjoint⟩ := List.nodup_flatMap.1 hnodup
  have hsymm : Std.Symm (Function.onFun List.Disjoint fun s : Site × List Variable => s.2) :=
    ⟨fun _ _ h => h.symm⟩
  have hsite : (site, vs) = (site', vs') := by
    by_contra hne
    have hapart : vs.Disjoint vs' := hdisjoint.forall hvs hvs' hne
    exact hapart (List.of_mem_zip hzip).1 (List.of_mem_zip hzip').1
  cases hsite
  obtain rfl : ws = ws' := congrArg (·.2) (List.inj_on_of_nodup_map hsites' hws hws' rfl)
  exact eq_of_mem_zip (hown _ hvs) hzip hzip'

end Partners

/-! ## Walking through both trees -/

section Walk

variable {top top' : List Variable} {a b : Expr} {T : Sides Nat} {r : Recasting}

/-- Two trees of sources side by side: `T` are the closures that are met in them, and `r` takes what is
bound or met in one tree to what is bound or met in the same place of the other. -/
structure SideBySide (top top' : List Variable) (a b : Expr) (T : Sides Nat) (r : Recasting) : Prop where
  source : FromSource a
  source' : FromSource b
  sealed : a.Everywhere fun x => ∀ t ∈ x.node.captured, ∀ v ∈ t.freeVars, v ∈ top
  sealed' : b.Everywhere fun x => ∀ t ∈ x.node.captured, ∀ v ∈ t.freeVars, v ∈ top'
  logged : Logged a.Reaches b.Reaches T T
  owner : r.owner = id
  var : ∀ v w, Partners (a.sites top) (b.sites top') v w → r.var v = w
  closure : ∀ i j, T.SamePlace i j → r.closure i = j

/-- What is known of two expressions that stand in the same place. The binders around them are
partners; `B` are those that the bytes count. -/
structure SamePosition (top top' : List Variable) (R : Variable → Variable → Prop) (B : Sides Variable)
    (scope scope' : List Variable) (x y : Expr) : Prop where
  binders : ∀ p ∈ x.binders.zip y.binders, R p.1 p.2
  scopes : List.Forall₂ (fun v w => R v w ∧ v.ty = w.ty) scope scope'
  bound : ∀ v ∈ B.left, v ∈ scope
  free : ∀ v ∈ x.freeVars, v ∈ scope ∨ v ∈ top
  free' : ∀ w ∈ y.freeVars, w ∈ scope' ∨ w ∈ top'

/-- What a comparison comes to: `y` is `x` recast, and what the bytes show of `x` survives. -/
structure Mirrored (r : Recasting) (S : Variable → Prop) (I : Nat → Prop) (bound : List Variable)
    (x y : Expr) : Prop where
  alike : y.recast {} = x.recast r
  survives : x.Everywhere (Encoding.Survives r S I)
  named : ∀ v ∈ x.exposed, v ∉ bound → (r.var v).name = v.name

section Position

variable {R : Variable → Variable → Prop} {M M' : Sides Nat} {B : Sides Variable}
  {scope scope' : List Variable} {x y : Expr}

theorem Sides.SamePlace.mem_left {v w : Variable} (h : B.SamePlace v w) : v ∈ B.left := by
  obtain ⟨i, hi, -⟩ := h
  obtain ⟨hlt, hv, -⟩ := List.idxOf?_eq_some_iff.1 hi
  exact hv ▸ List.getElem_mem hlt

/-- Variables in the same place are partners: they are bound in the same place, or both are free and have
the same name. -/
theorem SamePosition.partners (h : SamePosition top top' R B scope scope' x y) {v w : Variable}
    (hdeclared : ∀ v ∈ top, ∀ w ∈ top', v.name = w.name → R v w) (hx : x.node = .variable v)
    (hy : y.node = .variable w) (hagrees : x.node.Agrees M B y.node M')
    (hplace : scope.idxOf? v = scope'.idxOf? w) :
    R v w ∧ v.ty = w.ty ∧ (v ∉ B.left → v.name = w.name) := by
  rw [hx, hy] at hagrees
  have hname : v ∉ B.left → v.name = w.name := by
    intro hv
    cases hagrees with
    | bound hbound => exact absurd hbound.mem_left hv
    | free _ _ hname _ => exact hname
  cases hi : scope.idxOf? v with
  | some i =>
    obtain ⟨hlt, hv, -⟩ := List.idxOf?_eq_some_iff.1 hi
    obtain ⟨hlt', hw, -⟩ := List.idxOf?_eq_some_iff.1 (hplace.symm.trans hi)
    obtain ⟨hR, hty⟩ := h.scopes.get hlt hlt'
    rw [List.get_eq_getElem, List.get_eq_getElem, hv, hw] at hR hty
    exact ⟨hR, hty, hname⟩
  | none =>
    have hv : v ∉ scope := List.idxOf?_eq_none_iff.1 hi
    have hw : w ∉ scope' := List.idxOf?_eq_none_iff.1 (hplace.symm.trans hi)
    have hfree : v ∈ top := (h.free v (Expr.mem_freeVars.2 (.inl (Node.mem_own.2 hx)))).resolve_left hv
    have hfree' : w ∈ top' := (h.free' w (Expr.mem_freeVars.2 (.inl (Node.mem_own.2 hy)))).resolve_left hw
    cases hagrees with
    | bound hbound => exact absurd (h.bound v hbound.mem_left) hv
    | free _ _ hname' hty => exact ⟨hdeclared v hfree w hfree' hname', hty, hname⟩

theorem Node.Agrees.params_ty {n n' : Node} (h : n.Agrees M B n' M') :
    n.params.map (·.ty) = n'.params.map (·.ty) := by
  cases h with
  | lambda hty => exact hty
  | _ => rfl

theorem forall₂_of_zip {vs ws : List Variable} (hty : vs.map (·.ty) = ws.map (·.ty))
    (hzip : ∀ p ∈ vs.zip ws, R p.1 p.2) : List.Forall₂ (fun v w => R v w ∧ v.ty = w.ty) vs ws := by
  induction vs generalizing ws with
  | nil =>
    obtain rfl := List.map_eq_nil_iff.1 hty.symm
    exact .nil
  | cons v vs ih =>
    cases ws with
    | nil => cases hty
    | cons w ws =>
      obtain ⟨hfirst, hrest⟩ := List.cons.inj hty
      exact .cons ⟨hzip (v, w) List.mem_cons_self, hfirst⟩
        (ih hrest fun p hp => hzip p (List.mem_cons_of_mem _ hp))

theorem mem_zip_append {α β : Type} {xs xs' : List α} {ys ys' : List β} {p : α × β} (h : p ∈ xs.zip ys) :
    p ∈ (xs ++ xs').zip (ys ++ ys') := by
  induction xs generalizing ys with
  | nil => cases h
  | cons x xs ih =>
    cases ys with
    | nil => cases h
    | cons y ys =>
      rcases List.mem_cons.1 h with rfl | h
      · exact List.mem_cons_self
      · exact List.mem_cons_of_mem _ (ih h)

end Position

/-- What is asked of a variable of the first tree: its image is its partner and has its type. -/
def Kept (top top' : List Variable) (a b : Expr) (r : Recasting) (v : Variable) : Prop :=
  Partners (a.sites top) (b.sites top') v (r.var v) ∧ (r.var v).ty = v.ty

/-- The closure is met in both trees. -/
def Met (T : Sides Nat) (i : Nat) : Prop := ∃ j, T.SamePlace i j

/-- An expression of the first tree is matched by whatever agrees with it in the second, if their
outlines, with anything behind them, are the same. -/
def Compares (top top' : List Variable) (a b : Expr) (T : Sides Nat) (r : Recasting) (x : Expr) : Prop :=
  ∀ {y : Expr} {M M' : Sides Nat} {B : Sides Variable} {scope scope' : List Variable}
    {l l' : List (Option Marker × List (Option Nat))}, x.Within a → y.Within b → x.Agrees M B y M' →
    M.Balanced → M'.Before T →
    SamePosition top top' (Partners (a.sites top) (b.sites top')) B scope scope' x y →
    x.outline scope ++ l = y.outline scope' ++ l' →
    Mirrored r (Kept top top' a b r) (Met T) B.left x y ∧ l = l'

section Steps

variable {M M' : Sides Nat} {B : Sides Variable} {scope scope' : List Variable}
  {l l' : List (Option Marker × List (Option Nat))}

theorem Mirrored.binders_eq {S : Variable → Prop} {I : Nat → Prop} {bound : List Variable} {x y : Expr}
    (h : Mirrored r S I bound x y) : y.binders = x.binders.map r.var := by
  rw [← Expr.binders_recast, ← h.alike, Expr.binders_recast]
  exact (List.map_id _).symm

theorem reaches_within {e x : Expr} (hx : x.Within e) :
    x.Everywhere fun y => ∀ c ∈ y.node.closures, e.Reaches c :=
  fun y hy _ hc => ⟨y, hy.trans hx, hc⟩

theorem grows_of_within {x y : Expr} (hx : x.Within a) (hy : y.Within b) (h : x.Agrees M B y M') :
    Grows a.Reaches b.Reaches T M M' :=
  h.grows (reaches_within hx) (reaches_within hy)

/-- Expressions one after the other. -/
theorem compares_each {xs ys : List Expr} (hxs : ∀ x ∈ xs, x.Within a) (hys : ∀ y ∈ ys, y.Within b)
    (ih : ∀ x ∈ xs, Compares top top' a b T r x) (hagrees : Threaded Expr.Agrees M B xs ys M')
    (hbalanced : M.Balanced) (hle : M'.Before T)
    (hbinders : ∀ p ∈ (xs.flatMap Expr.binders).zip (ys.flatMap Expr.binders),
      Partners (a.sites top) (b.sites top') p.1 p.2)
    (hscopes : List.Forall₂ (fun v w => Partners (a.sites top) (b.sites top') v w ∧ v.ty = w.ty)
      scope scope') (hbound : ∀ v ∈ B.left, v ∈ scope)
    (hfree : ∀ x ∈ xs, ∀ v ∈ x.freeVars, v ∈ scope ∨ v ∈ top)
    (hfree' : ∀ y ∈ ys, ∀ w ∈ y.freeVars, w ∈ scope' ∨ w ∈ top')
    (houtline : xs.flatMap (Expr.outline scope) ++ l = ys.flatMap (Expr.outline scope') ++ l') :
    List.Forall₂ (Mirrored r (Kept top top' a b r) (Met T) B.left) xs ys ∧ l = l' := by
  induction hagrees with
  | nil => exact ⟨.nil, houtline⟩
  | @cons M M₁ M' B x y xs ys hxy hrest ihrest =>
    rw [List.forall_mem_cons] at hxs hys ih hfree hfree'
    simp only [List.flatMap_cons, List.append_assoc] at houtline hbinders
    have hgrows : Grows a.Reaches b.Reaches T M₁ M' :=
      hrest.grows fun x hx y hy M M' h => grows_of_within (hxs.2 x hx) (hys.2 y hy) h
    obtain ⟨hmatched, houtline⟩ := ih.1 hxs.1 hys.1 hxy hbalanced (hgrows.before.trans hle)
      ⟨fun p hp => hbinders p (mem_zip_append hp), hscopes, hbound, hfree.1, hfree'.1⟩ houtline
    have hlength : x.binders.length = y.binders.length := by
      rw [hmatched.binders_eq, List.length_map]
    rw [List.zip_append hlength] at hbinders
    have hfirst : Grows a.Reaches b.Reaches T M M₁ := grows_of_within hxs.1 hys.1 hxy
    obtain ⟨hall, hl⟩ := ihrest hxs.2 hys.2 ih.2 (hfirst.balanced hbalanced) hle
      (fun p hp => hbinders p (List.mem_append_right _ hp)) hbound hfree.2 hfree'.2 houtline
    exact ⟨.cons hmatched hall, hl⟩

end Steps

end Walk

/-! ## One place -/

namespace Node

variable {n : Node}

theorem payload_of_kind (h : n.kind ≠ .constant) : n.payload = [] := by
  cases n <;> first | rfl | exact absurd rfl h

theorem closures_of_kind (h : n.kind ≠ .constant) : n.closures = [] := by
  cases n <;> first | rfl | exact absurd rfl h

theorem quoted_of_kind (h : n.kind ≠ .constant) : n.quoted = [] := by
  cases n <;> first | rfl | exact absurd rfl h

theorem own_of_kind (h : n.kind ≠ .variable) : n.own = [] := by
  cases n <;> first | rfl | exact absurd rfl h

theorem scopeInside_of_kind (h : n.kind ≠ .constant) (binders : List Variable) :
    n.scopeInside binders = n.params.reverse ++ binders := by
  cases n <;> first | rfl | exact absurd rfl h

end Node

theorem Expr.recast_eq_of_node {r s : Recasting} {e e' : Expr} (h : e'.node.recast s = e.node.recast r) :
    e'.recast s = e.recast r := by
  obtain ⟨l, n⟩ := e
  obtain ⟨l', n'⟩ := e'
  exact congrArg (Expr.mk 0) h

section Place

variable {top top' : List Variable} {a b : Expr} {T : Sides Nat} {r : Recasting}

theorem SideBySide.declared (_ : SideBySide top top' a b T r) :
    ∀ v ∈ top, ∀ w ∈ top', v.name = w.name → Partners (a.sites top) (b.sites top') v w := by
  intro v hv w hw hname
  refine ⟨.free v.name, [v], [w], List.mem_append_left _ (List.mem_map_of_mem hv), ?_, by simp⟩
  rw [hname]
  exact List.mem_append_left _ (List.mem_map_of_mem hw)

/-- Variables in the same places are taken to each other. -/
theorem SideBySide.kept (h : SideBySide top top' a b T r) {vs ws : List Variable}
    (hvs : List.Forall₂ (fun v w => Partners (a.sites top) (b.sites top') v w ∧ v.ty = w.ty) vs ws) :
    ws = vs.map r.var ∧ ∀ v ∈ vs, Kept top top' a b r v := by
  induction hvs with
  | nil => exact ⟨rfl, fun _ hv => nomatch hv⟩
  | @cons v w vs ws hvw _ ih =>
    have hvar : r.var v = w := h.var v w hvw.1
    rw [List.forall_mem_cons, List.map_cons, hvar, ← ih.1]
    refine ⟨rfl, ⟨?_, ?_⟩, ih.2⟩
    · rw [hvar]
      exact hvw.1
    · rw [hvar, hvw.2]

theorem SideBySide.own (h : SideBySide top top' a b T r) {M M' : Sides Nat} {B : Sides Variable}
    {scope scope' : List Variable} {x y : Expr}
    (hpos : SamePosition top top' (Partners (a.sites top) (b.sites top')) B scope scope' x y)
    (hnode : x.node.Agrees M B y.node M')
    (hplaces : x.node.own.map (scope.idxOf? ·) = y.node.own.map (scope'.idxOf? ·)) :
    y.node.own = x.node.own.map r.var ∧
      ∀ v ∈ x.node.own, Kept top top' a b r v ∧ (v ∉ B.left → (r.var v).name = v.name) := by
  by_cases hvariable : x.node.kind = .variable
  · obtain ⟨v, hv⟩ := Node.eq_variable_of_kind hvariable
    obtain ⟨w, hw⟩ := Node.eq_variable_of_kind (hnode.kind_eq ▸ hvariable)
    rw [hv, hw] at hplaces
    obtain ⟨hpartners, hty, hname⟩ :=
      hpos.partners h.declared hv hw hnode (List.cons.inj hplaces).1
    obtain ⟨hown, hkept⟩ := h.kept (.cons ⟨hpartners, hty⟩ .nil)
    rw [hv, hw]
    refine ⟨hown, fun u hu => ⟨hkept u hu, ?_⟩⟩
    obtain rfl := List.mem_singleton.1 hu
    rw [h.var u w hpartners]
    exact fun hbound => (hname hbound).symm
  · rw [Node.own_of_kind hvariable, Node.own_of_kind (hnode.kind_eq ▸ hvariable)]
    exact ⟨rfl, fun _ hv => nomatch hv⟩

theorem Expr.freeVars_child {e c : Expr} {scope top : List Variable} (hc : c ∈ e.children)
    (h : ∀ v ∈ e.freeVars, v ∈ scope ∨ v ∈ top) :
    ∀ v ∈ c.freeVars, v ∈ e.node.params.reverse ++ scope ∨ v ∈ top := by
  intro v hv
  by_cases hparam : v ∈ e.node.params
  · exact .inl (List.mem_append_left _ (List.mem_reverse.2 hparam))
  · exact (h v (mem_freeVars_of_child hc hv hparam)).imp (List.mem_append_right _) id

/-- An expression that is no constant is matched if its children are. -/
theorem SideBySide.compares_of_children (h : SideBySide top top' a b T r) {x : Expr}
    (hconstant : x.node.kind ≠ .constant) (ih : ∀ c ∈ x.children, Compares top top' a b T r c) :
    Compares top top' a b T r x := by
  intro y M M' B scope scope' l l' hx hy hagrees hbalanced hle hpos houtline
  have hnode := hagrees.node
  have hconstant' : y.node.kind ≠ .constant := hnode.kind_eq ▸ hconstant
  -- the outlines and binders of the parts are those of the children
  have hparts : x.parts = x.children := by rw [Expr.parts, Node.payload_of_kind hconstant, List.append_nil]
  have hparts' : y.parts = y.children := by
    rw [Expr.parts, Node.payload_of_kind hconstant', List.append_nil]
  rw [Expr.outline_eq, Expr.outline_eq, hparts, hparts', Node.scopeInside_of_kind hconstant,
    Node.scopeInside_of_kind hconstant', List.cons_append, List.cons_append] at houtline
  obtain ⟨hhere, houtline⟩ := List.cons.inj houtline
  obtain ⟨hmarker, hplaces⟩ := Prod.mk.inj hhere
  have hbinders := hpos.binders
  rw [Expr.binders, Expr.gather_eq, Expr.gather_eq, Expr.inner, Expr.inner,
    Node.quoted_of_kind hconstant, Node.quoted_of_kind hconstant', List.append_nil,
    List.append_nil] at hbinders
  have hparams : List.Forall₂ (fun v w => Partners (a.sites top) (b.sites top') v w ∧ v.ty = w.ty)
      x.node.params y.node.params :=
    forall₂_of_zip hnode.params_ty fun p hp => hbinders p (mem_zip_append hp)
  rw [List.zip_append hparams.length_eq] at hbinders
  have hbound : ∀ v ∈ (B.under x.node.params y.node.params).left, v ∈ x.node.params.reverse ++ scope := by
    intro v hv
    rcases List.mem_append.1 hv with hv | hv
    · exact List.mem_append_left _ hv
    · exact List.mem_append_right _ (hpos.bound v hv)
  obtain ⟨hchildren, hl⟩ := compares_each
    (fun c hc => (Expr.within_of_mem_children hc).trans hx)
    (fun c hc => (Expr.within_of_mem_children hc).trans hy) ih (hnode.children hconstant)
    hbalanced hle (fun p hp => hbinders p (List.mem_append_right _ hp))
    (List.rel_append (List.forall₂_reverse_iff.2 hparams) hpos.scopes) hbound
    (fun c hc => Expr.freeVars_child hc hpos.free) (fun c hc => Expr.freeVars_child hc hpos.free') houtline
  obtain ⟨hown, hkept⟩ := h.own hpos hnode hplaces
  obtain ⟨hparams, hkeptParams⟩ := h.kept hparams
  have halike : y.children.map (·.recast {}) = x.children.map (·.recast r) := by
    rw [← List.forall₂_eq_eq_eq, List.forall₂_map_left_iff, List.forall₂_map_right_iff]
    exact hchildren.flip.imp fun _ _ hmatched => hmatched.alike
  have hmatched : ∀ c ∈ x.children, ∃ d, Mirrored r (Kept top top' a b r) (Met T)
      (B.under x.node.params y.node.params).left c d :=
    ((List.forall₂_and_left _ _).1 (hchildren.imp fun c d hcd => ⟨⟨d, hcd⟩, hcd⟩)).1
  refine ⟨⟨Expr.recast_eq_of_node (hnode.recast_eq h.owner (h.source.legible x hx)
    (h.source'.legible y hy) hmarker hconstant hown hparams halike), ?_, ?_⟩, hl⟩
  · refine Expr.everywhere_iff.2 ⟨⟨?_, ?_, ?_⟩, fun c hc => ?_⟩
    · exact fun v hv => (List.mem_append.1 hv).elim (fun hv => (hkept v hv).1) (hkeptParams v)
    · rw [Node.closures_of_kind hconstant]
      intro _ hc
      cases hc
    · rw [Node.payload_of_kind hconstant]
      intro _ ht
      cases ht
    · rw [hparts] at hc
      obtain ⟨d, hd⟩ := hmatched c hc
      exact hd.survives
  · intro v hv hbound
    rcases Expr.mem_exposed.1 hv with hv | ⟨hparam, c, hc, hv⟩
    · exact (hkept v hv).2 hbound
    · obtain ⟨d, hd⟩ := hmatched c hc
      refine hd.named v hv ?_
      simp only [Sides.under, List.mem_append, List.mem_reverse, not_or]
      exact ⟨hparam, hbound⟩

/-- What a comparison of payloads comes to. -/
structure ValueMirrored (r : Recasting) (S : Variable → Prop) (I : Nat → Prop) (v v' : Value) : Prop where
  alike : v'.recast {} = v.recast r
  closures : ∀ c ∈ v.closures, I c.id
  trees : ∀ t ∈ v.trees, t.Everywhere (Encoding.Survives r S I) ∧
    ∀ u ∈ t.exposed, (r.var u).name = u.name

theorem ValueMirrored.length_binders {S : Variable → Prop} {I : Nat → Prop} {v v' : Value}
    (h : ValueMirrored r S I v v') : ((Parser.quotedTree v).flatMap Expr.binders).length =
      ((Parser.quotedTree v').flatMap Expr.binders).length := by
  have halike := congrArg (fun v => ((Parser.quotedTree v).flatMap Expr.binders).length) h.alike
  simp only [Value.quotedTree_recast, List.flatMap_map, Expr.binders_recast, List.length_flatMap,
    List.length_map] at halike ⊢
  exact halike.symm

theorem ValueMirrored.matched {S : Variable → Prop} {I : Nat → Prop} {v v' : Value}
    (h : ValueMirrored r S I v v') {k k' : Nat} {ty : Ty} {bound : List Variable} :
    Mirrored r S I bound (.mk k (.constant v ty)) (.mk k' (.constant v' ty)) where
  alike := by rw [Expr.recast, Expr.recast, Node.recast, Node.recast, h.alike]
  survives := by
    refine Expr.everywhere_iff.2 ⟨⟨(fun u hu => nomatch hu), h.closures, fun t ht => (h.trees t ht).2⟩, ?_⟩
    exact fun t ht => (h.trees t ht).1
  named u hu := absurd hu (Expr.not_mem_exposed_constant rfl)

theorem Mirrored.value {S : Variable → Prop} {I : Nat → Prop} {t t' : Expr} (h : Mirrored r S I [] t t') :
    ValueMirrored r S I (.tree t) (.tree t') where
  alike := by rw [Value.recast, Value.recast, h.alike]
  closures := by simp [Value.closures]
  trees := by
    rw [Value.trees_tree, List.forall_mem_singleton]
    exact ⟨h.survives, fun u hu => h.named u hu (by simp)⟩

/-- The closure is matched by the one in its place, if their outlines are the same. -/
def ComparesClosure (top top' : List Variable) (a b : Expr) (T : Sides Nat) (r : Recasting)
    (c : Closure Value) : Prop :=
  ∀ {c' : Closure Value} {l l' : List (Option Marker × List (Option Nat))}, a.Reaches c → b.Reaches c' →
    T.SamePlace c.id c'.id →
    c.trees.flatMap (Expr.outline []) ++ l = c'.trees.flatMap (Expr.outline []) ++ l' →
    ValueMirrored r (Kept top top' a b r) (Met T) (.closure c) (.closure c') ∧ l = l'

/-- The trees in a value stand within a tree and are closed, and so do the closures. -/
structure HeldBy (top : List Variable) (a : Expr) (v : Value) : Prop where
  trees : ∀ t ∈ v.trees, t.Within a ∧ ∀ u ∈ t.freeVars, u ∈ top
  closures : ∀ c ∈ v.closures, a.Reaches c

theorem Expr.Reaches.closures {e : Expr} {c d : Closure Value} (h : e.Reaches c)
    (hd : d ∈ (Value.closure c).closures) : e.Reaches d := by
  obtain ⟨x, hx, hc⟩ := h
  refine ⟨x, hx, ?_⟩
  generalize x.node = n at hc ⊢
  cases n with
  | constant v ty => exact (v.closures_trans hc).1 d hd
  | _ => simp [Node.closures] at hc

theorem Expr.Reaches.heldBy {top : List Variable} {e : Expr} {c : Closure Value} (h : e.Reaches c)
    (hsealed : e.Everywhere fun x => ∀ t ∈ x.node.captured, ∀ v ∈ t.freeVars, v ∈ top) :
    ∀ f ∈ c.fields, HeldBy top e f.2 := by
  refine fun f hf => ⟨fun t ht => ?_, fun d hd => h.closures ?_⟩
  · have htrees : t ∈ c.trees := List.mem_flatMap.2 ⟨f, hf, ht⟩
    obtain ⟨x, hx, hcaptured⟩ := h.captured htrees
    exact ⟨h.within htrees, hsealed x hx t hcaptured⟩
  · rw [Value.closures_closure]
    exact List.mem_cons_of_mem _ (List.mem_flatMap.2 ⟨f, hf, hd⟩)

section Fields

variable {M M' : Sides Nat} {B : Sides Variable} {l l' : List (Option Marker × List (Option Nat))}

/-- A payload is matched, if its tree or closure is. -/
theorem compares_value {v v' : Value} (hv : HeldBy top a v) (hv' : HeldBy top' b v')
    (htrees : ∀ t ∈ v.trees, Compares top top' a b T r t)
    (hclosure : ∀ c, v = .closure c → ComparesClosure top top' a b T r c) (hagrees : v.Agrees M B v' M')
    (hbalanced : M.Balanced) (hle : M'.Before T)
    (hbinders : ∀ p ∈ ((Parser.quotedTree v).flatMap Expr.binders).zip
      ((Parser.quotedTree v').flatMap Expr.binders), Partners (a.sites top) (b.sites top') p.1 p.2)
    (houtline : v.trees.flatMap (Expr.outline []) ++ l = v'.trees.flatMap (Expr.outline []) ++ l') :
    ValueMirrored r (Kept top top' a b r) (Met T) v v' ∧ l = l' := by
  obtain ⟨t, t', rfl, rfl, ht⟩ | ⟨c, c', rfl, rfl, hplace⟩ | ⟨rfl, hnone, hclosures, hsame⟩ :=
    hagrees.cases hbalanced
  · obtain ⟨hwithin, hfree⟩ := hv.trees t (by simp)
    obtain ⟨hwithin', hfree'⟩ := hv'.trees t' (by simp)
    simp only [Value.trees_tree, List.flatMap_singleton] at houtline
    simp only [Parser.quotedTree, List.flatMap_singleton] at hbinders
    obtain ⟨hmatched, hl⟩ := htrees t (by simp) hwithin hwithin' ht hbalanced hle
      ⟨hbinders, .nil, by simp, fun u hu => .inr (hfree u hu), fun u hu => .inr (hfree' u hu)⟩ houtline
    exact ⟨hmatched.value, hl⟩
  · rw [Value.trees_closure, Value.trees_closure] at houtline
    exact hclosure c rfl (hv.closures c (by simp [Value.closures]))
      (hv'.closures c' (by simp [Value.closures])) (hplace.mono hle) houtline
  · rw [hnone] at houtline
    exact ⟨⟨by rw [hsame, hsame], by simp [hclosures], by simp [hnone]⟩, houtline⟩

/-- Fields one after the other. -/
theorem compares_fields {fs fs' : List (String × Value)} (hfs : ∀ f ∈ fs, HeldBy top a f.2)
    (hfs' : ∀ f ∈ fs', HeldBy top' b f.2)
    (htrees : ∀ f ∈ fs, ∀ t ∈ f.2.trees, Compares top top' a b T r t)
    (hclosure : ∀ f ∈ fs, ∀ c, f.2 = .closure c → ComparesClosure top top' a b T r c)
    (hagrees : Threaded Field.Agrees M B fs fs' M') (hbalanced : M.Balanced) (hle : M'.Before T)
    (hbinders : ∀ p ∈ ((fs.flatMap fun f => Parser.quotedTree f.2).flatMap Expr.binders).zip
      ((fs'.flatMap fun f => Parser.quotedTree f.2).flatMap Expr.binders),
      Partners (a.sites top) (b.sites top') p.1 p.2)
    (houtline : (fs.flatMap fun f => f.2.trees).flatMap (Expr.outline []) ++ l =
      (fs'.flatMap fun f => f.2.trees).flatMap (Expr.outline []) ++ l') :
    List.Forall₂ (fun f f' => f'.1 = f.1 ∧ ValueMirrored r (Kept top top' a b r) (Met T) f.2 f'.2) fs fs' ∧
      l = l' := by
  induction hagrees with
  | nil => exact ⟨.nil, houtline⟩
  | @cons M M₁ M' B f f' fs fs' hfield hrest ih =>
    cases hfield with
    | @mk _ _ _ name v v' hvalue =>
      rw [List.forall_mem_cons] at hfs hfs' htrees hclosure
      simp only [List.flatMap_cons, List.flatMap_append, List.append_assoc] at houtline hbinders
      have hfirst : Grows a.Reaches b.Reaches T M M₁ :=
        hvalue.grows hfs.1.closures hfs'.1.closures fun t ht t' ht' _ _ hagrees =>
          grows_of_within (hfs.1.trees t ht).1 (hfs'.1.trees t' ht').1 hagrees
      have hgrows : Grows a.Reaches b.Reaches T M₁ M' :=
        Field.threaded_grows hrest
          (fun f hf => ⟨(hfs.2 f hf).closures, fun t ht => reaches_within ((hfs.2 f hf).trees t ht).1⟩)
          (fun f hf => ⟨(hfs'.2 f hf).closures, fun t ht => reaches_within ((hfs'.2 f hf).trees t ht).1⟩)
      obtain ⟨hmatched, houtline⟩ := compares_value hfs.1 hfs'.1 htrees.1 hclosure.1 hvalue hbalanced
        (hgrows.before.trans hle) (fun p hp => hbinders p (mem_zip_append hp)) houtline
      rw [List.zip_append hmatched.length_binders] at hbinders
      obtain ⟨hall, hl⟩ := ih hfs.2 hfs'.2 htrees.2 hclosure.2 (hfirst.balanced hbalanced) hle
        (fun p hp => hbinders p (List.mem_append_right _ hp)) houtline
      exact ⟨.cons ⟨rfl, hmatched⟩ hall, hl⟩

/-- A closure is matched, if the trees in it are: the table tells which fields stand side by side. -/
theorem SideBySide.compares_closure (h : SideBySide top top' a b T r) (c : Closure Value)
    (ih : ∀ t ∈ c.trees, Compares top top' a b T r t) : ComparesClosure top top' a b T r c := by
  intro c' l l' hc hc' hplace houtline
  obtain ⟨d, d', hd, hd', hid, hid', hname, M₀, B, M₁, hbalanced, hfields, hle⟩ :=
    h.logged.entry _ _ hplace
  obtain rfl : c = d := h.source.eq_of_id hc hd hid.symm
  obtain rfl : c' = d' := h.source'.eq_of_id hc' hd' hid'.symm
  have hbinders : ∀ p ∈ (c.ownTrees.flatMap Expr.binders).zip (c'.ownTrees.flatMap Expr.binders),
      Partners (a.sites top) (b.sites top') p.1 p.2 := by
    intro p hp
    refine ⟨.captured c.name, _, _, ?_, ?_, hp⟩
    · exact List.mem_append_right _ (List.mem_append_left _
        (List.mem_map_of_mem (h.source.closes.mem_of_reaches hc)))
    · rw [hname]
      exact List.mem_append_right _ (List.mem_append_left _
        (List.mem_map_of_mem (h.source'.closes.mem_of_reaches hc')))
  obtain ⟨hmatched, hl⟩ := compares_fields (hc.heldBy h.sealed) (hc'.heldBy h.sealed')
    (fun f hf t ht => ih t (List.mem_flatMap.2 ⟨f, hf, ht⟩))
    (fun f hf e he => h.compares_closure e fun t ht =>
      ih t (List.mem_flatMap.2 ⟨f, hf, by rw [he, Value.trees_closure]; exact ht⟩))
    hfields hbalanced hle hbinders houtline
  have hall : ∀ f ∈ c.fields, ∃ v', ValueMirrored r (Kept top top' a b r) (Met T) f.2 v' :=
    ((List.forall₂_and_left _ _).1 (hmatched.imp fun f f' hff' => ⟨⟨f'.2, hff'.2⟩, hff'⟩)).1
  refine ⟨⟨?_, ?_, ?_⟩, hl⟩
  · have hfields : c'.fields.map (fun f => (f.1, f.2.recast {})) =
        c.fields.map fun f => (f.1, f.2.recast r) := by
      rw [← List.forall₂_eq_eq_eq, List.forall₂_map_left_iff, List.forall₂_map_right_iff]
      exact hmatched.flip.imp fun f f' hff' => Prod.ext hff'.1 hff'.2.alike
    rw [Value.recast_closure, Value.recast_closure, Closure.recast, Closure.recast,
      Value.recastFields_eq_map, Value.recastFields_eq_map, hfields, h.closure _ _ hplace, hname]
    rfl
  · rw [Value.closures_closure, List.forall_mem_cons]
    refine ⟨⟨_, hplace⟩, fun e he => ?_⟩
    obtain ⟨f, hf, he⟩ := List.mem_flatMap.1 he
    obtain ⟨v', hv'⟩ := hall f hf
    exact hv'.closures e he
  · rw [Value.trees_closure]
    intro t ht
    obtain ⟨f, hf, ht⟩ := List.mem_flatMap.1 ht
    obtain ⟨v', hv'⟩ := hall f hf
    exact hv'.trees t ht
termination_by sizeOf c
decreasing_by
  obtain ⟨name, v⟩ := f
  obtain rfl : v = .closure e := he
  exact Closure.sizeOf_lt_of_field hf

end Fields

theorem Expr.binders_constant (k : Nat) (t : Expr) (ty : Ty) :
    (Expr.mk k (.constant (.tree t) ty)).binders = t.binders := by
  rw [binders, gather_eq]
  simp [inner, children, Node.children, Node.quoted, Node.params]

theorem Expr.mem_freeVars_tree {k : Nat} {t : Expr} {ty : Ty} {v : Variable} (hv : v ∈ t.freeVars) :
    v ∈ (Expr.mk k (.constant (.tree t) ty)).freeVars :=
  mem_freeVars.2 (.inr ⟨by simp [Node.params], t, by simp [Node.quoted], hv⟩)

/-- A constant is matched if its payload is. -/
theorem SideBySide.compares_of_payload (h : SideBySide top top' a b T r) {x : Expr}
    (hconstant : x.node.kind = .constant) (ih : ∀ t ∈ x.node.payload, Compares top top' a b T r t) :
    Compares top top' a b T r x := by
  intro y M M' B scope scope' l l' hx hy hagrees hbalanced hle hpos houtline
  obtain ⟨k, n⟩ := x
  obtain ⟨k', n'⟩ := y
  cases hagrees.node with
  | @constant _ _ _ v v' ty hvalue =>
    suffices hmatched : ValueMirrored r (Kept top top' a b r) (Met T) v v' ∧ l = l' from
      ⟨hmatched.1.matched, hmatched.2⟩
    rw [Expr.outline_constant, Expr.outline_constant, List.cons_append, List.cons_append] at houtline
    have houtline := (List.cons.inj houtline).2
    obtain ⟨t, t', rfl, rfl, ht⟩ | ⟨c, c', rfl, rfl, hplace⟩ | ⟨rfl, hnone, hclosures, hsame⟩ :=
      hvalue.cases hbalanced
    · have hpart : t ∈ (Expr.mk k (.constant (.tree t) ty)).parts := by simp [Expr.parts, Node.payload]
      have hpart' : t' ∈ (Expr.mk k' (.constant (.tree t') ty)).parts := by simp [Expr.parts, Node.payload]
      have hposition : SamePosition top top' (Partners (a.sites top) (b.sites top')) {} scope scope' t t' := by
        have hbinders := hpos.binders
        rw [Expr.binders_constant, Expr.binders_constant] at hbinders
        exact ⟨hbinders, hpos.scopes, by simp, fun v hv => hpos.free v (Expr.mem_freeVars_tree hv),
          fun w hw => hpos.free' w (Expr.mem_freeVars_tree hw)⟩
      simp only [Value.trees_tree, List.flatMap_singleton, Node.scopeInside, Node.params, List.reverse_nil,
        List.nil_append] at houtline
      obtain ⟨hmatched, hl⟩ := ih t (by simp [Node.payload]) ((Expr.within_of_mem_parts hpart).trans hx)
        ((Expr.within_of_mem_parts hpart').trans hy) ht hbalanced hle hposition houtline
      exact ⟨hmatched.value, hl⟩
    · rw [Value.trees_closure, Value.trees_closure] at houtline
      refine h.compares_closure c (fun t ht => ih t ?_) ⟨_, hx, by simp [Node.closures, Value.closures]⟩
        ⟨_, hy, by simp [Node.closures, Value.closures]⟩ (hplace.mono hle) houtline
      simpa [Node.payload] using ht
    · rw [hnone] at houtline
      exact ⟨⟨by rw [hsame, hsame], by simp [hclosures], by simp [hnone]⟩, houtline⟩
  | _ => cases hconstant

/-- Every expression of the first tree is matched. -/
theorem SideBySide.compares (h : SideBySide top top' a b T r) (x : Expr) : Compares top top' a b T r x := by
  induction x using Expr.partInduction with | step x ih => ?_
  by_cases hconstant : x.node.kind = .constant
  · exact h.compares_of_payload hconstant fun t ht => ih t (List.mem_append_right _ ht)
  · exact h.compares_of_children hconstant fun c hc => ih c (Expr.mem_parts_of_mem_children hc)

end Place

/-! ## Sources -/

/-- The tree of a source with its free variables: their names differ, and a parameter is none of them. -/
structure OfSource (top : List Variable) (e : Expr) : Prop where
  source : FromSource e
  sealed : e.Everywhere fun x => ∀ t ∈ x.node.captured, ∀ v ∈ t.freeVars, v ∈ top
  params : e.Everywhere fun x => ∀ v ∈ x.node.params, v ∉ top
  closed : ∀ v ∈ e.freeVars, v ∈ top
  names : (top.map (·.name)).Nodup

theorem ofSource_of_parseTree {source : String} {supply supply' : Supply} {e : Expr}
    (h : parseTree source supply = .ok (e, supply')) : OfSource (freeVariables source supply) e where
  source := fromSource_of_parseTree h
  sealed := (grounded_of_parseTree h).seals.imp fun _ hx => hx.captured_closed
  params := (grounded_of_parseTree h).seals.imp fun _ hx => hx.params_inner
  closed := (grounded_of_parseTree h).closed
  names := nodup_names_freeVariables source supply

section Sources

variable {top top' : List Variable} {a b : Expr} {T : Sides Nat}

theorem OfSource.nodup_sites (h : OfSource top a) : ((a.sites top).map (·.1)).Nodup := by
  have hfree : (top.map fun v => Site.free v.name).Nodup := by
    have hnames := h.names.map (f := Site.free) fun _ _ heq => Site.free.inj heq
    rwa [List.map_map] at hnames
  have hcaptured : ((closuresOf a).map fun c => Site.captured c.name).Nodup := by
    have hnames := h.source.names.map (f := Site.captured) fun _ _ heq => Site.captured.inj heq
    rwa [List.map_map] at hnames
  simp only [Expr.sites, List.map_append, List.map_map, Function.comp_def, List.map_cons, List.map_nil]
  refine hfree.append (hcaptured.append (List.nodup_singleton _) ?_) ?_
  · intro s hs htree
    obtain ⟨c, -, rfl⟩ := List.mem_map.1 hs
    simp at htree
  · intro s hs hrest
    obtain ⟨v, -, rfl⟩ := List.mem_map.1 hs
    simp at hrest

/-- Every variable is bound once. -/
theorem OfSource.nodup_variables (h : OfSource top a) : ((a.sites top).flatMap (·.2)).Nodup := by
  have hsites : (a.sites top).flatMap (·.2) = top ++ a.printed.flatMap Expr.binders := by
    simp [Expr.sites, Expr.printed, Names.scanned, List.flatMap_map, List.flatMap_assoc]
  rw [hsites]
  refine (h.names.of_map _).append h.source.nodup.of_append_right ?_
  intro v hv hbinder
  obtain ⟨t, ht, hbinder⟩ := List.mem_flatMap.1 hbinder
  obtain ⟨x, hx, hparam⟩ := Expr.mem_gather.1 hbinder
  exact h.params x (hx.within.trans (h.source.within ht)) v hparam hv

/-- Trees that agree and have the same outline are the same up to identities, and what the bytes show
by name keeps its name. -/
theorem exists_recasting_of_agrees (ha : OfSource top a) (hb : OfSource top' b)
    (hagrees : a.Agrees {} {} b T) (houtline : a.outline [] = b.outline []) :
    ∃ r : Recasting, b.recast {} = a.recast r ∧ r.Faithful a ∧ r.owner = id ∧
      ∀ v, a.GivesByName v → (r.var v).name = v.name := by
  classical
  have hunique : ∀ v w w', Partners (a.sites top) (b.sites top') v w →
      Partners (a.sites top) (b.sites top') v w' → w = w' := fun v w w' =>
    Partners.unique ha.nodup_variables hb.nodup_sites
  let r : Recasting :=
    { var := fun v => if h : ∃ w, Partners (a.sites top) (b.sites top') v w then h.choose else v
      closure := fun i => if h : ∃ j, T.SamePlace i j then h.choose else i }
  have hvar : ∀ v w, Partners (a.sites top) (b.sites top') v w → r.var v = w := by
    intro v w hvw
    have hex : ∃ w, Partners (a.sites top) (b.sites top') v w := ⟨w, hvw⟩
    simp only [r, dif_pos hex]
    exact hunique v _ _ hex.choose_spec hvw
  have hclosure : ∀ i j, T.SamePlace i j → r.closure i = j := by
    intro i j hij
    have hex : ∃ j, T.SamePlace i j := ⟨j, hij⟩
    simp only [r, dif_pos hex]
    exact hex.choose_spec.eq_right hij
  have hlogged : Logged a.Reaches b.Reaches T T :=
    (grows_of_within (.here a) (.here b) hagrees).logged (.refl T)
      ⟨rfl, fun i j ⟨k, hk, _⟩ => by simp at hk⟩
  have hside : SideBySide top top' a b T r :=
    ⟨ha.source, hb.source, ha.sealed, hb.sealed, hlogged, rfl, hvar, hclosure⟩
  have hposition : SamePosition top top' (Partners (a.sites top) (b.sites top')) {} [] [] a b := by
    refine ⟨fun p hp => ⟨.tree, _, _, ?_, ?_, hp⟩, .nil, by simp, fun v hv => .inr (ha.closed v hv),
      fun v hv => .inr (hb.closed v hv)⟩
    · simp [Expr.sites]
    · simp [Expr.sites]
  have hmatched := (hside.compares a (.here a) (.here b) hagrees rfl (.refl T) hposition
    (congrArg (· ++ []) houtline)).1
  have hkept : ∀ v, a.Uses v → Kept top top' a b r v := fun v ⟨x, hx, hv⟩ =>
    (hmatched.survives x hx).vars v hv
  refine ⟨r, hmatched.alike, ⟨fun v w hv hw heq => ?_, fun v hv => (hkept v hv).2, ?_⟩, rfl, ?_⟩
  · have hw := (hkept w hw).1.symm
    rw [← heq] at hw
    exact Partners.unique hb.nodup_variables ha.nodup_sites (hkept v hv).1.symm hw
  · rintro _ _ ⟨x, hx, c, hc, rfl⟩ ⟨y, hy, d, hd, rfl⟩ heq
    obtain ⟨i, hi⟩ := (hmatched.survives x hx).closures c hc
    obtain ⟨j, hj⟩ := (hmatched.survives y hy).closures d hd
    obtain rfl : i = j := (hclosure _ _ hi).symm.trans (heq.trans (hclosure _ _ hj))
    exact hi.eq_left hj
  · rintro v (hv | ⟨x, hx, t, ht, hv⟩)
    · exact hmatched.named v hv (by simp)
    · exact (hmatched.survives x hx).carried t ht v hv

end Sources

end ExprTree
