import Mathlib.Data.List.Forall2
import Mathlib.Order.Basic
import ExprTree.Proofs.Traversal

/-!
# Two walks side by side

`Walk.Pairing.Tracks` compares two walks that start in related states at the same depth: both succeed
with related results, or both fail with related failures, or the first one is cut short by its depth
limit while the limit of the second is larger. The lemmas put such comparisons together as the walks
are put together, so that a comparison of two runs needs one case for each thing a visit does.

What relates the results may change as nodes are made; it is stated in a *world*, and worlds only grow.
-/

namespace ExprTree

namespace Walk

section Guarded

variable {σ α : Type}

theorem guarded_inside {st : WalkState σ} {limit depth : Nat} (hguard : st.guard = some ⟨limit, depth⟩)
    (hlt : depth < limit) (x : Walk σ α) : guarded x st =
      ((x { st with guard := some ⟨limit, depth + 1⟩ }).1,
        { (x { st with guard := some ⟨limit, depth + 1⟩ }).2 with
          guard := (x { st with guard := some ⟨limit, depth + 1⟩ }).2.guard.map Guard.leave }) := by
  have henter : Guard.enter? ⟨limit, depth⟩ = some ⟨limit, depth + 1⟩ := if_pos hlt
  simp only [guarded, hguard, henter]
  rfl

theorem fails_guarded_at_limit {st : WalkState σ} {limit depth : Nat}
    (hguard : st.guard = some ⟨limit, depth⟩) (hge : limit ≤ depth) (x : Walk σ α) :
    (guarded x).Fails st (.depthExceeded limit) := by
  have henter : Guard.enter? ⟨limit, depth⟩ = none := if_neg (Nat.not_lt.2 hge)
  exact ⟨st, by simp only [guarded, hguard, henter]⟩

end Guarded

/-- How two walks are compared: the limits of their guards, what relates their supplies in a world, and
which failures count as the same. -/
structure Pairing (W : Type) where
  limit : Nat
  limit' : Nat
  limit_le : limit ≤ limit'
  supplies : W → Supply → Supply → Prop
  failures : Failure → Failure → Prop
  failures_limit : limit = limit' → failures (.depthExceeded limit) (.depthExceeded limit')

namespace Pairing

variable {W σ α β γ δ : Type} [Preorder W] {p : Pairing W} {depth : Nat} {w : W}

/-- The states of two walks that have got equally far. -/
structure Beside (p : Pairing W) (depth : Nat) (w : W) (st st' : WalkState σ) : Prop where
  guard : st.guard = some ⟨p.limit, depth⟩
  guard' : st'.guard = some ⟨p.limit', depth⟩
  own : st'.own = st.own
  supply : p.supplies w st.supply st'.supply

/-- Started beside each other, both walks succeed with results related by `Q`, or both fail in the same
way, or the first one reaches its limit, which is smaller. -/
def Tracks (p : Pairing W) (depth : Nat) (w : W) (Q : W → α → β → Prop) (x : Walk σ α)
    (y : Walk σ β) : Prop :=
  ∀ st st', p.Beside depth w st st' →
    (∃ a b st₁ st₁' w', x.Yields st a st₁ ∧ y.Yields st' b st₁' ∧ w ≤ w' ∧
      p.Beside depth w' st₁ st₁' ∧ Q w' a b) ∨
    (∃ failure failure', x.Fails st failure ∧ y.Fails st' failure' ∧ p.failures failure failure') ∨
    (p.limit < p.limit' ∧ x.Fails st (.depthExceeded p.limit))

theorem tracks_pure {Q : W → α → β → Prop} {a : α} {b : β} (h : Q w a b) :
    p.Tracks depth w Q (pure a : Walk σ α) (pure b) := fun st st' hbeside =>
  .inl ⟨a, b, st, st', w, yields_pure.2 ⟨rfl, rfl⟩, yields_pure.2 ⟨rfl, rfl⟩, le_refl w, hbeside, h⟩

theorem tracks_throw {Q : W → α → β → Prop} {failure failure' : Failure}
    (h : p.failures failure failure') :
    p.Tracks depth w Q (throw failure : Walk σ α) (throw failure') := fun _ _ _ =>
  .inr (.inl ⟨failure, failure', fails_throw.2 rfl, fails_throw.2 rfl, h⟩)

theorem tracks_modifyOwn (f : σ → σ) :
    p.Tracks depth w (fun _ _ _ => True) (modifyOwn f) (modifyOwn f) := fun _ _ hbeside =>
  .inl ⟨(), (), _, _, w, yields_modifyOwn.2 rfl, yields_modifyOwn.2 rfl, le_refl w,
    ⟨hbeside.guard, hbeside.guard', congrArg f hbeside.own, hbeside.supply⟩, trivial⟩

/-- A result of an outside computation is compared as it is. -/
theorem tracks_liftM {Q : W → α → β → Prop} {x : Except Failure α} {y : Except Failure β}
    (h : (∃ a b, x = .ok a ∧ y = .ok b ∧ Q w a b) ∨
      ∃ failure failure', x = .error failure ∧ y = .error failure' ∧ p.failures failure failure') :
    p.Tracks depth w Q (liftM x : Walk σ α) (liftM y) := by
  obtain ⟨a, b, rfl, rfl, hQ⟩ | ⟨failure, failure', rfl, rfl, hfailures⟩ := h
  · exact tracks_pure hQ
  · exact tracks_throw hfailures

theorem Tracks.bind {Q : W → α → β → Prop} {R : W → γ → δ → Prop} {x : Walk σ α} {y : Walk σ β}
    {f : α → Walk σ γ} {g : β → Walk σ δ} (hxy : p.Tracks depth w Q x y)
    (hfg : ∀ w' a b, w ≤ w' → Q w' a b → p.Tracks depth w' R (f a) (g b)) :
    p.Tracks depth w R (x >>= f) (y >>= g) := by
  intro st st' hbeside
  obtain ⟨a, b, st₁, st₁', w₁, hx, hy, hle, hbeside₁, hQ⟩ | ⟨failure, failure', hx, hy, hfailures⟩ |
    ⟨hlt, hx⟩ := hxy st st' hbeside
  · obtain ⟨c, d, st₂, st₂', w₂, hf, hg, hle₂, hbeside₂, hR⟩ | ⟨failure, failure', hf, hg, hfailures⟩ |
      ⟨hlt, hf⟩ := hfg w₁ a b hle hQ st₁ st₁' hbeside₁
    · exact .inl ⟨c, d, st₂, st₂', w₂, yields_bind.2 ⟨a, st₁, hx, hf⟩, yields_bind.2 ⟨b, st₁', hy, hg⟩,
        le_trans hle hle₂, hbeside₂, hR⟩
    · exact .inr (.inl ⟨failure, failure', fails_bind.2 (.inr ⟨a, st₁, hx, hf⟩),
        fails_bind.2 (.inr ⟨b, st₁', hy, hg⟩), hfailures⟩)
    · exact .inr (.inr ⟨hlt, fails_bind.2 (.inr ⟨a, st₁, hx, hf⟩)⟩)
  · exact .inr (.inl ⟨failure, failure', fails_bind.2 (.inl hx), fails_bind.2 (.inl hy), hfailures⟩)
  · exact .inr (.inr ⟨hlt, fails_bind.2 (.inl hx)⟩)

/-- What comes after a failure does not count. -/
theorem tracks_throw_bind {R : W → γ → δ → Prop} {failure failure' : Failure}
    (h : p.failures failure failure') (f : α → Walk σ γ) (g : β → Walk σ δ) :
    p.Tracks depth w R (throw failure >>= f) (throw failure' >>= g) :=
  Tracks.bind (Q := fun _ _ _ => False) (tracks_throw h) fun _ _ _ _ hfalse => hfalse.elim

/-! ## Guards -/

/-- One level further down the walks are beside each other again. -/
theorem Tracks.guarded {Q : W → α → β → Prop} {x : Walk σ α} {y : Walk σ β}
    (h : p.Tracks (depth + 1) w Q x y) : p.Tracks depth w Q (guarded x) (guarded y) := by
  intro st st' hbeside
  have hle := p.limit_le
  by_cases hlt : depth < p.limit
  · have hrun := guarded_inside hbeside.guard hlt x
    have hrun' := guarded_inside hbeside.guard' (Nat.lt_of_lt_of_le hlt hle) y
    obtain ⟨a, b, st₁, st₁', w', hx, hy, hgrow, hbeside₁, hQ⟩ | ⟨failure, failure', ⟨st₁, hx⟩,
      ⟨st₁', hy⟩, hfailures⟩ | ⟨hlimits, st₁, hx⟩ := h { st with guard := some ⟨p.limit, depth + 1⟩ }
        { st' with guard := some ⟨p.limit', depth + 1⟩ } ⟨rfl, rfl, hbeside.own, hbeside.supply⟩
    · rw [show x _ = _ from hx, hbeside₁.guard] at hrun
      rw [show y _ = _ from hy, hbeside₁.guard'] at hrun'
      exact .inl ⟨a, b, _, _, w', hrun, hrun', hgrow, ⟨rfl, rfl, hbeside₁.own, hbeside₁.supply⟩, hQ⟩
    · rw [hx] at hrun
      rw [hy] at hrun'
      exact .inr (.inl ⟨failure, failure', ⟨_, hrun⟩, ⟨_, hrun'⟩, hfailures⟩)
    · rw [hx] at hrun
      exact .inr (.inr ⟨hlimits, _, hrun⟩)
  · have hfails := fails_guarded_at_limit hbeside.guard (Nat.not_lt.1 hlt) x
    rcases Nat.lt_or_eq_of_le hle with hlimits | hlimits
    · exact .inr (.inr ⟨hlimits, hfails⟩)
    · exact .inr (.inl ⟨_, _, hfails,
        fails_guarded_at_limit hbeside.guard' (hlimits ▸ Nat.not_lt.1 hlt) y,
        p.failures_limit hlimits⟩)

/-! ## Lists -/

/-- Items that are compared in any later world are compared one after the other. -/
theorem tracks_each {Q : W → γ → δ → Prop} (hmono : ∀ {w w' c d}, w ≤ w' → Q w c d → Q w' c d)
    {f : α → Walk σ γ} {g : β → Walk σ δ} {xs : List α} {ys : List β}
    (h : List.Forall₂ (fun x y => ∀ w', w ≤ w' → p.Tracks depth w' Q (f x) (g y)) xs ys) :
    p.Tracks depth w (fun w' cs ds => List.Forall₂ (Q w') cs ds) (each f xs) (each g ys) := by
  suffices hlater : ∀ w', w ≤ w' → p.Tracks depth w' (fun w' cs ds => List.Forall₂ (Q w') cs ds)
      (each f xs) (each g ys) from hlater w (le_refl w)
  induction h with
  | nil => exact fun w' _ => tracks_pure .nil
  | cons hxy _ ih =>
    intro w' hle
    refine (hxy w' hle).bind fun w₁ c d hle₁ hcd => ?_
    refine (ih w₁ (le_trans hle hle₁)).bind fun w₂ cs ds hle₂ hcds => ?_
    exact tracks_pure (.cons (hmono hle₂ hcd) hcds)

end Pairing

end Walk

end ExprTree
