import ExprTree.Walk.Basic

/-!
# What a walk yields

`Walk.Yields` says that a step of a walk succeeds, with what result and in which state, and
`Walk.Fails` that it fails. Their lemmas take a step apart, and put steps together, without opening
the monad. `Walk.Room` says how many
levels the guard still lets a walk enter; a step that finds room enough and restores the guard
succeeds guarded as it does unguarded.
-/

namespace ExprTree

namespace Walk

variable {σ α β : Type} {st st' : WalkState σ}

/-! ## Steps -/

/-- From state `st` the step succeeds with `a`, in state `st'`. -/
def Yields (x : Walk σ α) (st : WalkState σ) (a : α) (st' : WalkState σ) : Prop :=
  x st = (.ok a, st')

/-- A step has one outcome. -/
theorem Yields.unique {x : Walk σ α} {a b : α} {st₁ st₂ : WalkState σ}
    (ha : x.Yields st a st₁) (hb : x.Yields st b st₂) : a = b ∧ st₁ = st₂ := by
  have h : (Except.ok a, st₁) = (Except.ok b, st₂) := ha.symm.trans hb
  cases h
  exact ⟨rfl, rfl⟩

theorem yields_pure {a b : α} : (pure a : Walk σ α).Yields st b st' ↔ b = a ∧ st' = st := by
  constructor
  · intro h
    cases h
    exact ⟨rfl, rfl⟩
  · rintro ⟨rfl, rfl⟩
    rfl

theorem run_bind (x : Walk σ α) (f : α → Walk σ β) (st : WalkState σ) :
    (x >>= f) st = match x st with
      | (.ok a, st₁) => f a st₁
      | (.error e, st₁) => (.error e, st₁) := by
  change (ExceptT.bindCont f (x st).1) (x st).2 = _
  rcases x st with ⟨_ | a, st₁⟩ <;> rfl

theorem yields_bind {x : Walk σ α} {f : α → Walk σ β} {b : β} :
    (x >>= f).Yields st b st' ↔ ∃ a st₁, x.Yields st a st₁ ∧ (f a).Yields st₁ b st' := by
  unfold Yields
  rw [run_bind]
  rcases x st with ⟨_ | a, st₁⟩
  · constructor
    · intro h
      cases h
    · rintro ⟨_, _, h, -⟩
      cases h
  · constructor
    · intro h
      exact ⟨a, st₁, rfl, h⟩
    · rintro ⟨_, _, h, hf⟩
      cases h
      exact hf

theorem not_yields_throw {e : Failure} {a : α} : ¬ (throw e : Walk σ α).Yields st a st' := by
  intro h
  cases h

theorem yields_liftM {x : Except Failure α} {a : α} :
    (liftM x : Walk σ α).Yields st a st' ↔ x = .ok a ∧ st' = st := by
  rcases x with _ | b
  · constructor
    · intro h
      cases h
    · rintro ⟨h, -⟩
      cases h
  · constructor
    · intro h
      cases h
      exact ⟨rfl, rfl⟩
    · rintro ⟨h, rfl⟩
      cases h
      rfl

theorem yields_modifyOwn {f : σ → σ} {u : Unit} :
    (modifyOwn f).Yields st u st' ↔ st' = { st with own := f st.own } := by
  constructor
  · intro h
    cases h
    rfl
  · rintro rfl
    rfl

theorem yields_alloc {n : Node} {e : Expr} :
    (alloc n).Yields st e st' ↔
      e = .mk st.supply.next n ∧ st' = { st with supply := ⟨st.supply.next + 1⟩ } := by
  constructor
  · intro h
    cases h
    exact ⟨rfl, rfl⟩
  · rintro ⟨rfl, rfl⟩
    rfl

/-! ## Failing steps -/

/-- From state `st` the step fails with `failure`. -/
def Fails (x : Walk σ α) (st : WalkState σ) (failure : Failure) : Prop :=
  ∃ st', x st = (.error failure, st')

/-- A step succeeds or fails. -/
theorem yields_or_fails (x : Walk σ α) (st : WalkState σ) :
    (∃ a st', x.Yields st a st') ∨ ∃ failure, x.Fails st failure := by
  rcases hx : x st with ⟨failure | a, st'⟩
  · exact .inr ⟨failure, st', hx⟩
  · exact .inl ⟨a, st', hx⟩

theorem not_fails_pure {a : α} {failure : Failure} : ¬ (pure a : Walk σ α).Fails st failure := by
  rintro ⟨_, h⟩
  cases h

theorem fails_throw {e failure : Failure} : (throw e : Walk σ α).Fails st failure ↔ failure = e := by
  constructor
  · rintro ⟨_, h⟩
    cases h
    rfl
  · rintro rfl
    exact ⟨st, rfl⟩

theorem not_fails_alloc {n : Node} {failure : Failure} :
    ¬ (alloc n : Walk σ Expr).Fails st failure := by
  rintro ⟨_, h⟩
  cases h

theorem fails_bind {x : Walk σ α} {f : α → Walk σ β} {failure : Failure} :
    (x >>= f).Fails st failure ↔
      x.Fails st failure ∨ ∃ a st₁, x.Yields st a st₁ ∧ (f a).Fails st₁ failure := by
  unfold Fails Yields
  rw [run_bind]
  rcases x st with ⟨_ | a, st₁⟩
  · constructor
    · rintro ⟨_, h⟩
      cases h
      exact .inl ⟨st₁, rfl⟩
    · rintro (⟨_, h⟩ | ⟨_, _, h, -⟩)
      · cases h
        exact ⟨st₁, rfl⟩
      · cases h
  · constructor
    · intro h
      exact .inr ⟨a, st₁, rfl, h⟩
    · rintro (⟨_, h⟩ | ⟨_, _, h, hf⟩)
      · cases h
      · cases h
        exact hf

/-! ## Levels -/

/-- The guard lets at least `n` further levels be entered. -/
def Room (n : Nat) (st : WalkState σ) : Prop := ∃ g, st.guard = some g ∧ g.depth + n ≤ g.limit

theorem Room.mono {m n : Nat} (h : Room n st) (hle : m ≤ n) : Room m st := by
  obtain ⟨g, hg, hroom⟩ := h
  exact ⟨g, hg, by omega⟩

theorem Room.of_guard {n : Nat} (h : Room n st) (hguard : st'.guard = st.guard) : Room n st' := by
  unfold Room
  rw [hguard]
  exact h

/-- A guarded step that succeeds is the step itself, run under another guard. -/
theorem Yields.of_guarded {x : Walk σ α} {a : α} (h : (guarded x).Yields st a st') :
    ∃ g st₁, x.Yields { st with guard := g } a st₁ ∧
      st'.supply = st₁.supply ∧ st'.own = st₁.own := by
  simp only [Yields, guarded] at h
  split at h
  · next hg =>
    exact ⟨none, st', by rw [← hg]; exact h, rfl, rfl⟩
  · split at h
    · cases h
    · next g' _ =>
      rcases hx : x { st with guard := some g' } with ⟨r, st₁⟩
      rw [hx] at h
      cases h
      exact ⟨some g', st₁, hx, rfl, rfl⟩

/-- With room for one more level there is a state one level further down. A step that succeeds there
and restores the guard succeeds guarded, and the guard is as it was. -/
theorem Room.enter {n : Nat} (h : Room (n + 1) st) :
    ∃ st₀ : WalkState σ, st₀.supply = st.supply ∧ st₀.own = st.own ∧ Room n st₀ ∧
      ∀ (x : Walk σ α) a st₁, x.Yields st₀ a st₁ → st₁.guard = st₀.guard →
        (guarded x).Yields st a { st₁ with guard := st.guard } := by
  obtain ⟨g, hg, hle⟩ := h
  have hlt : g.depth < g.limit := by omega
  have henter : g.enter? = some { g with depth := g.depth + 1 } := if_pos hlt
  refine ⟨{ st with guard := some { g with depth := g.depth + 1 } }, rfl, rfl,
    ⟨_, rfl, by simp only; omega⟩, fun x a st₁ hrun hguard => ?_⟩
  -- one level down and up again is where the guard was
  have hleave : st₁.guard.map Guard.leave = st.guard := by
    rw [hguard, hg]
    rfl
  simp only [Yields, guarded, hg, henter]
  rw [show x { st with guard := some { g with depth := g.depth + 1 } } = (.ok a, st₁) from hrun]
  simp only [hleave, hg]

/-! ## Lists -/

/-- Visits the items of a list in order. -/
abbrev each (f : α → Walk σ β) (xs : List α) : Walk σ (List β) := visitList xs fun x _ => f x

theorem yields_each_nil {f : α → Walk σ β} {bs : List β} :
    (each f []).Yields st bs st' ↔ bs = [] ∧ st' = st := yields_pure

theorem yields_each_cons {f : α → Walk σ β} {x : α} {xs : List α} {bs : List β} :
    (each f (x :: xs)).Yields st bs st' ↔ ∃ b st₁ cs, (f x).Yields st b st₁ ∧
      (each f xs).Yields st₁ cs st' ∧ bs = b :: cs := by
  simp only [each, visitList, yields_bind, yields_pure]
  constructor
  · rintro ⟨b, st₁, hb, cs, _, hcs, rfl, rfl⟩
    exact ⟨b, st₁, cs, hb, hcs, rfl⟩
  · rintro ⟨b, st₁, cs, hb, hcs, rfl⟩
    exact ⟨b, st₁, hb, cs, st', hcs, rfl, rfl⟩

theorem yields_each_one {f : α → Walk σ β} {x : α} {bs : List β} :
    (each f [x]).Yields st bs st' ↔ ∃ b, (f x).Yields st b st' ∧ bs = [b] := by
  simp only [yields_each_cons, yields_each_nil]
  constructor
  · rintro ⟨b, _, _, hb, ⟨rfl, rfl⟩, rfl⟩
    exact ⟨b, hb, rfl⟩
  · rintro ⟨b, hb, rfl⟩
    exact ⟨b, st', [], hb, ⟨rfl, rfl⟩, rfl⟩

theorem yields_each_append {f : α → Walk σ β} {xs ys : List α} {bs : List β} :
    (each f (xs ++ ys)).Yields st bs st' ↔ ∃ cs st₁ ds, (each f xs).Yields st cs st₁ ∧
      (each f ys).Yields st₁ ds st' ∧ bs = cs ++ ds := by
  induction xs generalizing st bs with
  | nil =>
    simp only [List.nil_append, yields_each_nil]
    constructor
    · intro h
      exact ⟨[], st, bs, ⟨rfl, rfl⟩, h, rfl⟩
    · rintro ⟨_, _, ds, ⟨rfl, rfl⟩, h, rfl⟩
      exact h
  | cons x xs ih =>
    simp only [List.cons_append, yields_each_cons, ih]
    constructor
    · rintro ⟨b, st₁, _, hb, ⟨cs, st₂, ds, hcs, hds, rfl⟩, rfl⟩
      exact ⟨b :: cs, st₂, ds, ⟨b, st₁, cs, hb, hcs, rfl⟩, hds, rfl⟩
    · rintro ⟨_, st₂, ds, ⟨b, st₁, cs, hb, hcs, rfl⟩, hds, rfl⟩
      exact ⟨b, st₁, cs ++ ds, hb, ⟨cs, st₂, ds, hcs, hds, rfl⟩, rfl⟩

theorem not_fails_each_nil {f : α → Walk σ β} {failure : Failure} :
    ¬ (each f []).Fails st failure := not_fails_pure

theorem fails_each_cons {f : α → Walk σ β} {x : α} {xs : List α} {failure : Failure} :
    (each f (x :: xs)).Fails st failure ↔ (f x).Fails st failure ∨
      ∃ b st₁, (f x).Yields st b st₁ ∧ (each f xs).Fails st₁ failure := by
  simp only [each, visitList, fails_bind, not_fails_pure, and_false, exists_false, or_false]

theorem fails_each_one {f : α → Walk σ β} {x : α} {failure : Failure} :
    (each f [x]).Fails st failure ↔ (f x).Fails st failure := by
  simp only [fails_each_cons, not_fails_each_nil, and_false, exists_false, or_false]

theorem fails_each_append {f : α → Walk σ β} {xs ys : List α} {failure : Failure} :
    (each f (xs ++ ys)).Fails st failure ↔ (each f xs).Fails st failure ∨
      ∃ cs st₁, (each f xs).Yields st cs st₁ ∧ (each f ys).Fails st₁ failure := by
  induction xs generalizing st with
  | nil =>
    simp only [List.nil_append, not_fails_each_nil, yields_each_nil, false_or]
    exact ⟨fun h => ⟨[], st, ⟨rfl, rfl⟩, h⟩, fun ⟨_, _, ⟨_, heq⟩, h⟩ => heq ▸ h⟩
  | cons x xs ih =>
    simp only [List.cons_append, fails_each_cons, yields_each_cons, ih]
    constructor
    · rintro (hx | ⟨b, st₁, hb, hxs | ⟨cs, st₂, hcs, hys⟩⟩)
      · exact .inl (.inl hx)
      · exact .inl (.inr ⟨b, st₁, hb, hxs⟩)
      · exact .inr ⟨b :: cs, st₂, ⟨b, st₁, cs, hb, hcs, rfl⟩, hys⟩
    · rintro ((hx | ⟨b, st₁, hb, hxs⟩) | ⟨_, st₂, ⟨b, st₁, cs, hb, hcs, rfl⟩, hys⟩)
      · exact .inl hx
      · exact .inr ⟨b, st₁, hb, .inl hxs⟩
      · exact .inr ⟨b, st₁, hb, .inr ⟨cs, st₂, hcs, hys⟩⟩

theorem Yields.length_eq {f : α → Walk σ β} {xs : List α} {bs : List β}
    (h : (each f xs).Yields st bs st') : bs.length = xs.length := by
  induction xs generalizing st bs with
  | nil =>
    obtain ⟨rfl, -⟩ := yields_each_nil.1 h
    rfl
  | cons x xs ih =>
    obtain ⟨b, st₁, cs, -, hcs, rfl⟩ := yields_each_cons.1 h
    simp only [List.length_cons, ih hcs]

end Walk

end ExprTree
