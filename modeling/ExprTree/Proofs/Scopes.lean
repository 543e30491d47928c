import ExprTree.Expansion.Scope

/-!
# Scopes as lists of bindings

A scope is looked up along its bindings, the innermost first. `Scope.extend` succeeds exactly if the
new parameters are distinct and none of them is bound yet, and then it puts the new bindings in
front (`Scope.extend_eq_ok_iff`).
-/

namespace ExprTree.Scope

variable {s s' : Scope}

/-- The parameters that a scope binds. -/
def params (s : Scope) : List Variable := s.bindings.map (·.1)

theorem mem_bindings_of_lookup? {v : Variable} {e : Expr} (h : s.lookup? v = some e) :
    (v, e) ∈ s.bindings := by
  obtain ⟨l₁, l₂, hbindings, -⟩ := List.lookup_eq_some_iff.1 h
  rw [hbindings]
  exact List.mem_append_right _ List.mem_cons_self

private theorem lookup_eq_none_iff_not_mem {pairs : List (Variable × Expr)} {v : Variable} :
    pairs.lookup v = none ↔ v ∉ pairs.map (·.1) := by
  simp only [List.lookup_eq_none_iff, List.mem_map, not_exists, not_and]
  constructor
  · intro h p hp hv
    have := h p hp
    simp [hv] at this
  · intro h p hp
    have := h p hp
    simp only [bne_iff_ne, ne_eq]
    exact fun hv => this hv.symm

theorem lookup?_eq_none_iff {v : Variable} : s.lookup? v = none ↔ v ∉ s.params :=
  lookup_eq_none_iff_not_mem

theorem bindAll_eq_ok_iff {frame frame' pairs : List (Variable × Expr)} :
    s.bindAll frame pairs = .ok frame' ↔ frame' = frame ++ pairs ∧ (pairs.map (·.1)).Nodup ∧
      ∀ p ∈ pairs, p.1 ∉ s.params ∧ p.1 ∉ frame.map (·.1) := by
  induction pairs generalizing frame with
  | nil =>
    simp only [bindAll, Except.ok.injEq, List.append_nil, List.map_nil, List.nodup_nil,
      List.not_mem_nil, false_implies, implies_true, and_true]
    exact eq_comm
  | cons p rest ih =>
    obtain ⟨v, e⟩ := p
    have hbound : (s.binds v || (frame.lookup v).isSome) = true ↔
        ¬ (v ∉ s.params ∧ v ∉ frame.map (·.1)) := by
      rw [← lookup?_eq_none_iff, ← lookup_eq_none_iff_not_mem, binds]
      cases s.lookup? v <;> cases frame.lookup v <;> simp
    simp only [bindAll]
    split
    · next h =>
      constructor
      · intro h'
        cases h'
      · rintro ⟨-, -, hfree⟩
        exact absurd (hfree (v, e) List.mem_cons_self) (hbound.1 h)
    · next h =>
      have hfree : v ∉ s.params ∧ v ∉ frame.map (·.1) := by
        by_cases hv : v ∉ s.params ∧ v ∉ frame.map (·.1)
        · exact hv
        · exact absurd (hbound.2 hv) h
      rw [ih]
      -- a later parameter must also differ from the one that was just bound
      simp only [List.append_assoc, List.singleton_append, List.map_append, List.map_cons,
        List.map_nil, List.mem_append, List.mem_cons, List.not_mem_nil, or_false, not_or,
        List.nodup_cons, List.mem_map]
      constructor
      · rintro ⟨rfl, hnodup, hrest⟩
        refine ⟨rfl, ⟨?_, hnodup⟩, ?_⟩
        · rintro ⟨q, hq, hqv⟩
          exact (hrest q hq).2.2 hqv
        · rintro q (rfl | hq)
          · exact ⟨hfree.1, by simpa using hfree.2⟩
          · exact ⟨(hrest q hq).1, (hrest q hq).2.1⟩
      · rintro ⟨rfl, ⟨hv, hnodup⟩, hrest⟩
        refine ⟨rfl, hnodup, fun q hq => ⟨(hrest q (.inr hq)).1, (hrest q (.inr hq)).2, ?_⟩⟩
        intro hqv
        exact hv ⟨q, hq, hqv⟩

/-- A scope can be extended by distinct parameters that it does not bind, and by no others. -/
theorem extend_eq_ok_iff {pairs : List (Variable × Expr)} :
    s.extend pairs = .ok s' ↔ s' = ⟨pairs :: s.frames⟩ ∧ (pairs.map (·.1)).Nodup ∧
      ∀ p ∈ pairs, p.1 ∉ s.params := by
  have hbind : ∀ frame, s.bindAll [] pairs = .ok frame ↔
      frame = pairs ∧ (pairs.map (·.1)).Nodup ∧ ∀ p ∈ pairs, p.1 ∉ s.params := by
    intro frame
    rw [bindAll_eq_ok_iff]
    simp only [List.nil_append, List.map_nil, List.not_mem_nil, not_false_eq_true, and_true]
  constructor
  · intro h
    cases hframe : s.bindAll [] pairs with
    | error failure =>
      simp only [extend, hframe] at h
      cases h
    | ok frame =>
      simp only [extend, hframe] at h
      cases h
      obtain ⟨rfl, hnodup, hfree⟩ := (hbind frame).1 hframe
      exact ⟨rfl, hnodup, hfree⟩
  · rintro ⟨rfl, hnodup, hfree⟩
    simp only [extend, (hbind pairs).2 ⟨rfl, hnodup, hfree⟩]
    rfl

/-- Extending a scope can fail in one way. -/
theorem failure_of_bindAll {frame pairs : List (Variable × Expr)} {failure : Failure}
    (h : s.bindAll frame pairs = .error failure) :
    ∃ p ∈ pairs, failure = .recursiveBinding p.1.name := by
  induction pairs generalizing frame with
  | nil => cases h
  | cons p rest ih =>
    obtain ⟨v, e⟩ := p
    simp only [bindAll] at h
    split at h
    · cases h
      exact ⟨(v, e), List.mem_cons_self, rfl⟩
    · obtain ⟨p, hp, hfailure⟩ := ih h
      exact ⟨p, List.mem_cons_of_mem _ hp, hfailure⟩

theorem failure_of_extend {pairs : List (Variable × Expr)} {failure : Failure}
    (h : s.extend pairs = .error failure) : ∃ p ∈ pairs, failure = .recursiveBinding p.1.name := by
  cases hframe : s.bindAll [] pairs with
  | error failure' =>
    simp only [extend, hframe] at h
    cases h
    exact failure_of_bindAll hframe
  | ok frame =>
    simp only [extend, hframe] at h
    cases h

theorem bindings_of_extend {pairs : List (Variable × Expr)} (h : s.extend pairs = .ok s') :
    s'.bindings = pairs ++ s.bindings := by
  obtain ⟨rfl, -, -⟩ := extend_eq_ok_iff.1 h
  rfl

end ExprTree.Scope
