import Mathlib.Tactic.Linarith
import Mathlib.Tactic.Ring
import ExprTree.Proofs.NearestNumber

/-!
# The shortest decimal of a number

The decimal that is found for a number is read as the number (`Binary64.ofDecimal_shortest`). What the search
finds on a grid is in the interval of the number (`holds_of_candidate?`), so that only a search without a
result could go wrong. There is always a result on the last grid (`exists_candidate?_last`): the leading place
is never estimated too high (`ten_zpow_leadingPlace_le`), and a unit of the seventeenth digit from there is so
small that one of the two multiples around the number is in the interval (`around_or_around`).
-/

namespace ExprTree

namespace Binary64

/-! ## The leading place -/

/-- Is the number `num / den` at least `10 ^ place`? -/
def reaches (num den : Nat) (place : Int) : Bool :=
  if 0 ≤ place then den * Nat.pow 10 place.toNat ≤ num else den ≤ num * Nat.pow 10 (-place).toNat

theorem reaches_iff {num den : Nat} (hden : den ≠ 0) {place : Int} :
    reaches num den place = true ↔ (10 : ℚ) ^ place ≤ num / den := by
  rw [le_div_iff₀ (by exact_mod_cast Nat.pos_of_ne_zero hden), mul_comm]
  unfold reaches
  split
  · next h =>
    obtain ⟨n, rfl⟩ := Int.eq_ofNat_of_zero_le h
    rw [decide_eq_true_eq, Int.toNat_natCast, Nat.pow_eq, zpow_natCast]
    exact_mod_cast Iff.rfl
  · next h =>
    obtain ⟨n, hn⟩ := Int.eq_ofNat_of_zero_le (show 0 ≤ -place by omega)
    obtain rfl : place = -(n : Int) := by omega
    rw [decide_eq_true_eq, neg_neg, Int.toNat_natCast, Nat.pow_eq, zpow_neg, zpow_natCast,
      ← div_eq_mul_inv, div_le_iff₀ (by positivity)]
    exact_mod_cast Iff.rfl

/-- The leading place is reached, or it is estimated from the binary lengths. -/
theorem leadingPlace_cases (num den : Nat) : reaches num den (leadingPlace num den) = true ∨
    leadingPlace num den = ((num.log2 : Int) - den.log2) * 30103 / 100000 - 1 := by
  have hsearch : leadingPlace num den =
      let guess : Int := ((num.log2 : Int) - den.log2) * 30103 / 100000 - 1
      if reaches num den (guess + 3) then guess + 3
      else if reaches num den (guess + 2) then guess + 2
      else if reaches num den (guess + 1) then guess + 1
      else guess := rfl
  rw [hsearch]
  dsimp only
  split
  · exact .inl ‹_›
  split
  · exact .inl ‹_›
  split
  · exact .inl ‹_›
  · exact .inr rfl

theorem zpow_ten_le_of {a b : Nat} {g n : Int} (ha : a ≠ 0) (hpow : ((10 : ℚ) ^ a) ^ g ≤ (2 ^ b) ^ g)
    (h : b * g ≤ a * n) : (10 : ℚ) ^ g ≤ 2 ^ n := by
  refine (pow_le_pow_iff_left₀ (by positivity) (by positivity) ha).1 ?_
  calc ((10 : ℚ) ^ g) ^ a = (10 ^ a) ^ g := by rw [← zpow_natCast, ← zpow_natCast, zpow_comm]
    _ ≤ (2 ^ b) ^ g := hpow
    _ = 2 ^ (b * g) := by rw [← zpow_natCast, ← zpow_mul]
    _ ≤ 2 ^ (a * n) := zpow_le_zpow_right₀ (by norm_num) h
    _ = (2 ^ n) ^ a := by rw [← zpow_natCast, ← zpow_mul, mul_comm]

/-- A decimal length estimated from a binary one is not too large. -/
theorem zpow_ten_le {n : Int} (hlow : -4000 ≤ n) (hhigh : n ≤ 4000) :
    (10 : ℚ) ^ (n * 30103 / 100000 - 1) ≤ 2 ^ (n - 1) := by
  rcases le_total 0 (n * 30103 / 100000 - 1) with hg | hg
  · refine zpow_ten_le_of (a := 59) (b := 196) (by norm_num) ?_ (by omega)
    exact zpow_le_zpow_left₀ hg (by norm_num) (by norm_num)
  · refine zpow_ten_le_of (a := 28) (b := 93) (by norm_num) ?_ (by omega)
    -- a negative power turns the order round
    obtain ⟨k, hk⟩ := Int.eq_ofNat_of_zero_le (neg_nonneg.2 hg)
    rw [← neg_neg (n * 30103 / 100000 - 1), hk, zpow_neg, zpow_neg, zpow_natCast, zpow_natCast]
    exact inv_anti₀ (by positivity) (pow_le_pow_left₀ (by positivity) (by norm_num) k)

/-- The leading place is not above the leading digit. -/
theorem ten_zpow_leadingPlace_le {num den : Nat} (hnum : num ≠ 0) (hden : den ≠ 0)
    (hnum' : num.log2 ≤ 4000) (hden' : den.log2 ≤ 4000) :
    (10 : ℚ) ^ leadingPlace num den ≤ num / den := by
  rcases leadingPlace_cases num den with h | h
  · exact (reaches_iff hden).1 h
  · rw [h]
    exact (zpow_ten_le (by omega) (by omega)).trans (two_zpow_lt_div hnum hden).le

/-! ## Decimal grids -/

/-- In units of `10 ^ place`, the fields of an interval are multiplied by the parts of a fraction. -/
theorem Interval.exists_atPlace (i : Interval) (place : Int) : ∃ u f : Nat, 0 < u ∧ 0 < f ∧
    (10 : ℚ) ^ place = u / f ∧
      i.atPlace place = ⟨i.low * f, i.value * f, i.high * f, i.unit * u, i.closed⟩ := by
  unfold Interval.atPlace
  split
  · next h =>
    obtain ⟨n, rfl⟩ := Int.eq_ofNat_of_zero_le h
    refine ⟨10 ^ n, 1, Nat.pow_pos (by decide), one_pos, by simp, ?_⟩
    simp only [mul_one, Int.toNat_natCast, Nat.pow_eq]
  · next h =>
    obtain ⟨n, hn⟩ := Int.eq_ofNat_of_zero_le (show 0 ≤ -place by omega)
    obtain rfl : place = -(n : Int) := by omega
    refine ⟨1, 10 ^ n, one_pos, Nat.pow_pos (by decide), by simp, ?_⟩
    simp only [mul_one, neg_neg, Int.toNat_natCast, Nat.pow_eq]

/-- The value of an interval, rounded down to a multiple of `10 ^ place`. -/
def Interval.floor (i : Interval) (place : Int) : Nat := (i.atPlace place).value / (i.atPlace place).unit

theorem Interval.floor_bounds {i : Interval} (h : i.unit ≠ 0) (place : Int) :
    (i.floor place : ℚ) * 10 ^ place ≤ i.value / i.unit ∧
      (i.value / i.unit : ℚ) < (i.floor place + 1 : Nat) * 10 ^ place := by
  obtain ⟨u, f, hu, hf, hten, hfields⟩ := i.exists_atPlace place
  have hunit : (0 : ℚ) < i.unit := by exact_mod_cast Nat.pos_of_ne_zero h
  have hf' : (0 : ℚ) < f := by exact_mod_cast hf
  have hlow : i.floor place * (i.unit * u) ≤ i.value * f := by
    rw [Interval.floor, hfields]
    exact Nat.div_mul_le_self _ _
  have hhigh : i.value * f < (i.floor place + 1) * (i.unit * u) := by
    rw [Interval.floor, hfields, mul_comm (_ + 1)]
    exact Nat.lt_mul_div_succ _ (Nat.mul_pos (Nat.pos_of_ne_zero h) hu)
  rw [hten, le_div_iff₀ hunit, div_lt_iff₀ hunit, mul_div_assoc', mul_div_assoc', div_mul_eq_mul_div,
    div_mul_eq_mul_div, div_le_iff₀ hf', lt_div_iff₀ hf', mul_assoc, mul_assoc, mul_comm (u : ℚ)]
  exact ⟨by exact_mod_cast hlow, by exact_mod_cast hhigh⟩

/-- A multiple of `10 ^ place` is tested for being in the interval. -/
theorem Interval.contains_atPlace {i : Interval} {place : Int} {n : Nat} :
    (i.atPlace place).contains (n * (i.atPlace place).unit) = true ↔ i.Holds (n * 10 ^ place) := by
  obtain ⟨u, f, -, hf, hten, hfields⟩ := i.exists_atPlace place
  have hf' : (0 : ℚ) < f := by exact_mod_cast hf
  rw [hfields, hten, Interval.contains, Interval.Holds, mul_div_assoc', div_mul_eq_mul_div, le_div_iff₀ hf',
    div_le_iff₀ hf', lt_div_iff₀ hf', div_lt_iff₀ hf', mul_assoc, mul_comm (u : ℚ)]
  dsimp only
  split
  · rw [Bool.and_eq_true, decide_eq_true_eq, decide_eq_true_eq]
    exact_mod_cast Iff.rfl
  · rw [Bool.and_eq_true, decide_eq_true_eq, decide_eq_true_eq]
    exact_mod_cast Iff.rfl

/-- What is found on a grid is in the interval. -/
theorem holds_of_candidate? {i : Interval} {place : Int} {n : Nat} (h : candidate? i place = some n) :
    i.Holds (n * 10 ^ place) := by
  rw [← Interval.contains_atPlace]
  unfold candidate? at h
  dsimp only at h
  split at h
  · next hboth =>
    rw [Bool.and_eq_true] at hboth
    obtain rfl := Option.some.inj h
    split
    · exact hboth.1
    · exact hboth.2
  split at h
  · next hdown => exact Option.some.inj h ▸ hdown
  split at h
  · next hup => exact Option.some.inj h ▸ hup
  · cases h

/-- If the interval holds one of the two multiples beside its value, something is found on the grid. -/
theorem exists_candidate? {i : Interval} {place : Int}
    (h : i.Holds (i.floor place * 10 ^ place) ∨ i.Holds ((i.floor place + 1 : Nat) * 10 ^ place)) :
    ∃ n, candidate? i place = some n := by
  rw [← Interval.contains_atPlace, ← Interval.contains_atPlace] at h
  unfold candidate?
  dsimp only
  split
  · exact ⟨_, rfl⟩
  split
  · exact ⟨_, rfl⟩
  split
  · exact ⟨_, rfl⟩
  · next hdown hup => exact absurd h (not_or.2 ⟨hdown, hup⟩)

/-- If there is a candidate on the last grid, the decimal that is found is in the interval. -/
theorem holds_searchDigits {i : Interval} {lead : Int} {n : Nat}
    (hlast : candidate? i (lead - 16) = some n) (more : Nat) :
    i.Holds (searchDigits i lead (more + 1)).value := by
  induction more with
  | zero =>
    have hplace : lead - (16 - (0 : Nat)) = lead - 16 := by simp
    rw [searchDigits, hplace, hlast]
    exact holds_of_candidate? hlast
  | succ more ih =>
    rw [searchDigits]
    split
    · next hn => exact holds_of_candidate? hn
    · exact ih

/-! ## The last grid -/

theorem interval_unit_pos (x : Binary64) : 0 < x.interval.unit := by
  unfold interval
  dsimp only
  split
  · exact Nat.one_pos
  · exact Nat.pow_pos (by decide)

/-- In units in the last place, an interval stands at the significand. -/
theorem inUnits_interval (x : Binary64) :
    inUnits x.scale (x.interval.value / x.interval.unit) = x.significand := by
  have hunit : (x.interval.unit : ℚ) ≠ 0 := by exact_mod_cast (interval_unit_pos x).ne'
  have hfactor : (x.factor : ℚ) ≠ 0 := by exact_mod_cast (factor_pos x).ne'
  have h : 4 * inUnits x.scale (x.interval.value / x.interval.unit) * x.factor =
      4 * x.significand * x.factor := by
    rw [← mul_interval_unit, div_mul_cancel₀ _ hunit, interval_value]
    push_cast
    rfl
  exact mul_left_cancel₀ four_ne_zero (mul_right_cancel₀ hfactor h)

theorem around_of_lt {x : Binary64} {t : ℚ} (hlow : 4 * (x.significand : ℚ) - x.below < 4 * t)
    (hhigh : 4 * t < 4 * x.significand + 2) : x.Around t :=
  ⟨hlow.le, hhigh.le, fun _ => ⟨hlow, hhigh⟩⟩

/-- If a gap around the significand is so small that it fits in `10 ^ 16` times, one of its ends is in the
interval. -/
theorem around_or_around {x : Binary64} {a b : ℚ} (ha : a ≤ x.significand) (hb : (x.significand : ℚ) < b)
    (hgap : (b - a) * 10 ^ 16 ≤ x.significand) : x.Around a ∨ x.Around b := by
  have hm : (x.significand : ℚ) + 1 ≤ 2 ^ 53 := by exact_mod_cast significand_lt x
  by_cases hup : 4 * b < 4 * x.significand + 2
  · right
    have hbelow : (0 : ℚ) ≤ x.below := Nat.cast_nonneg _
    exact around_of_lt (by linarith) hup
  · left
    refine around_of_lt ?_ (by linarith)
    rw [below]
    split
    · next hpower =>
      rw [Bool.and_eq_true, beq_iff_eq, exponentPlace_eq] at hpower
      have hm : (x.significand : ℚ) = 2 ^ 52 := by exact_mod_cast hpower.1
      push_cast
      linarith
    · push_cast
      linarith

/-! ## The shortest decimal -/

theorem inUnits_sub (scale : Nat) (q q' : ℚ) : inUnits scale q - inUnits scale q' = inUnits scale (q - q') :=
  (sub_mul q q' _).symm

theorem log2_interval_unit_le (x : Binary64) : x.interval.unit.log2 ≤ 4000 := by
  unfold interval
  dsimp only
  split
  · decide
  · rw [Nat.pow_eq, Nat.log2_two_pow]
    omega

theorem interval_value_pos {x : Binary64} (h : x.magnitude ≠ 0) : 0 < x.interval.value := by
  rw [interval_value]
  exact Nat.mul_pos (Nat.mul_pos (by decide) (significand_pos h)) (factor_pos x)

theorem log2_interval_value_le {x : Binary64} (h : x.isFinite = true) (hx : x.magnitude ≠ 0) :
    x.interval.value.log2 ≤ 4000 := by
  have hscale := scale_lt h
  have hfactor : x.factor ≤ 2 ^ (x.scale - 1076) := by
    unfold factor
    split
    · exact le_rfl
    · exact Nat.one_le_two_pow
  have hvalue : x.interval.value < 2 ^ (56 + (x.scale - 1076)) :=
    calc x.interval.value = 4 * x.significand * x.factor := interval_value x
      _ ≤ 2 ^ 55 * 2 ^ (x.scale - 1076) := Nat.mul_le_mul (by have := significand_lt x; omega) hfactor
      _ = 2 ^ (55 + (x.scale - 1076)) := (Nat.pow_add 2 55 _).symm
      _ < 2 ^ (56 + (x.scale - 1076)) := Nat.pow_lt_pow_right (by decide) (by omega)
  have hlog := (Nat.log2_lt (interval_value_pos hx).ne').2 hvalue
  omega

theorem inUnits_leadingPlace_le {x : Binary64} (h : x.isFinite = true) (hx : x.magnitude ≠ 0) :
    inUnits x.scale (10 ^ leadingPlace x.interval.value x.interval.unit) ≤ x.significand := by
  rw [← inUnits_interval, inUnits_le_inUnits]
  exact ten_zpow_leadingPlace_le (interval_value_pos hx).ne' (interval_unit_pos x).ne'
    (log2_interval_value_le h hx) (log2_interval_unit_le x)

/-- Seventeen digits are enough. -/
theorem exists_candidate?_last {x : Binary64} (h : x.isFinite = true) (hx : x.magnitude ≠ 0) :
    ∃ n, candidate? x.interval (leadingPlace x.interval.value x.interval.unit - 16) = some n := by
  obtain ⟨lead, hlead⟩ : ∃ lead, leadingPlace x.interval.value x.interval.unit = lead := ⟨_, rfl⟩
  have hleading := inUnits_leadingPlace_le h hx
  rw [hlead] at hleading ⊢
  obtain ⟨hfloor, hceil⟩ := Interval.floor_bounds (interval_unit_pos x).ne' (lead - 16)
  rw [← inUnits_le_inUnits x.scale, inUnits_interval] at hfloor
  rw [← inUnits_lt_inUnits x.scale, inUnits_interval] at hceil
  refine exists_candidate? ?_
  rw [holds_interval_iff hx, holds_interval_iff hx]
  refine around_or_around hfloor hceil (le_trans (le_of_eq ?_) hleading)
  rw [inUnits_sub, Nat.cast_succ, add_mul, one_mul, add_sub_cancel_left, inUnits, inUnits,
    zpow_sub₀ (by norm_num)]
  norm_num
  ring

/-- The shortest decimal of a number is in the interval of the number. -/
theorem holds_shortest {x : Binary64} (h : x.isFinite = true) (hx : x.magnitude ≠ 0) :
    x.interval.Holds x.shortest.value := by
  obtain ⟨n, hn⟩ := exists_candidate?_last h hx
  exact holds_searchDigits hn 16

/-- The shortest decimal of a number is read as the number. -/
theorem ofDecimal_shortest {x : Binary64} (h : x.isFinite = true) (hx : x.magnitude ≠ 0) :
    ofDecimal x.negative x.shortest = x :=
  ofDecimal_of_holds h hx (holds_shortest h hx)

end Binary64

end ExprTree
