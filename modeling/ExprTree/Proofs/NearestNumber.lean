import Mathlib.Algebra.Order.Field.Power
import Mathlib.Algebra.Order.Field.Rat
import Mathlib.Algebra.Ring.Parity
import Mathlib.Tactic.Linarith
import Mathlib.Tactic.NormNum
import Mathlib.Tactic.Positivity
import Mathlib.Tactic.Ring
import ExprTree.Binary64.Shortest

/-!
# The nearest number

A decimal in the interval of a finite number is read as this number (`Binary64.ofDecimal_of_holds`).

Reading and writing meet in rational arithmetic. A fraction is measured in units in the last place of the
numbers of a scale (`Binary64.inUnits`), and there is one scale which it fits (`Binary64.Fits.unique`); the
reader finds it (`fits_chosenScale`) and rounds the fraction to the nearest integer, a tie to the even one
(`nearest_roundDiv`). In the same units, the interval of a number reaches half a unit to either side of its
significand (`holds_interval_iff`). What it holds rounds to the significand, but for one case: below a power
of two the numbers of the next lower scale begin, and what rounds up to the power of two there fits that scale
(`Binary64.Around.power`).
-/

namespace ExprTree

/-- The rational number that a decimal denotes. -/
def Decimal.value (d : Decimal) : ℚ := d.coefficient * 10 ^ d.exponent

namespace Binary64

/-! ## The nearest integer -/

/-- `r` is the integer nearest to `t`, and the even one of two that are equally near. -/
structure Nearest (t : ℚ) (r : Nat) : Prop where
  near : |t - r| ≤ 1 / 2
  even : |t - r| = 1 / 2 → Even r

theorem Nearest.unique {t : ℚ} {r r' : Nat} (h : Nearest t r) (h' : Nearest t r') : r = r' := by
  wlog hle : r ≤ r' generalizing r r'
  · exact (this h' h (Nat.le_of_not_le hle)).symm
  by_contra hne
  have hlt : (r : ℚ) + 1 ≤ r' := by exact_mod_cast Nat.lt_of_le_of_ne hle hne
  have hlow := (abs_le.1 h.near).2
  have hhigh := (abs_le.1 h'.near).1
  -- `t` stands in the middle between the two, and only one of them is even
  have heven : Even r := h.even (by rw [abs_of_nonneg] <;> linarith)
  have heven' : Even r' := h'.even (by rw [abs_of_nonpos] <;> linarith)
  obtain rfl : r' = r + 1 := by
    have : (r' : ℚ) = r + 1 := by linarith
    exact_mod_cast this
  exact Nat.even_add_one.1 heven' heven

/-- A quotient is an integer and a fraction, and the remainder tells on which side of one half the
fraction is. -/
theorem exists_fraction (num : Nat) {den : Nat} (hden : den ≠ 0) :
    ∃ f : ℚ, (num : ℚ) / den = (num / den : Nat) + f ∧ 0 ≤ f ∧ f < 1 ∧
      (den < 2 * (num % den) ↔ 1 / 2 < f) ∧ (2 * (num % den) = den ↔ f = 1 / 2) := by
  have hpos : (0 : ℚ) < den := by exact_mod_cast Nat.pos_of_ne_zero hden
  have hnum : (num : ℚ) = den * (num / den : Nat) + (num % den : Nat) := by
    exact_mod_cast (Nat.div_add_mod num den).symm
  have hlt : ((num % den : Nat) : ℚ) < den := by
    exact_mod_cast Nat.mod_lt num (Nat.pos_of_ne_zero hden)
  refine ⟨(num % den : Nat) / den, ?_, by positivity, (div_lt_one hpos).2 hlt, ?_, ?_⟩
  · rw [div_eq_iff hpos.ne', add_mul, div_mul_cancel₀ _ hpos.ne', mul_comm, ← hnum]
  · rw [lt_div_iff₀ hpos, one_div, inv_mul_lt_iff₀ two_pos]
    exact_mod_cast Iff.rfl
  · rw [div_eq_iff hpos.ne', one_div, eq_inv_mul_iff_mul_eq₀ two_ne_zero]
    exact_mod_cast Iff.rfl

theorem nearest_roundDiv (num : Nat) {den : Nat} (hden : den ≠ 0) :
    Nearest (num / den) (roundDiv num den) := by
  obtain ⟨f, hquotient, hnonneg, hlt, hup, htie⟩ := exists_fraction num hden
  rw [hquotient]
  unfold roundDiv
  dsimp only
  split
  · next h =>
    rw [Bool.or_eq_true, Bool.and_eq_true, decide_eq_true_eq, beq_iff_eq, beq_iff_eq, hup, htie] at h
    have hhalf : 1 / 2 ≤ f := h.elim le_of_lt fun h => h.1.ge
    have hdist : |((num / den : Nat) : ℚ) + f - (num / den + 1 : Nat)| = 1 - f := by
      push_cast
      rw [abs_of_nonpos] <;> linarith
    refine ⟨by rw [hdist]; linarith, fun heq => ?_⟩
    rw [hdist] at heq
    have hodd := (h.resolve_left (by linarith)).2
    exact Nat.even_add_one.2 (Nat.not_even_iff.2 hodd)
  · next h =>
    rw [Bool.or_eq_true, Bool.and_eq_true, decide_eq_true_eq, beq_iff_eq, beq_iff_eq, hup, htie,
      not_or, not_and] at h
    have hdist : |((num / den : Nat) : ℚ) + f - (num / den : Nat)| = f := by
      rw [add_sub_cancel_left, abs_of_nonneg hnonneg]
    refine ⟨by rw [hdist]; exact le_of_not_gt h.1, fun heq => ?_⟩
    rw [hdist] at heq
    exact Nat.even_iff.2 (Nat.mod_two_ne_one.1 (h.2 heq))

/-! ## The scale of a number -/

theorem exponentPlace_eq : exponentPlace = 2 ^ 52 := rfl

/-- A rational number in units in the last place of the numbers of a scale. -/
def inUnits (scale : Nat) (q : ℚ) : ℚ := q * 2 ^ (1074 - (scale : Int))

theorem inUnits_succ (scale : Nat) (q : ℚ) : inUnits scale q = 2 * inUnits (scale + 1) q := by
  have hexponent : 1074 - (scale : Int) = 1074 - ((scale + 1 : Nat) : Int) + 1 := by push_cast; ring
  rw [inUnits, inUnits, hexponent, zpow_add_one₀ two_ne_zero]
  ring

theorem inUnits_anti {scale scale' : Nat} {q : ℚ} (hq : 0 ≤ q) (h : scale ≤ scale') :
    inUnits scale' q ≤ inUnits scale q :=
  mul_le_mul_of_nonneg_left (zpow_le_zpow_right₀ one_le_two (by omega)) hq

/-- In units of this scale, the number has 53 binary digits, or fewer at the least scale. -/
structure Fits (scale : Nat) (q : ℚ) : Prop where
  short : inUnits scale q < 2 ^ 53
  full : scale = 0 ∨ 2 ^ 52 ≤ inUnits scale q

theorem Fits.unique {s s' : Nat} {q : ℚ} (hq : 0 ≤ q) (h : Fits s q) (h' : Fits s' q) : s = s' := by
  wlog hle : s ≤ s' generalizing s s'
  · exact (this h' h (Nat.le_of_not_le hle)).symm
  by_contra hne
  have hfull := h'.full.resolve_left (by omega)
  have hhalf := inUnits_anti hq (show s + 1 ≤ s' by omega)
  have hshort := h.short
  rw [inUnits_succ] at hshort
  linarith

/-- `num / den` in units in the last place, as numerator and denominator. -/
def scaled (num den scale : Nat) : Nat × Nat :=
  if 1074 ≤ scale then (num, den * Nat.pow 2 (scale - 1074)) else (num * Nat.pow 2 (1074 - scale), den)

theorem scaled_ne_zero {den : Nat} (hden : den ≠ 0) (num scale : Nat) : (scaled num den scale).2 ≠ 0 := by
  unfold scaled
  split
  · exact Nat.mul_ne_zero hden (Nat.pow_pos (by decide)).ne'
  · exact hden

theorem scaled_eq (num den scale : Nat) :
    ((scaled num den scale).1 : ℚ) / (scaled num den scale).2 = inUnits scale (num / den) := by
  unfold scaled inUnits
  split
  · next h =>
    obtain ⟨k, rfl⟩ := Nat.exists_eq_add_of_le h
    rw [Nat.add_sub_cancel_left, Nat.pow_eq]
    push_cast
    rw [sub_add_cancel_left, zpow_neg, zpow_natCast, div_mul_eq_div_div, div_eq_mul_inv _ (2 ^ k)]
  · next h =>
    obtain ⟨k, hk⟩ := Nat.exists_eq_add_of_le (Nat.le_of_not_le h)
    have hexponent : 1074 - (scale : Int) = k := by omega
    rw [hexponent, hk, Nat.add_sub_cancel_left, Nat.pow_eq, zpow_natCast]
    push_cast
    ring

/-- The binary lengths of two numbers give their quotient up to a factor of two. -/
theorem two_zpow_lt_div {num den : Nat} (hnum : num ≠ 0) (hden : den ≠ 0) :
    (2 : ℚ) ^ ((num.log2 : Int) - den.log2 - 1) < num / den := by
  have hpos : (0 : ℚ) < den := by exact_mod_cast Nat.pos_of_ne_zero hden
  have hlow : (2 : ℚ) ^ num.log2 ≤ num := by exact_mod_cast Nat.log2_self_le hnum
  have hhigh : (den : ℚ) < 2 ^ (den.log2 + 1) := by exact_mod_cast Nat.lt_log2_self
  rw [lt_div_iff₀ hpos]
  calc (2 : ℚ) ^ ((num.log2 : Int) - den.log2 - 1) * den
      < 2 ^ ((num.log2 : Int) - den.log2 - 1) * 2 ^ (den.log2 + 1) :=
        mul_lt_mul_of_pos_left hhigh (by positivity)
    _ = 2 ^ num.log2 := by
        rw [← zpow_natCast, ← zpow_natCast, ← zpow_add₀ two_ne_zero]
        congr 1
        push_cast
        ring
    _ ≤ num := hlow

theorem div_lt_two_zpow {num den : Nat} (hnum : num ≠ 0) (hden : den ≠ 0) :
    (num : ℚ) / den < 2 ^ ((num.log2 : Int) - den.log2 + 1) := by
  have hinv := two_zpow_lt_div hden hnum
  have hpos : (0 : ℚ) < num / den :=
    div_pos (by exact_mod_cast Nat.pos_of_ne_zero hnum) (by exact_mod_cast Nat.pos_of_ne_zero hden)
  rw [← inv_div, ← inv_inv ((2 : ℚ) ^ ((num.log2 : Int) - den.log2 + 1)), ← zpow_neg]
  have hexponent : -((num.log2 : Int) - den.log2 + 1) = (den.log2 : Int) - num.log2 - 1 := by ring
  rw [hexponent]
  exact inv_strictAnti₀ (by positivity) hinv

/-- The scale that is tried first. -/
def guessedScale (num den : Nat) : Nat := ((num.log2 : Int) - den.log2 - 52 + 1074).toNat

/-- The scale of the number nearest to `num / den`. -/
def chosenScale (num den : Nat) : Nat :=
  let guess := guessedScale num den
  if (scaled num den guess).1 / (scaled num den guess).2 < exponentPlace then guess - 1 else guess

theorem nearestWord_eq (num den : Nat) : nearestWord num den =
    chosenScale num den * exponentPlace +
      roundDiv (scaled num den (chosenScale num den)).1 (scaled num den (chosenScale num den)).2 := rfl

theorem quotient_lt_iff {den : Nat} (hden : den ≠ 0) (num scale n : Nat) :
    (scaled num den scale).1 / (scaled num den scale).2 < n ↔ inUnits scale (num / den) < n := by
  have hpos := Nat.pos_of_ne_zero (scaled_ne_zero hden num scale)
  rw [Nat.div_lt_iff_lt_mul hpos, ← scaled_eq, div_lt_iff₀ (by exact_mod_cast hpos)]
  exact_mod_cast Iff.rfl

/-- A power of two in units in the last place. -/
theorem inUnits_two_zpow (scale : Nat) (n : Int) : inUnits scale (2 ^ n) = 2 ^ (n + 1074 - scale) := by
  rw [inUnits, ← zpow_add₀ two_ne_zero, add_sub_assoc]

theorem inUnits_lt_inUnits (scale : Nat) {q q' : ℚ} : inUnits scale q < inUnits scale q' ↔ q < q' :=
  mul_lt_mul_iff_left₀ (by positivity)

theorem inUnits_le_inUnits (scale : Nat) {q q' : ℚ} : inUnits scale q ≤ inUnits scale q' ↔ q ≤ q' :=
  mul_le_mul_iff_left₀ (by positivity)

/-- At the scale that is tried first, at most one binary digit is missing. -/
theorem inUnits_guessedScale {num den : Nat} (hnum : num ≠ 0) (hden : den ≠ 0) :
    inUnits (guessedScale num den) (num / den) < 2 ^ 53 ∧
      (guessedScale num den = 0 ∨ 2 ^ 51 < inUnits (guessedScale num den) (num / den)) := by
  obtain ⟨guess, hguess⟩ : ∃ guess, guessedScale num den = guess := ⟨_, rfl⟩
  rw [hguess]
  rw [guessedScale] at hguess
  constructor
  · refine ((inUnits_lt_inUnits guess).2 (div_lt_two_zpow hnum hden)).trans_le ?_
    rw [inUnits_two_zpow, ← zpow_natCast]
    exact zpow_le_zpow_right₀ one_le_two (by omega)
  · refine or_iff_not_imp_left.2 fun hne => ?_
    refine lt_of_eq_of_lt ?_ ((inUnits_lt_inUnits guess).2 (two_zpow_lt_div hnum hden))
    rw [inUnits_two_zpow, ← zpow_natCast]
    congr 1
    omega

theorem fits_chosenScale {num den : Nat} (hnum : num ≠ 0) (hden : den ≠ 0) :
    Fits (chosenScale num den) (num / den) := by
  obtain ⟨hshort, hlong⟩ := inUnits_guessedScale hnum hden
  have hcompare := quotient_lt_iff hden num (guessedScale num den) exponentPlace
  rw [exponentPlace_eq, Nat.cast_pow, Nat.cast_ofNat] at hcompare
  unfold chosenScale
  dsimp only
  split
  · next hlt =>
    have hlt := hcompare.1 hlt
    cases hguess : guessedScale num den with
    | zero =>
      rw [hguess] at hshort
      exact ⟨hshort, .inl rfl⟩
    | succ scale =>
      rw [hguess] at hlong hlt
      have hlow := hlong.resolve_left (Nat.succ_ne_zero scale)
      rw [Nat.add_sub_cancel]
      exact ⟨by rw [inUnits_succ]; linarith, .inr (by rw [inUnits_succ]; linarith)⟩
  · next hge => exact ⟨hshort, .inr (not_lt.1 (mt hcompare.2 hge))⟩

/-- The number nearest to `num / den` is found in units of the scale that the fraction fits. -/
theorem nearestWord_of_fits {num den s m : Nat} (hnum : num ≠ 0) (hden : den ≠ 0)
    (hfits : Fits s (num / den)) (hnearest : Nearest (inUnits s (num / den)) m) :
    nearestWord num den = s * exponentPlace + m := by
  have hs : chosenScale num den = s := (fits_chosenScale hnum hden).unique (by positivity) hfits
  rw [nearestWord_eq, hs]
  congr 1
  refine Nearest.unique ?_ hnearest
  rw [← scaled_eq]
  exact nearest_roundDiv _ (scaled_ne_zero hden num s)

/-! ## The interval of a number -/

/-- A magnitude word is the scale and the significand put together. -/
theorem magnitude_eq (x : Binary64) : x.scale * exponentPlace + x.significand = x.magnitude := by
  have hdiv := Nat.div_add_mod x.magnitude exponentPlace
  unfold scale significand
  rw [exponentPlace_eq] at hdiv ⊢
  split <;> omega

theorem significand_pos {x : Binary64} (h : x.magnitude ≠ 0) : 0 < x.significand := by
  unfold significand
  split
  · exact Nat.pos_of_ne_zero h
  · exact Nat.add_pos_left (by decide) _

theorem significand_lt (x : Binary64) : x.significand < 2 ^ 53 := by
  have hmod := Nat.mod_lt x.magnitude (show 0 < exponentPlace by decide)
  unfold significand
  rw [exponentPlace_eq] at hmod ⊢
  split <;> omega

/-- Above the least scale a significand has all its digits. -/
theorem le_significand {x : Binary64} (h : x.scale ≠ 0) : 2 ^ 52 ≤ x.significand := by
  unfold scale at h
  unfold significand
  rw [exponentPlace_eq] at h ⊢
  split <;> omega

theorem scale_lt {x : Binary64} (h : x.isFinite = true) : x.scale < 2046 := by
  rw [isFinite, decide_eq_true_eq, infinityWord] at h
  have hscale : x.magnitude / exponentPlace < 2047 := Nat.div_lt_of_lt_mul (by rwa [mul_comm] at h)
  rw [scale]
  omega

/-- Does the rational number `q` belong to the interval? -/
def Interval.Holds (i : Interval) (q : ℚ) : Prop :=
  if i.closed then (i.low : ℚ) ≤ q * i.unit ∧ q * i.unit ≤ i.high
  else (i.low : ℚ) < q * i.unit ∧ q * i.unit < i.high

/-- Half the gap to the next lower number, in quarters of the unit in the last place. -/
def below (x : Binary64) : Nat := if x.significand == exponentPlace && 0 < x.scale then 1 else 2

/-- What the fields of an interval are multiplied by to make them integers. -/
def factor (x : Binary64) : Nat := if 1076 ≤ x.scale then Nat.pow 2 (x.scale - 1076) else 1

theorem factor_pos (x : Binary64) : 0 < x.factor := by
  unfold factor
  split
  · exact Nat.pow_pos (by decide)
  · exact Nat.one_pos

theorem interval_low (x : Binary64) : x.interval.low = (4 * x.significand - x.below) * x.factor := rfl

theorem interval_value (x : Binary64) : x.interval.value = 4 * x.significand * x.factor := rfl

theorem interval_high (x : Binary64) : x.interval.high = (4 * x.significand + 2) * x.factor := rfl

/-- Points of an interval in quarters of the unit in the last place. -/
theorem mul_interval_unit (x : Binary64) (q : ℚ) :
    q * x.interval.unit = 4 * inUnits x.scale q * x.factor := by
  have hunit : x.interval.unit = if 1076 ≤ x.scale then 1 else Nat.pow 2 (1076 - x.scale) := rfl
  have hfour : 4 * (2 : ℚ) ^ (1074 - (x.scale : Int)) = 2 ^ (1076 - (x.scale : Int)) := by
    rw [show 1076 - (x.scale : Int) = 2 + (1074 - x.scale) by ring, zpow_add₀ two_ne_zero]
    norm_num
  rw [inUnits, mul_left_comm, hfour, mul_assoc]
  congr 1
  unfold factor
  rw [hunit]
  split
  · next h =>
    rw [Nat.pow_eq, Nat.cast_one, Nat.cast_pow, Nat.cast_ofNat, ← zpow_natCast, ← zpow_add₀ two_ne_zero,
      Nat.cast_sub h]
    simp
  · next h =>
    rw [Nat.pow_eq, Nat.cast_one, mul_one, Nat.cast_pow, Nat.cast_ofNat, ← zpow_natCast,
      Nat.cast_sub (Nat.le_of_not_le h), Nat.cast_ofNat]

theorem below_le (x : Binary64) : x.below ≤ 2 := by
  unfold below
  split <;> decide

theorem cast_below_le (x : Binary64) : (x.below : ℚ) ≤ 2 := by
  exact_mod_cast below_le x

theorem cast_interval_low {x : Binary64} (h : x.magnitude ≠ 0) :
    (x.interval.low : ℚ) = (4 * x.significand - x.below) * x.factor := by
  have hpos := significand_pos h
  have hbelow := below_le x
  rw [interval_low, Nat.cast_mul, Nat.cast_sub (by omega), Nat.cast_mul, Nat.cast_ofNat]

/-- The interval of a number in units in the last place: it surrounds the significand. -/
structure Around (x : Binary64) (t : ℚ) : Prop where
  lower : 4 * (x.significand : ℚ) - x.below ≤ 4 * t
  upper : 4 * t ≤ 4 * x.significand + 2
  inside : ¬ Even x.significand → 4 * (x.significand : ℚ) - x.below < 4 * t ∧ 4 * t < 4 * x.significand + 2

theorem holds_interval_iff {x : Binary64} (h : x.magnitude ≠ 0) {q : ℚ} :
    x.interval.Holds q ↔ x.Around (inUnits x.scale q) := by
  have hfactor : (0 : ℚ) < x.factor := by exact_mod_cast factor_pos x
  have hclosed : x.interval.closed = (x.significand % 2 == 0) := rfl
  have hhigh : (x.interval.high : ℚ) = (4 * x.significand + 2) * x.factor := by
    rw [interval_high]
    push_cast
    ring
  rw [Interval.Holds, hclosed, cast_interval_low h, hhigh, mul_interval_unit, mul_le_mul_iff_left₀ hfactor,
    mul_le_mul_iff_left₀ hfactor, mul_lt_mul_iff_left₀ hfactor, mul_lt_mul_iff_left₀ hfactor]
  split
  · next heven =>
    rw [beq_iff_eq, ← Nat.even_iff] at heven
    exact ⟨fun hq => ⟨hq.1, hq.2, fun hodd => absurd heven hodd⟩, fun hq => ⟨hq.lower, hq.upper⟩⟩
  · next hodd =>
    rw [beq_iff_eq, ← Nat.even_iff] at hodd
    exact ⟨fun hq => ⟨hq.1.le, hq.2.le, fun _ => hq⟩, fun hq => hq.inside hodd⟩

theorem Around.nearest {x : Binary64} {t : ℚ} (h : x.Around t) : Nearest t x.significand := by
  have hbelow := cast_below_le x
  have hlower := h.lower
  have hupper := h.upper
  refine ⟨abs_le.2 ⟨by linarith, by linarith⟩, fun htie => ?_⟩
  by_contra hodd
  obtain ⟨hlow, hhigh⟩ := h.inside hodd
  have hlt : |t - x.significand| < 1 / 2 := abs_lt.2 ⟨by linarith, by linarith⟩
  exact hlt.ne htie

theorem Around.half_le {x : Binary64} {t : ℚ} (h : x.Around t) (hx : x.magnitude ≠ 0) : 1 / 2 ≤ t := by
  have hlower := h.lower
  have hbelow := cast_below_le x
  have hpos : (1 : ℚ) ≤ x.significand := by exact_mod_cast significand_pos hx
  linarith

theorem Around.lt {x : Binary64} {t : ℚ} (h : x.Around t) : t < 2 ^ 53 := by
  have hupper := h.upper
  have hlt : (x.significand : ℚ) + 1 ≤ 2 ^ 53 := by exact_mod_cast significand_lt x
  linarith

/-- What is below the full length stands below a power of two, and reaches a quarter of a unit down. -/
theorem Around.power {x : Binary64} {t : ℚ} (h : x.Around t) (hscale : x.scale ≠ 0) (ht : t < 2 ^ 52) :
    x.significand = 2 ^ 52 ∧ 2 ^ 54 - 1 ≤ 4 * t := by
  have hlower := h.lower
  have hbelow := cast_below_le x
  have hm : x.significand = 2 ^ 52 := by
    by_contra hne
    have hle : (2 : ℚ) ^ 52 + 1 ≤ x.significand := by
      exact_mod_cast Nat.lt_of_le_of_ne (le_significand hscale) (Ne.symm hne)
    linarith
  have hone : x.below = 1 := by
    rw [below, hm, ← exponentPlace_eq]
    exact if_pos (by simpa using Nat.pos_of_ne_zero hscale)
  rw [hm, hone] at hlower
  push_cast at hlower
  exact ⟨hm, by linarith⟩

theorem ne_zero_of_holds {x : Binary64} (hx : x.magnitude ≠ 0) {q : ℚ} (hq : x.interval.Holds q) :
    q ≠ 0 := by
  rintro rfl
  have hhalf := ((holds_interval_iff hx).1 hq).half_le hx
  rw [inUnits, zero_mul] at hhalf
  norm_num at hhalf

/-- What an interval holds is read as its number. -/
theorem nearestWord_of_holds {x : Binary64} (hx : x.magnitude ≠ 0) {num den : Nat} (hden : den ≠ 0)
    (h : x.interval.Holds (num / den)) : nearestWord num den = x.magnitude := by
  have hnum : num ≠ 0 := by
    rintro rfl
    exact ne_zero_of_holds hx h (by simp)
  have h := (holds_interval_iff hx).1 h
  by_cases hfull : x.scale = 0 ∨ 2 ^ 52 ≤ inUnits x.scale (num / den)
  · rw [← magnitude_eq]
    exact nearestWord_of_fits hnum hden ⟨h.lt, hfull⟩ h.nearest
  · obtain ⟨hscale, hlow⟩ := not_or.1 hfull
    obtain ⟨hm, hhigh⟩ := h.power hscale (not_le.1 hlow)
    obtain ⟨s, hs⟩ : ∃ s, x.scale = s + 1 := Nat.exists_eq_succ_of_ne_zero hscale
    have htwice := inUnits_succ s (num / den)
    rw [← hs] at htwice
    have hfits : Fits s (num / den) := ⟨by linarith, .inr (by linarith)⟩
    have hnearest : Nearest (inUnits s (num / den)) (2 ^ 53) :=
      ⟨abs_le.2 ⟨by push_cast; linarith, by push_cast; linarith⟩, fun _ => by decide⟩
    rw [← magnitude_eq, nearestWord_of_fits hnum hden hfits hnearest, hm, hs, exponentPlace_eq]
    ring

/-! ## Decimals -/

/-- The value of a decimal lies between the powers of ten next to its leading digit. -/
theorem value_bounds {d : Decimal} (h : d.coefficient ≠ 0) :
    (10 : ℚ) ^ (d.exponent + (Nat.toDigits 10 d.coefficient).length - 1) ≤ d.value ∧
      d.value < 10 ^ (d.exponent + (Nat.toDigits 10 d.coefficient).length) := by
  have hdigits : 0 < (Nat.toDigits 10 d.coefficient).length := Nat.length_toDigits_pos
  obtain ⟨n, hn⟩ := Nat.exists_eq_succ_of_ne_zero hdigits.ne'
  have hlow : 10 ^ n ≤ d.coefficient := by
    rcases Nat.eq_zero_or_pos n with rfl | hpos
    · exact Nat.pos_of_ne_zero h
    · rw [← not_lt, ← Nat.length_toDigits_le_iff (by decide) hpos]
      omega
  have hhigh : d.coefficient < 10 ^ (n + 1) :=
    (Nat.length_toDigits_le_iff (by decide) (Nat.succ_pos n)).1 hn.le
  rw [hn]
  constructor
  · rw [show d.exponent + (n.succ : Int) - 1 = n + d.exponent by push_cast; ring, zpow_add₀ (by norm_num),
      zpow_natCast]
    exact mul_le_mul_of_nonneg_right (by exact_mod_cast hlow) (by positivity)
  · rw [show d.exponent + (n.succ : Int) = (n + 1 : Nat) + d.exponent by push_cast; ring,
      zpow_add₀ (by norm_num), zpow_natCast]
    exact mul_lt_mul_of_pos_right (by exact_mod_cast hhigh) (by positivity)

/-- A decimal in range is read as a fraction. -/
theorem decimalWord_eq {d : Decimal} (h : d.coefficient ≠ 0)
    (hlow : placeRange.1 ≤ d.exponent + (Nat.toDigits 10 d.coefficient).length)
    (hhigh : d.exponent + (Nat.toDigits 10 d.coefficient).length ≤ placeRange.2) :
    ∃ num den : Nat, den ≠ 0 ∧ d.value = num / den ∧
      decimalWord d = min (nearestWord num den) infinityWord := by
  have hzero : (d.coefficient == 0 ||
      decide (d.exponent + (Nat.toDigits 10 d.coefficient).length < placeRange.1)) = false := by
    simpa using And.intro h hlow
  unfold decimalWord
  dsimp only
  rw [hzero, if_neg Bool.false_ne_true, if_neg (not_lt.2 hhigh)]
  split
  · next hexponent =>
    obtain ⟨n, hn⟩ := Int.eq_ofNat_of_zero_le hexponent
    refine ⟨_, 1, one_ne_zero, ?_, rfl⟩
    rw [Decimal.value, hn, Int.toNat_natCast, Nat.pow_eq, zpow_natCast]
    push_cast
    ring
  · next hexponent =>
    obtain ⟨n, hn⟩ := Int.eq_ofNat_of_zero_le (show 0 ≤ -d.exponent by omega)
    refine ⟨_, _, (Nat.pow_pos (by decide)).ne', ?_, rfl⟩
    rw [Decimal.value, ← neg_neg d.exponent, hn, neg_neg, Int.toNat_natCast, zpow_neg,
      zpow_natCast, div_eq_mul_inv]
    push_cast
    rfl

theorem ten_zpow_lt_two_zpow : (10 : ℚ) ^ (-324 : Int) < 2 ^ (-1075 : Int) := by
  rw [zpow_neg, zpow_neg]
  refine inv_strictAnti₀ (by positivity) ?_
  exact_mod_cast (by decide +kernel : 2 ^ 1075 < 10 ^ 324)

theorem two_zpow_lt_ten_zpow : (2 : ℚ) ^ (1024 : Int) < 10 ^ (309 : Int) := by
  exact_mod_cast (by decide +kernel : 2 ^ 1024 < 10 ^ 309)

/-- What the interval of a finite number holds is neither too small nor too large. -/
theorem bounds_of_holds {x : Binary64} (h : x.isFinite = true) (hx : x.magnitude ≠ 0) {q : ℚ}
    (hq : x.interval.Holds q) : (2 : ℚ) ^ (-1075 : Int) ≤ q ∧ q < 2 ^ (1024 : Int) := by
  have haround := (holds_interval_iff hx).1 hq
  have hscale := scale_lt h
  rw [← inUnits_le_inUnits x.scale, ← inUnits_lt_inUnits x.scale, inUnits_two_zpow, inUnits_two_zpow]
  constructor
  · calc (2 : ℚ) ^ (-1075 + 1074 - (x.scale : Int)) ≤ 2 ^ (-1 : Int) :=
          zpow_le_zpow_right₀ one_le_two (by omega)
      _ = 1 / 2 := by norm_num
      _ ≤ inUnits x.scale q := haround.half_le hx
  · calc inUnits x.scale q < 2 ^ 53 := haround.lt
      _ = 2 ^ (53 : Int) := by norm_num
      _ ≤ 2 ^ (1024 + 1074 - (x.scale : Int)) := zpow_le_zpow_right₀ one_le_two (by omega)

theorem decimalWord_of_holds {x : Binary64} (h : x.isFinite = true) (hx : x.magnitude ≠ 0) {d : Decimal}
    (hd : x.interval.Holds d.value) : decimalWord d = x.magnitude := by
  have hbounds := bounds_of_holds h hx hd
  have hlow := ten_zpow_lt_two_zpow.trans_le hbounds.1
  have hhigh := hbounds.2.trans two_zpow_lt_ten_zpow
  have hzero : d.coefficient ≠ 0 := by
    intro hzero
    exact ne_zero_of_holds hx hd (by rw [Decimal.value, hzero, Nat.cast_zero, zero_mul])
  obtain ⟨hleast, hmost⟩ := value_bounds hzero
  have hten : (1 : ℚ) < 10 := by norm_num
  have hplace := (zpow_lt_zpow_iff_right₀ hten).1 (hleast.trans_lt hhigh)
  have hplace' := (zpow_lt_zpow_iff_right₀ hten).1 (hlow.trans hmost)
  obtain ⟨num, den, hden, hvalue, hword⟩ := decimalWord_eq hzero
    (by rw [placeRange]; omega) (by rw [placeRange]; omega)
  rw [hword, nearestWord_of_holds hx hden (hvalue ▸ hd)]
  exact min_eq_left (of_decide_eq_true h).le

/-- A number is its sign and its magnitude. -/
theorem ofMagnitude_magnitude (x : Binary64) : ofMagnitude x.negative x.magnitude = x := by
  have hplace : signPlace = 2 ^ 63 := rfl
  have hlt : x.bits.toNat < 2 ^ 64 := x.bits.toNat_lt
  have hword : x.magnitude + (if x.negative then signPlace else 0) = x.bits.toNat := by
    rw [magnitude, negative, hplace]
    split
    · next h =>
      rw [decide_eq_true_eq] at h
      omega
    · next h =>
      rw [decide_eq_true_eq] at h
      omega
  rw [ofMagnitude, hword, UInt64.ofNat_toNat]

/-- A decimal in the interval of a finite number other than zero is read as this number. -/
theorem ofDecimal_of_holds {x : Binary64} (h : x.isFinite = true) (hx : x.magnitude ≠ 0) {d : Decimal}
    (hd : x.interval.Holds d.value) : ofDecimal x.negative d = x := by
  rw [ofDecimal, decimalWord_of_holds h hx hd, ofMagnitude_magnitude]

end Binary64

end ExprTree
