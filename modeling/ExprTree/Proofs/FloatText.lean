import Mathlib.Tactic.Linarith
import Mathlib.Tactic.Ring
import ExprTree.Proofs.ShortestDigits
import ExprTree.Proofs.Spelling

/-!
# The text of a finite number

A number is read back from its text if and only if it is finite (`Binary64.readsBack_iff_isFinite`). A float
literal has a digit before the point, and a fraction or an exponent, which no integer has (`FloatParts`), and
it is cut off as a whole (`FloatParts.scans`). Both layouts of a number have this form and denote what the
digits at their place denote (`exists_parts_write`). The digits are those of the shortest decimal without the
zeros at the end, which is read as the number (`Binary64.decimalWord_of_holds`, `Binary64.holds_shortest`).
-/

namespace ExprTree

namespace Binary64

/-! ## Digits -/

theorem foldl_digits (n : Nat) (digits : List Char) :
    digits.foldl (fun n c => 10 * n + Decimal.digitValue c) n =
      n * 10 ^ digits.length + Decimal.ofDigits digits := by
  induction digits generalizing n with
  | nil => simp [Decimal.ofDigits]
  | cons c digits ih =>
    have hsingle : Decimal.ofDigits (c :: digits) =
        digits.foldl (fun n c => 10 * n + Decimal.digitValue c) (10 * 0 + Decimal.digitValue c) := rfl
    rw [hsingle, List.foldl_cons, ih, ih, List.length_cons]
    ring

theorem ofDigits_append (digits digits' : List Char) : Decimal.ofDigits (digits ++ digits') =
    Decimal.ofDigits digits * 10 ^ digits'.length + Decimal.ofDigits digits' := by
  rw [Decimal.ofDigits, List.foldl_append, foldl_digits]
  rfl

theorem ofDigits_zeros (n : Nat) : Decimal.ofDigits (List.replicate n '0') = 0 := by
  induction n with
  | zero => rfl
  | succ n ih => exact ih

theorem ofDigits_zeros_append (n : Nat) (digits : List Char) :
    Decimal.ofDigits (List.replicate n '0' ++ digits) = Decimal.ofDigits digits := by
  rw [ofDigits_append, ofDigits_zeros, Nat.zero_mul, Nat.zero_add]

/-- Zeros at the end multiply by a power of ten. -/
theorem ofDigits_append_zeros (digits : List Char) (n : Nat) :
    Decimal.ofDigits (digits ++ List.replicate n '0') = Decimal.ofDigits digits * 10 ^ n := by
  rw [ofDigits_append, ofDigits_zeros, List.length_replicate, Nat.add_zero]

theorem exists_zeros (digits : List Char) :
    ∃ n, dropTrailingZeros digits ++ List.replicate n '0' = digits := by
  refine ⟨(digits.reverse.takeWhile (· == '0')).length, ?_⟩
  have hzeros : digits.reverse.takeWhile (· == '0') =
      List.replicate (digits.reverse.takeWhile (· == '0')).length '0' :=
    List.eq_replicate_of_mem fun c hc => by
      have hc := List.mem_takeWhile_imp hc
      exact beq_iff_eq.1 hc
  rw [dropTrailingZeros, ← List.reverse_replicate, ← hzeros, ← List.reverse_append,
    List.takeWhile_append_dropWhile, List.reverse_reverse]

theorem mem_of_mem_dropTrailingZeros {digits : List Char} {c : Char} (h : c ∈ dropTrailingZeros digits) :
    c ∈ digits := by
  obtain ⟨n, hn⟩ := exists_zeros digits
  exact hn ▸ List.mem_append_left _ h

/-- Without the zeros at the end, the digits of a number denote it at the place of the first one. -/
theorem value_dropTrailingZeros (d : Decimal) :
    (Decimal.ofDigits (dropTrailingZeros (Nat.toDigits 10 d.coefficient)) : ℚ) *
      10 ^ (d.exponent + (Nat.toDigits 10 d.coefficient).length - 1 + 1 -
        (dropTrailingZeros (Nat.toDigits 10 d.coefficient)).length) = d.value := by
  obtain ⟨n, hn⟩ := exists_zeros (Nat.toDigits 10 d.coefficient)
  have hlength := congrArg List.length hn
  have hvalue := congrArg Decimal.ofDigits hn
  rw [List.length_append, List.length_replicate] at hlength
  rw [ofDigits_append_zeros, Lexer.ofDigits_toDigits] at hvalue
  rw [Decimal.value, ← hlength, Nat.cast_add]
  have hexponent (m : Int) : d.exponent + (m + n) - 1 + 1 - m = n + d.exponent := by ring
  rw [hexponent, zpow_add₀ (by norm_num), zpow_natCast, ← mul_assoc]
  congr 1
  exact_mod_cast hvalue

theorem dropTrailingZeros_ne_nil {d : Decimal} (h : d.value ≠ 0) :
    dropTrailingZeros (Nat.toDigits 10 d.coefficient) ≠ [] := by
  intro hnil
  have hvalue := value_dropTrailingZeros d
  rw [hnil] at hvalue
  exact h (hvalue.symm.trans (zero_mul _))

end Binary64

namespace Lexer

/-! ## Float literals -/

/-- A point and the digits behind it, if there are any. -/
def pointed (fraction : List Char) : List Char := if fraction.isEmpty then [] else '.' :: fraction

/-- The mark of an exponent and the exponent, if there is one. -/
def marked : Option Int → List Char
  | none => []
  | some n => 'e' :: (toString n).toList

/-- The parts of a float literal without its sign. There is a digit before the point, and a fraction or
an exponent, which no integer has. -/
structure FloatParts where
  whole : List Char
  fraction : List Char
  exponent : Option Int
  digits : ∀ c ∈ whole ++ fraction, c.isDigit = true
  nonempty : whole ≠ []
  float : (fraction.isEmpty && exponent.isNone) = false

/-- The text of a float literal without its sign. -/
def FloatParts.text (p : FloatParts) : List Char := p.whole ++ (pointed p.fraction ++ marked p.exponent)

/-- The decimal that a float literal denotes without its sign. -/
def FloatParts.decimal (p : FloatParts) : Decimal := .ofParts p.whole p.fraction (p.exponent.getD 0)

/-- The text of a float literal, perhaps with a minus sign. -/
def FloatParts.signed (p : FloatParts) (negative : Bool) : List Char :=
  if negative then '-' :: p.text else p.text

theorem scanFraction_pointed {fraction rest : List Char} (h : ∀ c ∈ fraction, c.isDigit = true)
    (hrest : ∀ c ∈ rest.head?, c = 'e') (offset : Nat) :
    ∃ offset', scanFraction ⟨offset, pointed fraction ++ rest⟩ = (fraction, ⟨offset', rest⟩) := by
  cases fraction with
  | nil =>
    cases rest with
    | nil => exact ⟨offset, rfl⟩
    | cons c rest =>
      obtain rfl := hrest c rfl
      exact ⟨offset, rfl⟩
  | cons c fraction =>
    have hspan := span_digits_append h (fun c hc => by rw [hrest c hc]; rfl) (offset + byteLength ['.'])
    have htext : pointed (c :: fraction) ++ rest = '.' :: (c :: fraction ++ rest) := rfl
    have hhead : (c :: fraction ++ rest).head?.any Char.isDigit = true := h c List.mem_cons_self
    have hscan : scanFraction ⟨offset, '.' :: (c :: fraction ++ rest)⟩ =
        (Cursor.mk (offset + byteLength ['.']) (c :: fraction ++ rest)).span Char.isDigit := if_pos hhead
    exact ⟨_, by rw [htext, hscan, hspan]⟩

theorem takeSign_digits {digits : List Char} (h : ∀ c ∈ digits, c.isDigit = true) (offset : Nat) :
    takeSign ⟨offset, digits⟩ = ([], ⟨offset, digits⟩) := by
  cases digits with
  | nil => rfl
  | cons c digits =>
    have hc := h c List.mem_cons_self
    unfold takeSign
    split
    · next heq => cases heq; cases hc
    · next heq => cases heq; cases hc
    · rfl

/-- The digits of an exponent behind its sign. -/
theorem scanExponent_digits {cs sign : List Char} {n offset o₁ : Nat}
    (hsign : takeSign ⟨offset + byteLength ['e'], cs⟩ = (sign, ⟨o₁, Nat.toDigits 10 n⟩)) :
    scanExponent ⟨offset, 'e' :: cs⟩ = (some (if sign == ['-'] then -(n : Int) else n),
      ⟨o₁ + byteLength (Nat.toDigits 10 n), []⟩) := by
  simp only [scanExponent, Cursor.behind, hsign, any_isDigit_toDigits, span_digits isDigit_of_mem_toDigits,
    ofDigits_toDigits, beq_self_eq_true, Bool.true_or, Bool.and_self, reduceIte]

/-- An exponent is read back. -/
theorem scanExponent_marked (exponent : Option Int) (offset : Nat) :
    ∃ offset', scanExponent ⟨offset, marked exponent⟩ = (exponent, ⟨offset', []⟩) := by
  cases exponent with
  | none => exact ⟨offset, rfl⟩
  | some n =>
    rw [marked, toList_toString_int]
    split
    · next hn =>
      rw [scanExponent_digits (takeSign_digits isDigit_of_mem_toDigits _)]
      refine ⟨_, Prod.ext (congrArg some ?_) rfl⟩
      exact Int.toNat_of_nonneg hn
    · next hn =>
      have hsign : takeSign ⟨offset + byteLength ['e'], '-' :: Nat.toDigits 10 (-n).toNat⟩ =
          (['-'], ⟨offset + byteLength ['e'] + byteLength ['-'], Nat.toDigits 10 (-n).toNat⟩) := rfl
      rw [scanExponent_digits hsign]
      refine ⟨_, Prod.ext (congrArg some ?_) rfl⟩
      rw [if_pos (beq_self_eq_true _), Int.toNat_of_nonneg (by omega), Int.neg_neg]

theorem head_marked (exponent : Option Int) : ∀ c ∈ (marked exponent).head?, c = 'e' := by
  cases exponent with
  | none => nofun
  | some n => exact fun c hc => (Option.some.inj hc).symm

theorem head_pointed {fraction rest : List Char} (hrest : ∀ c ∈ rest.head?, c = 'e') :
    ∀ c ∈ (pointed fraction ++ rest).head?, c.isDigit = false := by
  cases fraction with
  | nil => exact fun c hc => by rw [hrest c hc]; rfl
  | cons c fraction => exact fun c hc => by rw [← Option.some.inj hc]; rfl

/-- What follows the first character of a float literal. -/
theorem scanNumber_floatParts {first : Char} {digits fraction : List Char} {exponent : Option Int}
    (hdigits : ∀ c ∈ digits, c.isDigit = true) (hfraction : ∀ c ∈ fraction, c.isDigit = true)
    (hfloat : (fraction.isEmpty && exponent.isNone) = false) (start offset : Nat) :
    ∃ offset', scanNumber start first ⟨offset, digits ++ (pointed fraction ++ marked exponent)⟩ =
      { lexeme := some (.float (.ofDecimal (first == '-') (.ofParts
          (if first == '-' then digits else first :: digits) fraction (exponent.getD 0)))),
        next := ⟨offset', []⟩ } := by
  obtain ⟨o₁, hfraction⟩ := scanFraction_pointed hfraction (head_marked exponent)
    (offset + byteLength digits)
  obtain ⟨o₂, hexponent⟩ := scanExponent_marked exponent o₁
  refine ⟨o₂, ?_⟩
  simp only [scanNumber, span_digits_append hdigits (head_pointed (head_marked exponent)), hfraction,
    hexponent, hfloat, Bool.false_eq_true, reduceIte]

/-- A float literal is cut off as a whole, with or without a minus sign. -/
theorem FloatParts.scans (p : FloatParts) (negative : Bool) : ∃ first cs, p.signed negative = first :: cs ∧
    startsNumber first cs = true ∧ ∀ start offset, ∃ offset', scanNumber start first ⟨offset, cs⟩ =
      { lexeme := some (.float (.ofDecimal negative p.decimal)), next := ⟨offset', []⟩ } := by
  obtain ⟨whole, fraction, exponent, hall, hne, hfloat⟩ := p
  obtain ⟨hwhole, hfraction⟩ := List.forall_mem_append.1 hall
  cases negative with
  | true =>
    have hhead := any_isDigit_append hwhole hne (pointed fraction ++ marked exponent)
    refine ⟨'-', _, rfl, ?_, scanNumber_floatParts hwhole hfraction hfloat⟩
    rw [startsNumber, beq_self_eq_true, Bool.true_and]
    exact Bool.or_eq_true_iff.2 (.inr hhead)
  | false =>
    obtain ⟨first, digits, rfl⟩ := List.exists_cons_of_ne_nil hne
    have hfirst : first.isDigit = true := hwhole first List.mem_cons_self
    have hminus : (first == '-') = false := beq_eq_false_iff_ne.2 (by rintro rfl; cases hfirst)
    have hdigits : ∀ d ∈ digits, d.isDigit = true := fun d hd => hwhole d (List.mem_cons_of_mem first hd)
    refine ⟨first, _, rfl, by rw [startsNumber, hfirst, Bool.true_or], fun start offset => ?_⟩
    obtain ⟨offset', hscan⟩ := scanNumber_floatParts hdigits hfraction hfloat start offset
    refine ⟨offset', hscan.trans ?_⟩
    rw [hminus]
    rfl

end Lexer

namespace Binary64

open Lexer

/-! ## Layouts of numbers -/

theorem forall_mem_zeros (n : Nat) : ∀ c ∈ List.replicate n '0', c.isDigit = true := by
  intro c hc
  rw [List.eq_of_mem_replicate hc]
  rfl

theorem toList_pointed (fraction : List Char) :
    (if fraction.isEmpty then "" else "." ++ String.ofList fraction).toList = pointed fraction := by
  unfold pointed
  split
  · rfl
  · rw [String.toList_append, String.toList_ofList, String.toList_ofList]
    rfl

/-- One digit before the point, and an exponent. -/
theorem exists_parts_marked {digits : List Char} (h : ∀ c ∈ digits, c.isDigit = true) (hne : digits ≠ [])
    (place : Int) : ∃ p : FloatParts,
      p.text = digits.take 1 ++ (pointed (digits.drop 1) ++ marked (some place)) ∧
      p.decimal.value = Decimal.ofDigits digits * 10 ^ (place + 1 - digits.length) := by
  have hall : ∀ c ∈ digits.take 1 ++ digits.drop 1, c.isDigit = true := by
    rwa [List.take_append_drop]
  refine ⟨⟨digits.take 1, digits.drop 1, some place, hall, by simpa using hne, Bool.and_false _⟩, rfl, ?_⟩
  have hlength := List.length_pos_iff.2 hne
  have hexponent : place - (digits.drop 1).length = place + 1 - digits.length := by
    rw [List.length_drop]
    omega
  change (Decimal.ofDigits (digits.take 1 ++ digits.drop 1) : ℚ) * 10 ^ (place - (digits.drop 1).length) = _
  rw [List.take_append_drop, hexponent]

/-- A zero before the point, and zeros up to the digits. -/
theorem exists_parts_small {digits : List Char} (h : ∀ c ∈ digits, c.isDigit = true) (hne : digits ≠ [])
    {place : Int} (hplace : place < 0) : ∃ p : FloatParts,
      p.text = ['0', '.'] ++ (List.replicate ((-place).toNat - 1) '0' ++ digits) ∧
      p.decimal.value = Decimal.ofDigits digits * 10 ^ (place + 1 - digits.length) := by
  obtain ⟨zeros, hzeros⟩ : ∃ zeros, (-place).toNat - 1 = zeros := ⟨_, rfl⟩
  rw [hzeros]
  have hall : ∀ c ∈ ['0'] ++ (List.replicate zeros '0' ++ digits), c.isDigit = true :=
    List.forall_mem_append.2 ⟨forall_mem_zeros 1, List.forall_mem_append.2 ⟨forall_mem_zeros _, h⟩⟩
  refine ⟨⟨['0'], List.replicate zeros '0' ++ digits, none, hall, List.cons_ne_nil _ _, ?_⟩, ?_, ?_⟩
  · simp [hne]
  · simp [FloatParts.text, pointed, marked, hne]
  · have hexponent : 0 - ((List.replicate zeros '0' ++ digits).length : Int) = place + 1 - digits.length := by
      rw [List.length_append, List.length_replicate]
      omega
    change (Decimal.ofDigits (List.replicate 1 '0' ++ (List.replicate zeros '0' ++ digits)) : ℚ) *
      10 ^ (0 - ((List.replicate zeros '0' ++ digits).length : Int)) = _
    rw [ofDigits_zeros_append, ofDigits_zeros_append, hexponent]

/-- The digits before the point, filled up with zeros, and a zero behind it. -/
theorem exists_parts_filled {digits : List Char} (h : ∀ c ∈ digits, c.isDigit = true) (hne : digits ≠ [])
    (zeros : Nat) : ∃ p : FloatParts, p.text = digits ++ List.replicate zeros '0' ++ ['.', '0'] ∧
      p.decimal.value = Decimal.ofDigits digits * 10 ^ zeros := by
  have hwhole : ∀ c ∈ digits ++ List.replicate zeros '0', c.isDigit = true :=
    List.forall_mem_append.2 ⟨h, forall_mem_zeros _⟩
  refine ⟨⟨digits ++ List.replicate zeros '0', ['0'], none,
    List.forall_mem_append.2 ⟨hwhole, forall_mem_zeros 1⟩, List.append_ne_nil_of_left_ne_nil hne _, rfl⟩,
    rfl, ?_⟩
  change (Decimal.ofDigits (digits ++ List.replicate zeros '0' ++ List.replicate 1 '0') : ℚ) *
    10 ^ (0 - (1 : Nat) : Int) = _
  rw [ofDigits_append_zeros, ofDigits_append_zeros]
  simp

/-- Some of the digits before the point and the others behind it. -/
theorem exists_parts_split {digits : List Char} (h : ∀ c ∈ digits, c.isDigit = true) {width : Nat}
    (hpos : 0 < width) (hwidth : width < digits.length) : ∃ p : FloatParts,
      p.text = digits.take width ++ '.' :: digits.drop width ∧
      p.decimal.value = Decimal.ofDigits digits * 10 ^ ((width : Int) - digits.length) := by
  have hall : ∀ c ∈ digits.take width ++ digits.drop width, c.isDigit = true := by
    rwa [List.take_append_drop]
  have hwhole : digits.take width ≠ [] := List.ne_nil_of_length_pos (by rw [List.length_take]; omega)
  refine ⟨⟨digits.take width, digits.drop width, none, hall, hwhole, ?_⟩, ?_, ?_⟩
  · simpa using hwidth
  · simp [FloatParts.text, pointed, marked, hwidth]
  · have hexponent : 0 - ((digits.drop width).length : Int) = width - digits.length := by
      rw [List.length_drop]
      omega
    change (Decimal.ofDigits (digits.take width ++ digits.drop width) : ℚ) *
      10 ^ (0 - ((digits.drop width).length : Int)) = _
    rw [List.take_append_drop, hexponent]

/-- Digits are laid out as a float literal that denotes them at their place. -/
theorem exists_parts_write {digits : List Char} (h : ∀ c ∈ digits, c.isDigit = true) (hne : digits ≠ [])
    (place : Int) : ∃ p : FloatParts, (numberLayout.write digits place).toList = p.text ∧
      p.decimal.value = Decimal.ofDigits digits * 10 ^ (place + 1 - digits.length) := by
  unfold NumberLayout.write
  split
  · obtain ⟨p, htext, hvalue⟩ := exists_parts_marked h hne place
    have hmark : numberLayout.mark.toList = ['e'] := by decide
    refine ⟨p, ?_, hvalue⟩
    simp only [String.toList_append, String.toList_ofList, toList_pointed, hmark, htext, marked,
      List.append_assoc, List.singleton_append]
  split
  · next hplace =>
    obtain ⟨p, htext, hvalue⟩ := exists_parts_small h hne hplace
    refine ⟨p, ?_, hvalue⟩
    rw [htext, String.toList_append, String.toList_ofList, String.toList_ofList]
  · next hplace =>
    obtain ⟨width, hwidth⟩ : ∃ width, place.toNat + 1 = width := ⟨_, rfl⟩
    have hexponent : place + 1 - digits.length = (width : Int) - digits.length := by omega
    rw [hexponent, hwidth]
    dsimp only
    rcases Nat.lt_or_ge width digits.length with hlt | hge
    · obtain ⟨p, htext, hvalue⟩ := exists_parts_split h (hwidth ▸ Nat.succ_pos _) hlt
      refine ⟨p, ?_, hvalue⟩
      rw [htext]
      simp [Nat.sub_eq_zero_of_le hlt.le, Nat.not_le.2 hlt]
    · obtain ⟨zeros, rfl⟩ := Nat.exists_eq_add_of_le hge
      obtain ⟨p, htext, hvalue⟩ := exists_parts_filled h hne zeros
      refine ⟨p, ?_, ?_⟩
      · rw [htext]
        simp [numberLayout]
      · rw [hvalue]
        simp

theorem isNaN_of_isFinite {x : Binary64} (h : x.isFinite = true) : x.isNaN = false := by
  rw [isFinite, decide_eq_true_eq] at h
  exact decide_eq_false (Nat.lt_asymm h)

/-- A finite number is written as a float literal that is read as it, apart from its sign. -/
theorem exists_parts_magnitudeText {x : Binary64} (h : x.isFinite = true) :
    ∃ p : FloatParts, x.magnitudeText.toList = p.text ∧ ofDecimal x.negative p.decimal = x := by
  unfold magnitudeText
  rw [isNaN_of_isFinite h, h]
  simp only [Bool.false_eq_true, Bool.not_true, reduceIte]
  split
  · next hzero =>
    refine ⟨⟨['0'], ['0'], none, forall_mem_zeros 2, List.cons_ne_nil _ _, rfl⟩, by decide, ?_⟩
    have hword : ofMagnitude x.negative 0 = ofMagnitude x.negative x.magnitude := by rw [beq_iff_eq.1 hzero]
    exact hword.trans (ofMagnitude_magnitude x)
  · next hne =>
    have hx : x.magnitude ≠ 0 := mt beq_iff_eq.2 hne
    have hshortest := holds_shortest h hx
    obtain ⟨p, htext, hvalue⟩ := exists_parts_write
      (fun c hc => isDigit_of_mem_toDigits c (mem_of_mem_dropTrailingZeros hc))
      (dropTrailingZeros_ne_nil (ne_zero_of_holds hx hshortest)) _
    rw [value_dropTrailingZeros] at hvalue
    exact ⟨p, htext, ofDecimal_of_holds h hx (hvalue ▸ hshortest)⟩

theorem readsBack_of_isFinite {x : Binary64} (h : x.isFinite = true) : x.readsBack = true := by
  obtain ⟨p, htext, hvalue⟩ := exists_parts_magnitudeText h
  have hsigned : x.text.toList = p.signed x.negative := by
    rw [text, isNaN_of_isFinite h, FloatParts.signed, ← htext, Bool.not_false, Bool.and_true]
    split
    · rw [String.toList_append]
      rfl
    · rfl
  obtain ⟨first, cs, hcs, hstart, hscan⟩ := p.scans x.negative
  obtain ⟨offset, hscan⟩ := hscan 0 0
  rw [readsBack, hsigned, hcs]
  simp only [hstart, hscan, hvalue, beq_self_eq_true, List.isEmpty_nil, Bool.and_self]

/-- A number is read back from its text if and only if it is finite. -/
theorem readsBack_iff_isFinite {x : Binary64} : x.readsBack = true ↔ x.isFinite = true := by
  refine ⟨fun h => ?_, readsBack_of_isFinite⟩
  by_contra hfinite
  rw [Bool.not_eq_true] at hfinite
  have hmagnitude : x.magnitudeText = if x.isNaN then "NaN" else "inf" := by
    rw [magnitudeText, hfinite]
    rfl
  -- the words for NaN and infinity do not start as numbers do
  obtain ⟨first, cs, htext, hstart⟩ : ∃ first cs, x.text.toList = first :: cs ∧
      startsNumber first cs = false := by
    rw [text, hmagnitude]
    cases x.isNaN <;> cases x.negative <;> exact ⟨_, _, rfl, rfl⟩
  simp only [readsBack, htext, hstart, Bool.false_and, Bool.false_eq_true] at h

end Binary64

end ExprTree
