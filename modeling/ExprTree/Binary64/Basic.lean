/-!
# Double-precision numbers

A `Binary64` is a 64-bit word read as a sign, an 11-bit exponent and a 52-bit fraction. Words are
kept instead of run-time floating-point values, so that every operation here is exact arithmetic on
natural numbers. Two equalities live side by side: equality of words, and `numEq`, the numeric one,
under which the two zeros agree and a NaN agrees with nothing.
-/

namespace ExprTree

/-- A double-precision number, given by its word. -/
structure Binary64 where
  bits : UInt64
  deriving DecidableEq, Inhabited

namespace Binary64

/-- The place value of the sign bit. -/
def signPlace : Nat := 1 <<< 63

/-- The place value of the lowest exponent bit. -/
def exponentPlace : Nat := 1 <<< 52

/-- The magnitude word of an infinity; larger ones are NaNs. -/
def infinityWord : Nat := 2047 * exponentPlace

/-- The word without its sign bit. -/
def magnitude (x : Binary64) : Nat := x.bits.toNat % signPlace

/-- Is the sign bit set? -/
def negative (x : Binary64) : Bool := decide (signPlace ≤ x.bits.toNat)

/-- The number with a given sign and magnitude word. -/
def ofMagnitude (negative : Bool) (magnitude : Nat) : Binary64 :=
  ⟨UInt64.ofNat (magnitude + if negative then signPlace else 0)⟩

/-- Positive zero. -/
def zero : Binary64 := ofMagnitude false 0

/-- The quiet NaN with an empty payload. -/
def quietNaN (negative : Bool) : Binary64 := ofMagnitude negative (infinityWord + (1 <<< 51))

/-- The infinity of a given sign. -/
def infinity (negative : Bool) : Binary64 := ofMagnitude negative infinityWord

/-- Is it no number? -/
def isNaN (x : Binary64) : Bool := decide (infinityWord < x.magnitude)

/-- Is it neither infinite nor a NaN? -/
def isFinite (x : Binary64) : Bool := decide (x.magnitude < infinityWord)

/-- Numeric equality: zeros agree whatever their sign, and a NaN agrees with nothing. -/
def numEq (x y : Binary64) : Bool :=
  !x.isNaN && !y.isNaN && (x == y || (x.magnitude == 0 && y.magnitude == 0))

/-- The significand `m` of a finite magnitude `m * 2 ^ (scale - 1074)`. -/
def significand (x : Binary64) : Nat :=
  if x.magnitude < exponentPlace then x.magnitude
  else exponentPlace + x.magnitude % exponentPlace

/-- The binary exponent of a finite magnitude, counted from the least one, `-1074`. -/
def scale (x : Binary64) : Nat := x.magnitude / exponentPlace - 1

end Binary64

end ExprTree
