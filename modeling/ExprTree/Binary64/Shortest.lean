import ExprTree.Binary64.Rounding

/-!
# Writing numbers with the fewest digits

`shortest` finds, for a finite non-zero magnitude, the decimal with the fewest digits among those
that read back as the same number, and of these the nearest. It tries 1, 2, … 17 digits: on each
decimal grid only the two neighbours of the value matter, since the reals that round to a number
form an interval around it. `text` lays the digits out by the rule in `numberLayout`.
-/

namespace ExprTree

namespace Binary64

/-- The reals that read back as a number: it stands at `value`, and the interval runs from `low` to
`high`, all in units of `1 / unit`. The ends belong to it when the significand is even. -/
structure Interval where
  low : Nat
  value : Nat
  high : Nat
  unit : Nat
  closed : Bool

/-- The interval of a finite non-zero magnitude. Below a power of two the gap to the next lower
number is half as wide. -/
def interval (x : Binary64) : Interval :=
  let m := x.significand
  let below := if m == exponentPlace && 0 < x.scale then 1 else 2
  let factor := if 1076 ≤ x.scale then Nat.pow 2 (x.scale - 1076) else 1
  let unit := if 1076 ≤ x.scale then 1 else Nat.pow 2 (1076 - x.scale)
  { low := (4 * m - below) * factor
    value := 4 * m * factor
    high := (4 * m + 2) * factor
    unit := unit
    closed := m % 2 == 0 }

/-- Does the point `p / unit` belong to the interval? -/
def Interval.contains (i : Interval) (p : Nat) : Bool :=
  if i.closed then i.low ≤ p && p ≤ i.high else i.low < p && p < i.high

/-- The interval in units of `10 ^ place / unit`, as far as the integers allow. -/
def Interval.atPlace (i : Interval) (place : Int) : Interval :=
  if 0 ≤ place then { i with unit := i.unit * Nat.pow 10 place.toNat }
  else
    let f := Nat.pow 10 (-place).toNat
    { i with low := i.low * f, value := i.value * f, high := i.high * f }

/-- The place of the leading decimal digit of `num / den`. -/
def leadingPlace (num den : Nat) : Int :=
  let guess : Int := ((num.log2 : Int) - den.log2) * 30103 / 100000 - 1
  let reaches (place : Int) : Bool :=
    if 0 ≤ place then den * Nat.pow 10 place.toNat ≤ num else den ≤ num * Nat.pow 10 (-place).toNat
  if reaches (guess + 3) then guess + 3
  else if reaches (guess + 2) then guess + 2
  else if reaches (guess + 1) then guess + 1
  else guess

/-- The nearest multiple of `10 ^ place` that reads back, if there is one; a tie goes up. -/
def candidate? (i : Interval) (place : Int) : Option Nat :=
  let j := i.atPlace place
  let n := j.value / j.unit
  let down := n * j.unit
  let up := (n + 1) * j.unit
  if j.contains down && j.contains up then
    some (if j.value - down < up - j.value then n else n + 1)
  else if j.contains down then some n
  else if j.contains up then some (n + 1)
  else none

/-- The first grid with a hit, counting digits up from `17 - more`. -/
def searchDigits (i : Interval) (lead : Int) : Nat → Decimal
  | 0 => ⟨(i.atPlace (lead - 16)).value / (i.atPlace (lead - 16)).unit, lead - 16⟩
  | more + 1 =>
    let place := lead - (16 - more)
    match candidate? i place with
    | some n => ⟨n, place⟩
    | none => searchDigits i lead more

/-- The decimal with the fewest digits that reads back as a finite non-zero magnitude. -/
def shortest (x : Binary64) : Decimal :=
  let i := x.interval
  searchDigits i (leadingPlace i.value i.unit) 17

/-- How the digits of a number are laid out. -/
structure NumberLayout where
  /-- Numbers whose leading digit stands at one of the places from `least` to `most` are written
  positionally, others with an exponent. -/
  least : Int
  most : Int
  /-- The mark before an exponent, which has no sign unless it is negative. -/
  mark : String
  /-- What follows the digits of a positional number without a fraction. -/
  whole : String

/-- Numbers from 0.0001 up to 10^16 are positional, with at least one digit after the point. -/
def numberLayout : NumberLayout where
  least := -4
  most := 15
  mark := "e"
  whole := ".0"

/-- Drops the zeros at the end of a list of digits. -/
def dropTrailingZeros (digits : List Char) : List Char :=
  (digits.reverse.dropWhile (· == '0')).reverse

/-- Lays out digits whose first one stands at `place`. -/
def NumberLayout.write (l : NumberLayout) (digits : List Char) (place : Int) : String :=
  if place < l.least || l.most < place then
    let fraction := digits.drop 1
    String.ofList (digits.take 1)
      ++ (if fraction.isEmpty then "" else "." ++ String.ofList fraction)
      ++ l.mark ++ toString place
  else if place < 0 then
    "0." ++ String.ofList (List.replicate ((-place).toNat - 1) '0' ++ digits)
  else
    let width := place.toNat + 1
    let fraction := digits.drop width
    String.ofList (digits.take width ++ List.replicate (width - digits.length) '0')
      ++ (if fraction.isEmpty then l.whole else "." ++ String.ofList fraction)

/-- The spelling of a magnitude. -/
def magnitudeText (x : Binary64) : String :=
  if x.isNaN then "NaN"
  else if !x.isFinite then "inf"
  else if x.magnitude == 0 then "0.0"
  else
    let d := x.shortest
    let digits := Nat.toDigits 10 d.coefficient
    numberLayout.write (dropTrailingZeros digits) (d.exponent + digits.length - 1)

/-- The spelling of a number; a NaN is written without a sign. -/
def text (x : Binary64) : String :=
  if x.negative && !x.isNaN then "-" ++ x.magnitudeText else x.magnitudeText

end Binary64

end ExprTree
