import ExprTree.Binary64.Basic

/-!
# Reading decimals

A decimal `coefficient * 10 ^ exponent` is read as the nearest double-precision number, a tie going
to the even significand. Too large a decimal reads as infinity and too small a one as zero; neither
is an error. `ofText?` reads the usual spelling of a number, with an optional sign, fraction and
exponent, and the words for infinity and NaN.
-/

namespace ExprTree

/-- The decimal `coefficient * 10 ^ exponent`. -/
structure Decimal where
  coefficient : Nat
  exponent : Int
  deriving DecidableEq, Inhabited

namespace Decimal

/-- The value of a decimal digit. -/
def digitValue (c : Char) : Nat := c.toNat - '0'.toNat

/-- The number written by a list of digits. -/
def ofDigits (cs : List Char) : Nat := cs.foldl (fun n c => 10 * n + digitValue c) 0

/-- The decimal with the given digits before and after the point, times a power of ten. -/
def ofParts (whole fraction : List Char) (exponent : Int) : Decimal :=
  ⟨ofDigits (whole ++ fraction), exponent - fraction.length⟩

/-- Reads an exponent: nothing, or a mark, an optional sign and digits up to the end. -/
def exponent? : List Char → Option Int
  | [] => some 0
  | mark :: rest =>
    let (negative, digits) := match rest with
      | '-' :: ds => (true, ds)
      | '+' :: ds => (false, ds)
      | ds => (false, ds)
    if (mark == 'e' || mark == 'E') && !digits.isEmpty && digits.all Char.isDigit then
      some (if negative then -(ofDigits digits : Int) else ofDigits digits)
    else none

/-- Reads an unsigned decimal; it needs a digit before or after the point. -/
def ofChars? (cs : List Char) : Option Decimal :=
  let whole := cs.takeWhile Char.isDigit
  let (fraction, rest) := match cs.dropWhile Char.isDigit with
    | '.' :: ds => (ds.takeWhile Char.isDigit, ds.dropWhile Char.isDigit)
    | rest => ([], rest)
  if whole.isEmpty && fraction.isEmpty then none
  else (exponent? rest).map (ofParts whole fraction)

end Decimal

namespace Binary64

/-- The quotient of two numbers rounded to the nearest, a tie to the even one. -/
def roundDiv (num den : Nat) : Nat :=
  let q := num / den
  let twice := 2 * (num % den)
  if den < twice || (twice == den && q % 2 == 1) then q + 1 else q

/-- The magnitude word nearest to `num / den`, not counting overflow. The binary exponent, counted
from the least one, is chosen so that the significand has 53 bits, or fewer at the least
exponent. -/
def nearestWord (num den : Nat) : Nat :=
  let lead : Int := (num.log2 : Int) - den.log2
  let guess := (lead - 52 + 1074).toNat
  let significandAt (scale : Nat) : Nat × Nat :=
    if 1074 ≤ scale then (num, den * Nat.pow 2 (scale - 1074))
    else (num * Nat.pow 2 (1074 - scale), den)
  let (n, d) := significandAt guess
  let scale := if n / d < exponentPlace then guess - 1 else guess
  let (n, d) := significandAt scale
  scale * exponentPlace + roundDiv n d

/-- Decimals whose leading digit stands beyond these places overflow or vanish. -/
def placeRange : Int × Int := (-330, 310)

/-- The magnitude word nearest to a decimal. -/
def decimalWord (d : Decimal) : Nat :=
  let place := d.exponent + (Nat.toDigits 10 d.coefficient).length
  if d.coefficient == 0 || place < placeRange.1 then 0
  else if placeRange.2 < place then infinityWord
  else
    let word := if 0 ≤ d.exponent then nearestWord (d.coefficient * Nat.pow 10 d.exponent.toNat) 1
      else nearestWord d.coefficient (Nat.pow 10 (-d.exponent).toNat)
    min word infinityWord

/-- The number nearest to a decimal with a given sign. -/
def ofDecimal (negative : Bool) (d : Decimal) : Binary64 := ofMagnitude negative (decimalWord d)

/-- Reads the spelling of a number. -/
def ofText? (s : String) : Option Binary64 :=
  let (negative, body) := match s.toList with
    | '-' :: cs => (true, cs)
    | '+' :: cs => (false, cs)
    | cs => (false, cs)
  let word := String.ofList (body.map Char.toLower)
  if word == "inf" || word == "infinity" then some (infinity negative)
  else if word == "nan" then some (quietNaN negative)
  else (Decimal.ofChars? body).map (ofDecimal negative)

end Binary64

end ExprTree
