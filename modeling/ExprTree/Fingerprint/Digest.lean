/-!
# Digests

A digest is a list of bytes, 32 of them where it comes from a hash. It is shown in full as
hexadecimal digits, and in short as eight symbols of five bits each, taken from the front.
-/

namespace ExprTree

/-- A content hash. -/
structure Digest where
  bytes : List UInt8
  deriving DecidableEq, Inhabited

/-- The hexadecimal digit of a number below 16. -/
def hexDigit (n : Nat) : Char := Nat.digitChar n

/-- Bytes as hexadecimal digits, two to a byte. -/
def hexText (bytes : List UInt8) : String :=
  String.ofList (bytes.flatMap fun b => [hexDigit (b.toNat / 16), hexDigit (b.toNat % 16)])

namespace Digest

/-- The symbols of the short form. -/
def symbols : List Char := "0123456789abcdefghjkmnpqrstuvwxyz".toList

/-- The first forty bits, as a number. -/
def front (d : Digest) : Nat := (d.bytes.take 5).foldl (fun n b => 256 * n + b.toNat) 0

/-- The digest as hexadecimal digits. -/
def hex (d : Digest) : String := hexText d.bytes

/-- The first forty bits as eight symbols, the highest five bits first. -/
def short (d : Digest) : String :=
  String.ofList <| [7, 6, 5, 4, 3, 2, 1, 0].map fun i =>
    symbols.getD ((d.front >>> (5 * i)) % 32) '0'

/-- The way a digest is displayed. -/
def display (d : Digest) : String := "#" ++ d.short

end Digest

end ExprTree
