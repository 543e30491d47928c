/-!
# White space

The characters that Unicode calls white space, and the trimming of texts by them.
-/

namespace ExprTree

/-- The ranges of characters with the Unicode property `White_Space`. -/
def whiteSpaceRanges : List (Nat × Nat) :=
  [(0x0009, 0x000D), (0x0020, 0x0020), (0x0085, 0x0085), (0x00A0, 0x00A0), (0x1680, 0x1680),
    (0x2000, 0x200A), (0x2028, 0x2029), (0x202F, 0x202F), (0x205F, 0x205F), (0x3000, 0x3000)]

/-- Is the character white space? -/
def isWhiteSpace (c : Char) : Bool :=
  whiteSpaceRanges.any fun (low, high) => low ≤ c.toNat && c.toNat ≤ high

/-- Drops the characters that satisfy `p` from both ends. -/
def trimBoth (p : Char → Bool) (cs : List Char) : List Char :=
  ((cs.dropWhile p).reverse.dropWhile p).reverse

/-- Drops white space from both ends. -/
def trimWhite (cs : List Char) : List Char := trimBoth isWhiteSpace cs

end ExprTree
