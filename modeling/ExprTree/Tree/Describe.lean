import ExprTree.Binary64.Shortest
import ExprTree.Tree.Basic

/-!
# Short descriptions of values

`Value.describe` is the one-line form of a payload for messages. Strings are shown between quotes,
with control characters escaped.
-/

namespace ExprTree

/-- A character of a described string. Control characters without a letter of their own are shown by
their code. -/
def describeChar (c : Char) : String :=
  match c with
  | '"' => "\\\""
  | '\\' => "\\\\"
  | '\n' => "\\n"
  | '\t' => "\\t"
  | '\r' => "\\r"
  | '\x00' => "\\0"
  | c =>
    if c.toNat < 0x20 || (0x7F ≤ c.toNat && c.toNat < 0xA0) then
      "\\u\x7b" ++ String.ofList (Nat.toDigits 16 c.toNat) ++ "\x7d"
    else c.toString

/-- A string between quotes. -/
def describeString (s : String) : String :=
  "\"" ++ String.join (s.toList.map describeChar) ++ "\""

/-- The decimal spelling of an integer. -/
def intText (n : Int64) : String := toString n.toInt

/-- The spelling of a truth value. -/
def boolText (b : Bool) : String := if b then "true" else "false"

/-- A short description of a value. -/
def Value.describe : Value → String
  | .null => "null"
  | .bool b => boolText b
  | .int n => intText n
  | .float x => x.text
  | .str s => describeString s
  | .tree t => "tree of " ++ t.ty.text
  | .closure c => "closure " ++ c.name

end ExprTree
