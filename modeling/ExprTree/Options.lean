import ExprTree.Binary64.Rounding
import ExprTree.Expansion.Inline
import ExprTree.Text.Blank

/-!
# Options

An options file has lines `key = value` under section headings `[name]`; lines that start with `#`
are comments. Two settings are read: the nesting limit of expansions and the filter of the log.
Others are ignored, so that the file can hold settings for other tools.
-/

namespace ExprTree

/-- The options of a run. -/
structure Options where
  maxDepth : Nat := defaultMaxDepth
  logFilter : Option String := none
  deriving DecidableEq, Inhabited

/-- What is wrong with an options file. -/
inductive OptionsError where
  | notASetting (line : String)
  | badDepth (value : String)
  | zeroDepth
  deriving DecidableEq, Inhabited

/-- The message of an options error. -/
def OptionsError.message : OptionsError → String
  | .notASetting line => "expected `key = value`, found '" ++ line ++ "'"
  | .badDepth value => "max_depth must be a positive integer, found '" ++ value ++ "'"
  | .zeroDepth => "max_depth must be at least 1"

/-- The greatest number that fits into 32 bits. -/
def maxWord32 : Nat := 4294967295

/-- The number below `2 ^ 32` that a text spells with digits and an optional plus sign. -/
def word32? (cs : List Char) : Option Nat :=
  let digits := match cs with
    | '+' :: ds => ds
    | ds => ds
  if digits.isEmpty || !digits.all Char.isDigit then none
  else
    let n := Decimal.ofDigits digits
    if n ≤ maxWord32 then some n else none

namespace Options

/-- What a line of an options file says. -/
inductive Line where
  | blank
  | section (name : List Char)
  | setting (key value : List Char)
  | other

/-- Reads a line without white space at its ends. Quotes around a key are dropped. -/
def Line.ofChars (cs : List Char) : Line :=
  if cs.isEmpty || cs.head? == some '#' then .blank
  else if cs.head? == some '[' && cs.getLast? == some ']' then
    .section (trimWhite (cs.drop 1).dropLast)
  else if cs.contains '=' then
    let key := cs.takeWhile (· != '=')
    .setting (trimBoth (· == '"') (trimWhite key)) (trimWhite (cs.drop (key.length + 1)))
  else .other

/-- The options after a setting in a section. -/
def set (o : Options) (sectionName key value : List Char) : Except OptionsError Options :=
  match String.ofList sectionName, String.ofList key with
  | "rewrite", "max_depth" =>
    match word32? value with
    | none => .error (.badDepth (String.ofList value))
    | some 0 => .error .zeroDepth
    | some n => .ok { o with maxDepth := n }
  | "log", "filter" => .ok { o with logFilter := some (String.ofList (trimBoth (· == '"') value)) }
  | _, _ => .ok o

/-- Reads lines, the given section being current. -/
def ofLines (o : Options) (current : List Char) : List (List Char) → Except OptionsError Options
  | [] => .ok o
  | line :: rest =>
    let line := trimWhite line
    match Line.ofChars line with
    | .blank => ofLines o current rest
    | .section name => ofLines o name rest
    | .other => .error (.notASetting (String.ofList line))
    | .setting key value => do
      let o ← o.set current key value
      ofLines o current rest

/-- Reads an options file. -/
def ofText (text : String) : Except OptionsError Options :=
  ofLines {} [] (text.toList.splitOn '\n')

end Options

end ExprTree
