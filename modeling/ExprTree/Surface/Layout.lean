import ExprTree.Ty

/-!
# Layout

A document is a text or a parenthesised form of documents. `Doc.flat` writes it on one line, and
`Doc.render` breaks forms that would pass the right margin: the first items stay on the opening line
and each other item goes on a line of its own, indented.
-/

namespace ExprTree

/-- What is to be written. -/
inductive Doc where
  | text (s : String)
  /-- When the form is broken, the first `inline` items stay on the opening line; `declared` is the
  declared type at its end. -/
  | form (items : List Doc) (inline : Nat) (declared : Option Ty)
  deriving Inhabited

/-- The columns that a line may fill. -/
def lineWidth : Nat := 80

/-- The indentation of the items of a broken form. -/
def indentWidth : Nat := 2

namespace Doc

/-- A form with a head, which stays on the opening line together with the first `inline - 1`
items. -/
def headed (head : String) (rest : List Doc) (inline : Nat := 1) : Doc :=
  .form (.text head :: rest) inline none

/-- A list without a head. -/
def list (items : List Doc) : Doc := .form items 1 none

/-- The form with a type declared at its end, unless the type is the one that its parts imply. -/
def annotate (d : Doc) (actual implied : Ty) : Doc :=
  match d with
  | .form items inline _ => if actual == implied then d else .form items inline (some actual)
  | d => d

/-- The type declared at the end of a form. -/
def declaredText : Option Ty → String
  | none => ""
  | some ty => " : " ++ ty.text

mutual

/-- The document on one line. -/
def flat : Doc → String
  | .text s => s
  | .form items _ declared => "(" ++ flatItems items ++ declaredText declared ++ ")"

/-- Items on one line, separated by blanks. -/
def flatItems : List Doc → String
  | [] => ""
  | [d] => d.flat
  | d :: ds => d.flat ++ " " ++ flatItems ds

end

/-- The given number of blanks. -/
def blanks (n : Nat) : String := String.ofList (List.replicate n ' ')

mutual

/-- The document laid out from a column on. -/
def render : Doc → (column : Nat) → String
  | .text s, _ => s
  | .form items inline declared, column =>
    let line := flat (.form items inline declared)
    if column + line.utf8ByteSize ≤ lineWidth then line
    else "(" ++ renderItems items 0 inline column ++ declaredText declared ++ ")"

/-- The items of a form that is broken, from the one with the given index on. -/
def renderItems : List Doc → (index inline column : Nat) → String
  | [], _, _, _ => ""
  | d :: ds, index, inline, column =>
    let nested := column + indentWidth
    let item := if index == 0 then d.render (column + 1)
      else if index < inline then " " ++ d.render nested
      else "\n" ++ blanks nested ++ d.render nested
    item ++ renderItems ds (index + 1) inline column

end

end Doc

end ExprTree
