import ExprTree.Surface.Parser.Basic

/-!
# Reading types

A type is a built-in or other name, `[T]`, `Fn(A, B) -> R` or `Expr<T>`. The words `Fn` and `Expr`
are plain names unless an opening `(` or `<` follows. Parameters are separated by commas, and the
last may be followed by one.
-/

namespace ExprTree.Parser

/-- The hint on what a type is. -/
def tyHelp : String :=
  "types are Int, Float, Bool, Str, Unit, Object, a name, [T], Fn(..) -> T or Expr<T>"

/-- Reads parameter types up to the closing parenthesis, given how to read one. -/
def tyParams (ty : Parser Ty) : Parser (List Ty) := do
  let params ← iterate (fun l => !endsForm l) (fun acc => do
    let param ← ty
    let more ← eat .comma
    return (param :: acc, more)) []
  return params.reverse

/-- Reads a type with at most the given number of types nested in it. -/
def tyNested : Nat → Parser Ty
  | 0 => return .object
  | nesting + 1 => do
    match ← peek with
    | .lbracket =>
      advance
      let elem ← tyNested nesting
      let _ ← expect .rbracket
      return .array elem
    | .ident name =>
      advance
      match Ty.builtin? name with
      | some ty => return ty
      | none =>
        if name == "Fn" && (← at? .lparen) then
          advance
          let params ← tyParams (tyNested nesting)
          let _ ← expect .rparen
          let _ ← expect .arrow
          let ret ← tyNested nesting
          return .func params ret
        else if name == "Expr" && (← at? .less) then
          advance
          let inner ← tyNested nesting
          let _ ← expect .greater
          return .expr inner
        else return .named name
    | other =>
      reportHere ("expected type, found " ++ other.describe) (some tyHelp)
      if !endsForm other then advance
      return .object

/-- Reads a type. Every type in it takes a token, so the tokens left bound the nesting. -/
def ty : Parser Ty := do tyNested (← get).tokens.length

end ExprTree.Parser
