import ExprTree.Surface.Parser.File

/-!
# Parts of the readers

Some branches of the readers and the steps of their loops have lemmas of their own, in each of the
developments about readers. Here they get their names. Their text is that of the readers, extracted
verbatim, so a reader is made of its parts by `rfl`.
-/

namespace ExprTree.Parser

/-- A tree in a constant, or what is no payload: the last branch of `value`. -/
def treeValue (expr : Parser Expr) (other : Lexeme) : Parser Value := do
  if (← get).opensForm "tree" then
    advance
    advance
    let tree ← expr
    let _ ← expect .rparen
    return .tree tree
  else
    reportHere ("expected constant value, found " ++ other.describe)
      (some "values are literals, `null`, a closure name, or `(tree <expr>)`")
    skipForm
    return .null

/-- A parameter of a lambda, given those before it in reverse. -/
def paramStep (acc : List Variable) : Parser (List Variable × Bool) := do
  advance
  let (name, span) ← expectIdent
  let ty ← ty
  let _ ← expect .rparen
  if acc.any (·.name == name) then
    report { message := "parameter '" ++ name ++ "' declared twice", span }
  let v ← draw (Variable.alloc name ty)
  return (v :: acc, true)

/-- Fields go on up to the brace that closes them. -/
def moreFields (l : Lexeme) : Bool := l != .rbrace && l != .eof

/-- A field of a closure, given those before it in reverse. -/
def fieldStep (closure : String) (fields : List (String × Value)) :
    Parser (List (String × Value) × Bool) := do
  return (← closureField closure fields, true)

/-- Declarations go on as long as one of their keywords is at hand. -/
def moreDecls (l : Lexeme) : Bool := l == .closure || l == .free

/-- A declaration, which is enacted as it is read. -/
def declStep (acc : List Unit) : Parser (List Unit × Bool) := do
  return ((← decl) :: acc, true)

/-- The expression behind the declarations, which ends the source. -/
def lastExpr : Parser Expr := do
  let e ← expr maxNesting
  if !(← at? .eof) then
    reportHere ("expected end of file, found " ++ (← peek).describe)
      (some "a file holds declarations followed by exactly one expression")
  return e

theorem file_run (s : ParseState) : file s = lastExpr (iterate moreDecls declStep [] s).2 := rfl

end ExprTree.Parser
