import ExprTree.Surface.Parser.Expr

/-!
# Reading a source

A source holds declarations of free variables and closures and then exactly one expression.
`parseTree` reads a text; faults found while cutting it into tokens are reported alone.
-/

namespace ExprTree

namespace Parser

/-- Reads `free x: Int`. -/
def freeDecl : Parser Unit := do
  let _ ← expect .free
  let (name, span) ← expectIdent
  let _ ← expect .colon
  let ty ← ty
  if (← get).scopes.any (·.1 == name) then
    report { message := "free variable '" ++ name ++ "' declared twice", span }
  else
    let v ← draw (Variable.alloc name ty)
    modify fun s => { s with scopes := (name, v) :: s.scopes }

/-- Reads `name = value` for a closure, given the fields before it in reverse, and then a comma or
the place of the closing brace. -/
def closureField (closure : String) (fields : List (String × Value)) :
    Parser (List (String × Value)) := do
  let (name, span) ← expectIdent
  let _ ← expect .equals
  let v ← value (expr maxNesting)
  let duplicate := fields.any (·.1 == name)
  if duplicate then
    report { message := "field '" ++ name ++ "' declared twice in closure '" ++ closure ++ "'"
             span }
  if !(← eat .comma) && !(← at? .rbrace) then
    reportHere ("expected ',' or '\x7d' after closure field, found " ++ (← peek).describe) none
    advance
  return if duplicate then fields else (name, v) :: fields

/-- Reads a closure declaration such as `closure Env { limit = 3 }`. -/
def closureDecl : Parser Unit := do
  let _ ← expect .closure
  let (name, span) ← expectIdent
  let _ ← expect .lbrace
  let fields ← iterate (fun l => l != .rbrace && l != .eof)
    (fun fields => return (← closureField name fields, true)) []
  let _ ← expect .rbrace
  if (← closure? name).isSome then
    report { message := "closure '" ++ name ++ "' declared twice"
             span
             help := some "closure names identify capture types and must be unique" }
  else
    let c ← draw (Closure.alloc name fields.reverse)
    modify fun s => { s with closures := (name, c) :: s.closures }

/-- Reads a declaration, with its keyword at hand. -/
def decl : Parser Unit := do
  if ← at? .closure then closureDecl else freeDecl

/-- Reads a whole source. -/
def file : Parser Expr := do
  let _ ← many (fun l => l == .closure || l == .free) decl
  let e ← expr maxNesting
  if !(← at? .eof) then
    reportHere ("expected end of file, found " ++ (← peek).describe)
      (some "a file holds declarations followed by exactly one expression")
  return e

end Parser

/-- Reads a list of tokens that ends in the end of file. -/
def parseTokens (tokens : List Token) (supply : Supply) :
    Except (List Diagnostic) (Expr × Supply) :=
  let (e, s) := Parser.file.run { tokens, supply }
  if s.faults.isEmpty then .ok (e, s.supply) else .error s.faults.toList

/-- Reads a tree from its text, drawing the identities of its nodes from `supply`. -/
def parseTree (source : String) (supply : Supply) : Except (List Diagnostic) (Expr × Supply) :=
  let lexed := tokenize source
  if lexed.faults.isEmpty then parseTokens lexed.tokens supply else .error lexed.faults

/-- Reads a type by itself, as the declared type of a constant. -/
def parseTy (text : String) : Except (List Diagnostic) Ty := do
  let (e, _) ← parseTree ("(const null " ++ text ++ ")") {}
  return e.ty

end ExprTree
