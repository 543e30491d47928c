import ExprTree.Surface.Parser.Ty

/-!
# Reading expressions

An expression is a literal, a name, or a form: a parenthesised list that starts with the name of an
operator or of one of the other node kinds, and may end in `: Type` to declare a type that the parts
do not imply. Names refer to the innermost variable of that name, else to a closure.

The readers of the parts take the reader of nested expressions as an argument; `expr` ties the knot
by recursion on the number of levels that expressions may still nest.
-/

namespace ExprTree.Parser

/-! ## Names and references -/

/-- The closure declared under a name. -/
def closure? (name : String) : Parser (Option (Closure Value)) :=
  return (← get).closures.lookup name

/-- Reads `Owner::name`. -/
def path : Parser (String × String) := do
  let (owner, _) ← expectIdent
  let _ ← expect .colonColon
  let (name, _) ← expectIdent
  return (owner, name)

/-- Reads `Owner::name Type`. The owner is a capture type if a closure of that name is declared. -/
def memberTail (kind : MemberKind) : Parser Member := do
  let (owner, name) ← path
  let ty ← ty
  let owner := if (← closure? owner).isSome then Owner.capture owner else Owner.type owner
  return { owner, name, kind, ty }

/-- Reads `(field Owner::name Type)` or `(prop Owner::name Type)`. -/
def memberRef : Parser Member := do
  let _ ← expect .lparen
  let (word, span) ← expectIdent
  let kind ← match word with
    | "field" => pure MemberKind.field
    | "prop" => pure MemberKind.property
    | other => do
      report { message := "expected 'field' or 'prop', found '" ++ other ++ "'", span }
      pure MemberKind.property
  let member ← memberTail kind
  let _ ← expect .rparen
  return member

/-- The node that a name stands for. -/
def resolveName (name : String) (span : Span) : Parser Node := do
  match (← get).scopes.lookup name with
  | some v => return .variable v
  | none =>
    match ← closure? name with
    | some c => return .closure c
    | none =>
      report { message := "unknown variable '" ++ name ++ "'"
               span
               help := some ("bind it in a lambda or declare it with `free " ++ name
                 ++ ": <type>`") }
      return placeholder

/-! ## Parts of forms -/

section Parts

-- how a nested expression is read
variable (expr : Parser Expr)

/-- Reads the payload of a constant. -/
def value : Parser Value := do
  match ← peek with
  | .integer n =>
    advance
    return .int n
  | .float x =>
    advance
    return .float x
  | .str s =>
    advance
    return .str s
  | .true =>
    advance
    return .bool true
  | .false =>
    advance
    return .bool false
  | .null =>
    advance
    return .null
  | .ident name =>
    let span ← peekSpan
    advance
    match ← closure? name with
    | some c => return .closure c
    | none =>
      report { message := "unknown closure '" ++ name ++ "'"
               span
               help := some "declare closures before the values that use them" }
      return .null
  | other =>
    if (← get).opensForm "tree" then
      advance
      advance
      let tree ← expr
      let _ ← expect .rparen
      return .tree tree
    else
      reportHere ("expected constant value, found " ++ other.describe)
        (some "values are literals, `null`, a closure name, or `(tree <expr>)`")
      skipForm
      return .null

/-- Reads expressions up to the end of the form or a type annotation. -/
def exprs : Parser (List Expr) := many (fun l => !endsForm l && l != .colon) expr

/-- Reads `static` or an object. -/
def object : Parser (Option Expr) := do
  if ← eat .static then return none else return some (← expr)

/-- Reads the parameters of a lambda and then its body, in which they are in scope. -/
def lambda : Parser Node := do
  let _ ← expect .lparen
  let params ← iterate (· == .lparen) (fun (acc : List Variable) => do
    advance
    let (name, span) ← expectIdent
    let ty ← ty
    let _ ← expect .rparen
    if acc.any (·.name == name) then
      report { message := "parameter '" ++ name ++ "' declared twice", span }
    let v ← draw (Variable.alloc name ty)
    return (v :: acc, true)) []
  let _ ← expect .rparen
  let outer := (← get).scopes
  modify fun s => { s with scopes := params.map (fun v => (v.name, v)) ++ outer }
  let body ← expr
  modify fun s => { s with scopes := outer }
  return .lambdaOf params.reverse body

/-- Reads `Type (args..) member-ref*`. -/
def constructTail : Parser (Construct Expr) := do
  let ty ← ty
  let _ ← expect .lparen
  let args ← exprs expr
  let _ ← expect .rparen
  let members ← manyForms memberRef
  return { ty, args, members := if members.isEmpty then none else some members }

/-- Reads `(new Type (args..) member-ref*)`. -/
def constructForm : Parser (Construct Expr) := do
  let _ ← expect .lparen
  let (head, span) ← expectIdent
  if head != "new" then
    report { message := "expected a `(new ...)` form, found '" ++ head ++ "'", span }
  let call ← constructTail expr
  let _ ← expect .rparen
  return call

/-- Reads `(add Owner::name args..)`. -/
def element : Parser (ElementInit Expr) := do
  let _ ← expect .lparen
  let (head, span) ← expectIdent
  if head != "add" then
    report { message := "expected element initializer `(add ...)`, found '" ++ head ++ "'", span }
  let (owner, name) ← path
  let args ← exprs expr
  let _ ← expect .rparen
  return { addMethod := { owner, name, isStatic := false, ret := .unit }, args }

/-- Reads `(= member expr)`, `(bind member binding*)` or `(list member element*)`, with at most the
given number of bindings nested in it. -/
def bindingNested : Nat → Parser (Binding Expr)
  | 0 => return .nested default []
  | nesting + 1 => do
    let opening ← expect .lparen
    if ← eat .equals then
      let member ← memberRef
      let e ← expr
      let _ ← expect .rparen
      return .assign member e
    else
      let (head, span) ← expectIdent
      let member ← memberRef
      let binding ← match head with
        | "bind" => pure (.nested member (← manyForms (bindingNested nesting)))
        | "list" => pure (.elements member (← manyForms (element expr)))
        | other => do
          report { message := "unknown binding '" ++ other ++ "'"
                   span := opening.join span
                   help := some ("bindings are `(= member expr)`, `(bind member ..)` or "
                     ++ "`(list member ..)`") }
          pure (.nested member [])
      let _ ← expect .rparen
      return binding

/-- Reads a binding. Every binding in it takes a token, so the tokens left bound the nesting. -/
def binding : Parser (Binding Expr) := do bindingNested expr (← get).tokens.length

/-! ## Forms -/

/-- Reads the parts of a form whose head is read; `span` runs from the opening parenthesis to the
head. -/
def formBody (head : String) (span : Span) : Parser Node := do
  if let some op := UnaryOp.ofWord? head then
    let operand ← expr
    if op.takesType then return .unary op operand (← ty) none else return .unaryOf op operand
  if let some op := BinaryOp.ofWord? head then
    let left ← expr
    let right ← expr
    return .binaryOf op left right
  match head with
  | "is" =>
    let operand ← expr
    return .typeIs operand (← ty)
  | "if" =>
    let test ← expr
    let ifTrue ← expr
    let ifFalse ← expr
    return .conditionalOf test ifTrue ifFalse
  | "const" =>
    let payload ← value expr
    return .constant payload (← ty)
  | "tree" => return .tree (← expr)
  | "lambda" => lambda expr
  | "invoke" =>
    let target ← expr
    return .invokeOf target (← exprs expr)
  | "invoke!" =>
    let target ← expr
    return .invokeMarked target (← exprs expr)
  | "expandable" => return .expandableOf (← expr)
  | "compile" => return .compileOf (← expr)
  | "field" =>
    let object ← object expr
    return .memberAccess object (← memberTail .field)
  | "prop" =>
    let object ← object expr
    return .memberAccess object (← memberTail .property)
  | "call" =>
    let object ← object expr
    let (owner, name) ← path
    let _ ← expect .lparen
    let args ← exprs expr
    let _ ← expect .rparen
    let ret ← ty
    return .call object { owner, name, isStatic := object.isNone, ret } args
  | "new" => return .construct (← constructTail expr)
  | "array" =>
    let elem ← ty
    return .newArray .elements elem (← exprs expr)
  | "array_bounds" =>
    let elem ← ty
    return .newArray .bounds elem (← exprs expr)
  | "init" =>
    let call ← constructForm expr
    return .memberInit call (← manyForms (binding expr))
  | "list_init" =>
    let call ← constructForm expr
    return .listInit call (← manyForms (element expr))
  | "ext" =>
    let (kind, _) ← expectIdent
    return .extension kind (← ty)
  | _ =>
    report { message := "unknown form '" ++ head ++ "'"
             span
             help := some ("operators are words such as `add`, `gt`, `and_also`; "
               ++ "see `treexpand --help`") }
    skipToClose
    return placeholder

/-- Reads `: Type` if it follows, and declares the type on the node. -/
def declareTy (n : Node) : Parser Node := do
  if ← eat .colon then
    let span ← peekSpan
    let ty ← ty
    match n.withTy? ty with
    | some n => return n
    | none =>
      report { message := "a " ++ n.kind.text ++ " cannot carry a type annotation", span }
      return n
  else return n

/-- Reads a form, with the opening parenthesis at hand. -/
def form : Parser Node := do
  let opening ← expect .lparen
  match ← peek with
  | .ident head =>
    let span ← peekSpan
    advance
    let n ← formBody expr head (opening.join span)
    let n ← declareTy n
    if !(← at? .rparen) then
      reportHere ("expected ')' to close '" ++ head ++ "', found " ++ (← peek).describe) none
      skipToClose
    let _ ← eat .rparen
    return n
  | other =>
    reportHere ("expected form name, found " ++ other.describe)
      (some "forms start with a name, e.g. `(add a b)` or `(lambda ((x Int)) x)`")
    skipToClose
    let _ ← eat .rparen
    return placeholder

/-- Reads the node of an expression. -/
def exprNode : Parser Node := do
  match ← peek with
  | .integer n =>
    advance
    return .int n
  | .float x =>
    advance
    return .float x
  | .str s =>
    advance
    return .str s
  | .true =>
    advance
    return .bool true
  | .false =>
    advance
    return .bool false
  | .null =>
    advance
    return .null
  | .ident name =>
    let span ← peekSpan
    advance
    resolveName name span
  | .lparen => form expr
  | other =>
    reportHere ("expected expression, found " ++ other.describe) none
    if !endsForm other then advance
    return placeholder

end Parts

/-- Expressions nest at most this deep. -/
def maxNesting : Nat := 256

/-- Reads an expression that may nest through the given number of levels. -/
def expr : (levels : Nat) → Parser Expr
  | 0 => do
    reportHere ("nesting depth exceeded (maximum " ++ toString maxNesting ++ " levels)")
      (some "split the tree into smaller lambdas invoked from each other")
    skipForm
    draw placeholder.alloc
  | levels + 1 => do
    let n ← exprNode (expr levels)
    draw n.alloc

end ExprTree.Parser
