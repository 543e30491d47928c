import ExprTree.Surface.Parser.File

/-!
# The readers without their bounds

The readers of types and of bindings recurse on a number that is as large as what is left to read, the
reader of expressions on the number of levels that are left, and a loop also ends at an item that takes no
token. So they end by construction, which says nothing about why the reading of a source ends. Here their
text is written once more, without these bounds: for any *engine*, which says how a single step is taken and
how a loop is run, and given the readers that it calls. Run directly, with the bounded readers for the calls
in it, it is the reader that it was taken from, by `rfl` (`Text.direct_ty`, `Text.direct_binding`,
`Text.direct_expr`, `Text.direct_tooDeep`, `Text.direct_file`).

Run *tracked*, it keeps the whole source and with it the position, how many expressions are open, and where the
innermost call began. No bound ends such a run. It stops if a token is looked at that is not there, if
a loop goes on or a call is made without a token taken since the last round or call, or if more expressions
are left than were entered. The calls inside it are the same text again, cut off only after so many nested
calls.
-/

namespace ExprTree.Parser

/-! ## The text -/

/-- How readers are run: single steps, none of which calls a reader or loops, and loops. -/
class Engine (m : Type → Type) where
  step : {α : Type} → Parser α → m α
  loop : {β : Type} → (Lexeme → Bool) → (β → m (β × Bool)) → β → m β

namespace Text

variable {m : Type → Type} [Monad m] [Engine m] {α β : Type}

/-! ### Single steps -/

def state : m ParseState := Engine.step get

def update (f : ParseState → ParseState) : m Unit := Engine.step (modify f)

def peek : m Lexeme := Engine.step Parser.peek

def peekSpan : m Span := Engine.step Parser.peekSpan

def advance : m Unit := Engine.step Parser.advance

def at? (l : Lexeme) : m Bool := Engine.step (Parser.at? l)

def eat (l : Lexeme) : m Bool := Engine.step (Parser.eat l)

def report (d : Diagnostic) : m Unit := Engine.step (Parser.report d)

def reportHere (message : String) (help : Option String) : m Unit :=
  Engine.step (Parser.reportHere message help)

def expect (l : Lexeme) : m Span := Engine.step (Parser.expect l)

def expectIdent : m (String × Span) := Engine.step Parser.expectIdent

def closure? (name : String) : m (Option (Closure Value)) := Engine.step (Parser.closure? name)

def resolveName (name : String) (span : Span) : m Node := Engine.step (Parser.resolveName name span)

def draw (f : Fresh α) : m α := Engine.step (Parser.draw f)

/-! ### Loops and recovery -/

def many (more : Lexeme → Bool) (item : m α) : m (List α) := do
  let items ← Engine.loop more (fun acc => return ((← item) :: acc, true)) []
  return items.reverse

def manyForms (item : m α) : m (List α) := many (· == .lparen) item

def skipToClose : m Unit := do
  let _ ← Engine.loop (· != .eof) (fun depth : Nat => do
    match ← peek with
    | .lparen =>
      advance
      return (depth + 1, true)
    | .rparen =>
      if depth == 0 then return (depth, false)
      else
        advance
        return (depth - 1, true)
    | _ =>
      advance
      return (depth, true)) 0

def skipForm : m Unit := do
  if ← eat .lparen then
    skipToClose
    let _ ← eat .rparen
  else if !endsForm (← peek) then advance

/-! ### Types and references -/

section Types

-- how a type inside another is read
variable (ty : m Ty)

def tyParams : m (List Ty) := do
  let params ← Engine.loop (fun l => !endsForm l) (fun acc => do
    let param ← ty
    let more ← eat .comma
    return (param :: acc, more)) []
  return params.reverse

def tyBody : m Ty := do
  match ← peek with
  | .lbracket =>
    advance
    let elem ← ty
    let _ ← expect .rbracket
    return .array elem
  | .ident name =>
    advance
    match Ty.builtin? name with
    | some ty => return ty
    | none =>
      if name == "Fn" && (← at? .lparen) then
        advance
        let params ← tyParams ty
        let _ ← expect .rparen
        let _ ← expect .arrow
        let ret ← ty
        return .func params ret
      else if name == "Expr" && (← at? .less) then
        advance
        let inner ← ty
        let _ ← expect .greater
        return .expr inner
      else return .named name
  | other =>
    reportHere ("expected type, found " ++ other.describe) (some tyHelp)
    if !endsForm other then advance
    return .object

def path : m (String × String) := do
  let (owner, _) ← expectIdent
  let _ ← expect .colonColon
  let (name, _) ← expectIdent
  return (owner, name)

def memberTail (kind : MemberKind) : m Member := do
  let (owner, name) ← path
  let ty ← ty
  let owner := if (← closure? owner).isSome then Owner.capture owner else Owner.type owner
  return { owner, name, kind, ty }

def memberRef : m Member := do
  let _ ← expect .lparen
  let (word, span) ← expectIdent
  let kind ← match word with
    | "field" => pure MemberKind.field
    | "prop" => pure MemberKind.property
    | other => do
      report { message := "expected 'field' or 'prop', found '" ++ other ++ "'", span }
      pure MemberKind.property
  let member ← memberTail ty kind
  let _ ← expect .rparen
  return member

end Types

/-! ### Parts of forms -/

section Parts

-- how a type, a binding and an expression inside another are read
variable (ty : m Ty) (binding : m (Binding Expr)) (expr : m Expr)

def value : m Value := do
  match ← peek with
  | .integer n =>
    advance
    return .int n
  | .float x =>
    advance
    return .float x
  | .str s =>
    advance
    return .str s
  | .true =>
    advance
    return .bool true
  | .false =>
    advance
    return .bool false
  | .null =>
    advance
    return .null
  | .ident name =>
    let span ← peekSpan
    advance
    match ← closure? name with
    | some c => return .closure c
    | none =>
      report { message := "unknown closure '" ++ name ++ "'"
               span
               help := some "declare closures before the values that use them" }
      return .null
  | other =>
    if (← state).opensForm "tree" then
      advance
      advance
      let tree ← expr
      let _ ← expect .rparen
      return .tree tree
    else
      reportHere ("expected constant value, found " ++ other.describe)
        (some "values are literals, `null`, a closure name, or `(tree <expr>)`")
      skipForm
      return .null

def exprs : m (List Expr) := many (fun l => !endsForm l && l != .colon) expr

def object : m (Option Expr) := do
  if ← eat .static then return none else return some (← expr)

def lambda : m Node := do
  let _ ← expect .lparen
  let params ← Engine.loop (· == .lparen) (fun (acc : List Variable) => do
    advance
    let (name, span) ← expectIdent
    let ty ← ty
    let _ ← expect .rparen
    if acc.any (·.name == name) then
      report { message := "parameter '" ++ name ++ "' declared twice", span }
    let v ← draw (Variable.alloc name ty)
    return (v :: acc, true)) []
  let _ ← expect .rparen
  let outer := (← state).scopes
  update fun s => { s with scopes := params.map (fun v => (v.name, v)) ++ outer }
  let body ← expr
  update fun s => { s with scopes := outer }
  return .lambdaOf params.reverse body

def constructTail : m (Construct Expr) := do
  let elem ← ty
  let _ ← expect .lparen
  let args ← exprs expr
  let _ ← expect .rparen
  let members ← manyForms (memberRef ty)
  return { ty := elem, args, members := if members.isEmpty then none else some members }

def constructForm : m (Construct Expr) := do
  let _ ← expect .lparen
  let (head, span) ← expectIdent
  if head != "new" then
    report { message := "expected a `(new ...)` form, found '" ++ head ++ "'", span }
  let call ← constructTail ty expr
  let _ ← expect .rparen
  return call

def element : m (ElementInit Expr) := do
  let _ ← expect .lparen
  let (head, span) ← expectIdent
  if head != "add" then
    report { message := "expected element initializer `(add ...)`, found '" ++ head ++ "'", span }
  let (owner, name) ← path
  let args ← exprs expr
  let _ ← expect .rparen
  return { addMethod := { owner, name, isStatic := false, ret := .unit }, args }

def bindingBody : m (Binding Expr) := do
  let opening ← expect .lparen
  if ← eat .equals then
    let member ← memberRef ty
    let e ← expr
    let _ ← expect .rparen
    return .assign member e
  else
    let (head, span) ← expectIdent
    let member ← memberRef ty
    let binding ← match head with
      | "bind" => pure (.nested member (← manyForms binding))
      | "list" => pure (.elements member (← manyForms (element expr)))
      | other => do
        report { message := "unknown binding '" ++ other ++ "'"
                 span := opening.join span
                 help := some ("bindings are `(= member expr)`, `(bind member ..)` or "
                   ++ "`(list member ..)`") }
        pure (.nested member [])
    let _ ← expect .rparen
    return binding

/-! ### Forms -/

def formBody (head : String) (span : Span) : m Node := do
  if let some op := UnaryOp.ofWord? head then
    let operand ← expr
    if op.takesType then return .unary op operand (← ty) none else return .unaryOf op operand
  if let some op := BinaryOp.ofWord? head then
    let left ← expr
    let right ← expr
    return .binaryOf op left right
  match head with
  | "is" =>
    let operand ← expr
    return .typeIs operand (← ty)
  | "if" =>
    let test ← expr
    let ifTrue ← expr
    let ifFalse ← expr
    return .conditionalOf test ifTrue ifFalse
  | "const" =>
    let payload ← value expr
    return .constant payload (← ty)
  | "tree" => return .tree (← expr)
  | "lambda" => lambda ty expr
  | "invoke" =>
    let target ← expr
    return .invokeOf target (← exprs expr)
  | "invoke!" =>
    let target ← expr
    return .invokeMarked target (← exprs expr)
  | "expandable" => return .expandableOf (← expr)
  | "compile" => return .compileOf (← expr)
  | "field" =>
    let object ← object expr
    return .memberAccess object (← memberTail ty .field)
  | "prop" =>
    let object ← object expr
    return .memberAccess object (← memberTail ty .property)
  | "call" =>
    let object ← object expr
    let (owner, name) ← path
    let _ ← expect .lparen
    let args ← exprs expr
    let _ ← expect .rparen
    let ret ← ty
    return .call object { owner, name, isStatic := object.isNone, ret } args
  | "new" => return .construct (← constructTail ty expr)
  | "array" =>
    let elem ← ty
    return .newArray .elements elem (← exprs expr)
  | "array_bounds" =>
    let elem ← ty
    return .newArray .bounds elem (← exprs expr)
  | "init" =>
    let call ← constructForm ty expr
    return .memberInit call (← manyForms binding)
  | "list_init" =>
    let call ← constructForm ty expr
    return .listInit call (← manyForms (element expr))
  | "ext" =>
    let (kind, _) ← expectIdent
    return .extension kind (← ty)
  | _ =>
    report { message := "unknown form '" ++ head ++ "'"
             span
             help := some ("operators are words such as `add`, `gt`, `and_also`; "
               ++ "see `treexpand --help`") }
    skipToClose
    return placeholder

def declareTy (n : Node) : m Node := do
  if ← eat .colon then
    let span ← peekSpan
    let ty ← ty
    match n.withTy? ty with
    | some n => return n
    | none =>
      report { message := "a " ++ n.kind.text ++ " cannot carry a type annotation", span }
      return n
  else return n

def form : m Node := do
  let opening ← expect .lparen
  match ← peek with
  | .ident head =>
    let span ← peekSpan
    advance
    let n ← formBody ty binding expr head (opening.join span)
    let n ← declareTy ty n
    if !(← at? .rparen) then
      reportHere ("expected ')' to close '" ++ head ++ "', found " ++ (← peek).describe) none
      skipToClose
    let _ ← eat .rparen
    return n
  | other =>
    reportHere ("expected form name, found " ++ other.describe)
      (some "forms start with a name, e.g. `(add a b)` or `(lambda ((x Int)) x)`")
    skipToClose
    let _ ← eat .rparen
    return placeholder

def exprNode : m Node := do
  match ← peek with
  | .integer n =>
    advance
    return .int n
  | .float x =>
    advance
    return .float x
  | .str s =>
    advance
    return .str s
  | .true =>
    advance
    return .bool true
  | .false =>
    advance
    return .bool false
  | .null =>
    advance
    return .null
  | .ident name =>
    let span ← peekSpan
    advance
    resolveName name span
  | .lparen => form ty binding expr
  | other =>
    reportHere ("expected expression, found " ++ other.describe) none
    if !endsForm other then advance
    return placeholder

/-- Reads an expression that is not too deep. -/
def exprBody : m Expr := do
  let n ← exprNode ty binding expr
  draw n.alloc

/-- Skips an expression that is too deep. -/
def tooDeep : m Expr := do
  reportHere ("nesting depth exceeded (maximum " ++ toString maxNesting ++ " levels)")
    (some "split the tree into smaller lambdas invoked from each other")
  skipForm
  draw placeholder.alloc

end Parts

/-! ### Sources -/

section Sources

variable (ty : m Ty) (expr : m Expr)

def freeDecl : m Unit := do
  let _ ← expect .free
  let (name, span) ← expectIdent
  let _ ← expect .colon
  let ty ← ty
  if (← state).scopes.any (·.1 == name) then
    report { message := "free variable '" ++ name ++ "' declared twice", span }
  else
    let v ← draw (Variable.alloc name ty)
    update fun s => { s with scopes := (name, v) :: s.scopes }

def closureField (closure : String) (fields : List (String × Value)) : m (List (String × Value)) := do
  let (name, span) ← expectIdent
  let _ ← expect .equals
  let v ← value expr
  let duplicate := fields.any (·.1 == name)
  if duplicate then
    report { message := "field '" ++ name ++ "' declared twice in closure '" ++ closure ++ "'"
             span }
  if !(← eat .comma) && !(← at? .rbrace) then
    reportHere ("expected ',' or '\x7d' after closure field, found " ++ (← peek).describe) none
    advance
  return if duplicate then fields else (name, v) :: fields

def closureDecl : m Unit := do
  let _ ← expect .closure
  let (name, span) ← expectIdent
  let _ ← expect .lbrace
  let fields ← Engine.loop (fun l => l != .rbrace && l != .eof)
    (fun fields => return (← closureField expr name fields, true)) []
  let _ ← expect .rbrace
  if (← closure? name).isSome then
    report { message := "closure '" ++ name ++ "' declared twice"
             span
             help := some "closure names identify capture types and must be unique" }
  else
    let c ← draw (Closure.alloc name fields.reverse)
    update fun s => { s with closures := (name, c) :: s.closures }

def decl : m Unit := do
  if ← at? .closure then closureDecl expr else freeDecl ty

def file : m Expr := do
  let _ ← many (fun l => l == .closure || l == .free) (decl ty expr)
  let e ← expr
  if !(← at? .eof) then
    reportHere ("expected end of file, found " ++ (← peek).describe)
      (some "a file holds declarations followed by exactly one expression")
  return e

end Sources

end Text

/-! ## Direct runs -/

/-- Steps are taken as they are, and loops end at an item that takes no token. -/
instance : Engine Parser := ⟨fun x => x, iterate⟩

namespace Text

theorem direct_ty (nesting : Nat) : tyBody (tyNested nesting) = tyNested (nesting + 1) := rfl

theorem direct_binding (expr : Parser Expr) (nesting : Nat) :
    bindingBody ty (bindingNested expr nesting) expr = bindingNested expr (nesting + 1) := rfl

theorem direct_expr (levels : Nat) :
    exprBody ty (Parser.binding (expr levels)) (expr levels) = expr (levels + 1) := rfl

theorem direct_tooDeep : tooDeep = expr 0 := rfl

theorem direct_file : file ty (expr maxNesting) = Parser.file := rfl

end Text

/-! ## Tracked runs -/

/-- The state of a tracked run. -/
structure Track where
  reader : ParseState
  /-- All tokens of the source. -/
  source : List Token
  /-- How many expressions are open, each inside the one before. -/
  nesting : Nat := 0
  /-- How many tokens were left where the innermost open call began. -/
  began : Option Nat := none

/-- How many tokens are taken, which is where the token at hand stands. -/
def Track.position (w : Track) : Nat := w.source.length - w.reader.tokens.length

/-- Why a tracked run stops. -/
inductive Stop where
  /-- A token is looked at behind the last one. -/
  | outOfBounds
  /-- A loop goes on, or a call is made inside another, and no token was taken in between. -/
  | stuck
  /-- More expressions are left than were entered. -/
  | underflow
  /-- More calls are nested than were allowed for. -/
  | cutOff
  deriving DecidableEq

/-- A run that keeps track of where it is, and may stop. -/
abbrev Tracked := StateT Track (Except Stop)

namespace Tracked

variable {α β : Type}

/-- Takes a step at a token that is there. -/
def step (x : Parser α) : Tracked α := fun w =>
  if w.position < w.source.length then .ok ((x w.reader).1, { w with reader := (x w.reader).2 })
  else .error .outOfBounds

/-- Runs a loop, every round of which has to take a token unless it is the last. -/
def loop (more : Lexeme → Bool) (body : β → Tracked (β × Bool)) (acc : β) (w : Track) :
    Except Stop (β × Track) :=
  if w.position < w.source.length then
    if more w.reader.lexeme then
      match body acc w with
      | .error stop => .error stop
      | .ok ((acc, goesOn), w') =>
        if goesOn then
          if w'.reader.tokens.length < w.reader.tokens.length then loop more body acc w'
          else .error .stuck
        else .ok (acc, w')
    else .ok (acc, w)
  else .error .outOfBounds
termination_by w.reader.tokens.length

/-- Calls a reader, if a token was taken since the call began that it is made in. -/
def call (x : Tracked α) : Tracked α := fun w =>
  if w.began.all fun left => w.reader.tokens.length < left then
    match x { w with began := some w.reader.tokens.length } with
    | .error stop => .error stop
    | .ok (a, w') => .ok (a, { w' with began := w.began })
  else .error .stuck

/-- Enters an expression and leaves it again. What is too deep is run in another way. -/
def nested (deep x : Tracked α) : Tracked α := fun w =>
  match (if maxNesting < w.nesting + 1 then deep else x) { w with nesting := w.nesting + 1 } with
  | .error stop => .error stop
  | .ok (a, w') =>
    if w'.nesting = 0 then .error .underflow else .ok (a, { w' with nesting := w'.nesting - 1 })

/-- The run that is cut off at once. -/
def cutOff : Tracked α := fun _ => .error .cutOff

end Tracked

/-- Steps and loops are checked as they run. -/
instance : Engine Tracked := ⟨Tracked.step, Tracked.loop⟩

namespace Text

/-- The readers that call themselves or each other. -/
structure Calls where
  ty : Tracked Ty
  binding : Tracked (Binding Expr)
  expr : Tracked Expr

/-- The calls of the text, cut off after a number of nested ones. -/
def callsWithin : (calls : Nat) → Calls
  | 0 => ⟨Tracked.cutOff, Tracked.cutOff, Tracked.cutOff⟩
  | calls + 1 =>
    let ⟨ty, binding, expr⟩ := callsWithin calls
    { ty := Tracked.call (tyBody ty)
      binding := Tracked.call (bindingBody ty binding expr)
      expr := Tracked.call (Tracked.nested tooDeep (exprBody ty binding expr)) }

/-- Reads a whole source, tracked, cut off after a number of nested calls. -/
def fileWithin (calls : Nat) : Tracked Expr := file (callsWithin calls).ty (callsWithin calls).expr

end Text

end ExprTree.Parser
