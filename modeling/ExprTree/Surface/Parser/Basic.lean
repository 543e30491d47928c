import ExprTree.Surface.Lexer
import ExprTree.Tree.Basic

/-!
# Reading tokens

A parser reads tokens from the front of a list and never fails: where the tokens are not what it
needs it reports a diagnostic and goes on, mostly without taking the token at hand. A source is
accepted if nothing was reported.

The last token, the end of file, is never taken. Loops go through `iterate`, which ends at an item
that takes no token, so that every parser ends on every list of tokens.
-/

namespace ExprTree

/-- The state of a parser. -/
structure ParseState where
  /-- What is left to read, the token at hand first. -/
  tokens : List Token
  /-- What has been reported, in order. -/
  faults : Array Diagnostic := #[]
  /-- The variables in scope, the innermost first. -/
  scopes : List (String × Variable) := []
  /-- The closures declared so far. -/
  closures : List (String × Closure Value) := []
  supply : Supply

/-- Reads tokens and yields an `α`. -/
abbrev Parser := StateM ParseState

namespace ParseState

/-- The lexeme at hand. -/
def lexeme (s : ParseState) : Lexeme :=
  match s.tokens with
  | t :: _ => t.lexeme
  | [] => .eof

/-- The span of the token at hand. -/
def span (s : ParseState) : Span :=
  match s.tokens with
  | t :: _ => t.span
  | [] => ⟨0, 0⟩

/-- The state behind the token at hand; the last token stays. -/
def next (s : ParseState) : ParseState :=
  match s.tokens with
  | _ :: t :: rest => { s with tokens := t :: rest }
  | _ => s

/-- Does a form with the given head open here? -/
def opensForm (s : ParseState) (head : String) : Bool :=
  match s.tokens with
  | t :: u :: _ => t.lexeme == .lparen && u.lexeme == .ident head
  | _ => false

end ParseState

namespace Parser

variable {α β : Type}

/-! ## Tokens -/

/-- The lexeme at hand. -/
def peek : Parser Lexeme := return (← get).lexeme

/-- The span of the token at hand. -/
def peekSpan : Parser Span := return (← get).span

/-- Takes the token at hand. -/
def advance : Parser Unit := modify ParseState.next

/-- Is the token at hand the given one? -/
def at? (l : Lexeme) : Parser Bool := return (← peek) == l

/-- Takes the token at hand if it is the given one. -/
def eat (l : Lexeme) : Parser Bool := do
  if ← at? l then
    advance
    return true
  else return false

/-! ## Reports -/

/-- Reports a fault. -/
def report (d : Diagnostic) : Parser Unit := modify fun s => { s with faults := s.faults.push d }

/-- Reports a fault at the token at hand. -/
def reportHere (message : String) (help : Option String) : Parser Unit := do
  report { message, span := ← peekSpan, help }

/-- Takes the given token, or reports that it is missing; its span, or that of the token at hand. -/
def expect (l : Lexeme) : Parser Span := do
  let span ← peekSpan
  if ← at? l then advance
  else reportHere ("expected " ++ l.describe ++ ", found " ++ (← peek).describe) none
  return span

/-- The name read where an identifier is missing. -/
def missingName : String := "_error_"

/-- Takes an identifier, or reports that it is missing. -/
def expectIdent : Parser (String × Span) := do
  let span ← peekSpan
  match ← peek with
  | .ident name =>
    advance
    return (name, span)
  | other =>
    reportHere ("expected identifier, found " ++ other.describe) none
    return (missingName, span)

/-! ## Loops -/

/-- Runs `step` on an accumulator as long as the lexeme at hand satisfies `more`. The loop also ends
when a step says so, or takes no token. -/
def iterate (more : Lexeme → Bool) (step : β → Parser (β × Bool)) (acc : β) (s : ParseState) :
    β × ParseState :=
  if more s.lexeme then
    let r := step acc s
    if r.1.2 then
      if r.2.tokens.length < s.tokens.length then iterate more step r.1.1 r.2
      else (r.1.1, r.2)
    else (r.1.1, r.2)
  else (acc, s)
termination_by s.tokens.length

/-- Reads items as long as the lexeme at hand satisfies `more`. -/
def many (more : Lexeme → Bool) (item : Parser α) : Parser (List α) := do
  let items ← iterate more (fun acc => return ((← item) :: acc, true)) []
  return items.reverse

/-- Reads items as long as an opening parenthesis is at hand. -/
def manyForms (item : Parser α) : Parser (List α) := many (· == .lparen) item

/-! ## Recovery -/

/-- Does the lexeme end the form it stands in? -/
def endsForm (l : Lexeme) : Bool := l == .rparen || l == .eof

/-- Skips to the parenthesis that closes the current form and leaves it. -/
def skipToClose : Parser Unit := do
  let _ ← iterate (· != .eof) (fun depth : Nat => do
    match ← peek with
    | .lparen =>
      advance
      return (depth + 1, true)
    | .rparen =>
      if depth == 0 then return (depth, false)
      else
        advance
        return (depth - 1, true)
    | _ =>
      advance
      return (depth, true)) 0

/-- Skips one balanced form or one token, but not the end of the current form. -/
def skipForm : Parser Unit := do
  if ← eat .lparen then
    skipToClose
    let _ ← eat .rparen
  else if !endsForm (← peek) then advance

/-! ## Identities -/

/-- Draws identities from the supply of the parser. -/
def draw (f : Fresh α) : Parser α := modifyGet fun s =>
  let (a, supply) := f.run s.supply
  (a, { s with supply := supply })

/-- What is read in place of a faulty expression; it never leaves an accepted source. -/
def placeholder : Node := .null

end Parser

end ExprTree
