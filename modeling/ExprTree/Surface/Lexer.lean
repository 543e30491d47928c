import ExprTree.Binary64.Rounding
import ExprTree.Surface.Token

/-!
# Cutting a source into tokens

`tokenize` cuts a source text into tokens, skipping blanks and `//` comments, and reports what it
cannot read. It always ends with exactly one end-of-file token. Offsets count bytes of the UTF-8
form of the text; a `Cursor` carries the offset along with the rest of the text.

Identifiers, keywords, numbers and symbols are ASCII. An identifier may end in one `!`. A minus sign
directly before a digit belongs to the number. An unreadable character is reported and skipped.
-/

namespace ExprTree

namespace Lexer

/-- A place in a text: its offset and what follows. -/
structure Cursor where
  offset : Nat
  rest : List Char

/-- The number of bytes of a list of characters. -/
def byteLength (cs : List Char) : Nat := (cs.map Char.utf8Size).foldr (· + ·) 0

namespace Cursor

/-- The place behind the characters `taken`, before `rest`. -/
def behind (c : Cursor) (taken rest : List Char) : Cursor := ⟨c.offset + byteLength taken, rest⟩

/-- The longest run of characters that satisfy `p`, and the place behind it. -/
def span (c : Cursor) (p : Char → Bool) : List Char × Cursor :=
  let taken := c.rest.takeWhile p
  (taken, c.behind taken (c.rest.dropWhile p))

theorem span_suffix (c : Cursor) (p : Char → Bool) : (c.span p).2.rest <:+ c.rest :=
  List.dropWhile_suffix p

end Cursor

/-! ## Blanks -/

/-- Blank characters: space, tab, line feed, carriage return and form feed. -/
def isBlank (c : Char) : Bool := c == ' ' || c == '\t' || c == '\n' || c == '\r' || c == '\x0c'

/-- The place behind a blank or a comment, if one stands here. A comment runs from `//` to the end
of its line. -/
def gap? (c : Cursor) : Option Cursor :=
  match c.rest with
  | '/' :: '/' :: rest => some ((c.behind ['/', '/'] rest).span (· != '\n')).2
  | x :: rest => if isBlank x then some (c.behind [x] rest) else none
  | [] => none

theorem gap?_length_lt {c c' : Cursor} (h : gap? c = some c') : c'.rest.length < c.rest.length := by
  unfold gap? at h
  split at h
  · next rest hc =>
    have := (Cursor.span_suffix (c.behind ['/', '/'] rest) (· != '\n')).length_le
    simp only [Option.some.injEq] at h
    subst h
    simp only [hc, Cursor.behind, List.length_cons] at *
    omega
  · next hc =>
    split at h
    · simp only [Option.some.injEq] at h
      subst h
      simp [hc, Cursor.behind]
    · simp at h
  · simp at h

/-- Skips blanks and comments. -/
def skipBlanks (c : Cursor) : Cursor :=
  match _h : gap? c with
  | some c' => skipBlanks c'
  | none => c
termination_by c.rest.length
decreasing_by exact gap?_length_lt ‹_›

theorem skipBlanks_length_le (c : Cursor) : (skipBlanks c).rest.length ≤ c.rest.length := by
  fun_induction skipBlanks c with
  | case1 c c' h ih => exact Nat.le_trans ih (Nat.le_of_lt (gap?_length_lt h))
  | case2 => exact Nat.le_refl _

/-! ## One token

Each reader below starts behind the first character of a token, so the place it ends at is never
before that. -/

/-- What was read: a lexeme unless the text is unreadable, what there is to report, and the place
behind. -/
structure Scan where
  lexeme : Option Lexeme
  faults : List Diagnostic := []
  next : Cursor

/-- Can an identifier start with this character? -/
def isIdentStart (c : Char) : Bool := c.isAlpha || c == '_'

/-- Can this character stand in an identifier behind the first? -/
def isIdentRest (c : Char) : Bool := c.isAlphanum || c == '_'

/-- Takes the mark `!` if it follows. -/
def takeMark (c : Cursor) : List Char × Cursor :=
  match c.rest with
  | '!' :: rest => (['!'], c.behind ['!'] rest)
  | _ => ([], c)

/-- Reads an identifier or a keyword that starts with `first`. -/
def scanWord (first : Char) (c : Cursor) : Scan :=
  let word := c.span isIdentRest
  let mark := takeMark word.2
  let text := String.ofList (first :: word.1 ++ mark.1)
  { lexeme := some ((Lexeme.keyword? text).getD (.ident text)), next := mark.2 }

/-- The integer that a literal denotes, unless it does not fit into 64 bits. -/
def int64? (negative : Bool) (digits : List Char) : Option Int64 :=
  let n : Int := if negative then -(Decimal.ofDigits digits : Int) else Decimal.ofDigits digits
  if Int64.minValue.toInt ≤ n ∧ n ≤ Int64.maxValue.toInt then some (Int64.ofInt n) else none

/-- Reads the digits after a point, if a digit follows it. -/
def scanFraction (c : Cursor) : List Char × Cursor :=
  match c.rest with
  | '.' :: rest =>
    if rest.head?.any Char.isDigit then (c.behind ['.'] rest).span Char.isDigit else ([], c)
  | _ => ([], c)

/-- Takes a sign if one follows. -/
def takeSign (c : Cursor) : List Char × Cursor :=
  match c.rest with
  | '-' :: rest => (['-'], c.behind ['-'] rest)
  | '+' :: rest => (['+'], c.behind ['+'] rest)
  | _ => ([], c)

/-- Reads an exponent, if digits follow the mark and an optional sign. -/
def scanExponent (c : Cursor) : Option Int × Cursor :=
  match c.rest with
  | [] => (none, c)
  | mark :: rest =>
    let sign := takeSign (c.behind [mark] rest)
    if (mark == 'e' || mark == 'E') && sign.2.rest.head?.any Char.isDigit then
      let digits := sign.2.span Char.isDigit
      let n : Int := Decimal.ofDigits digits.1
      (some (if sign.1 == ['-'] then -n else n), digits.2)
    else (none, c)

/-- The report on an integer literal that is too large. -/
def outOfRange (text : String) (span : Span) : Diagnostic where
  message := "integer literal '" ++ text ++ "' is out of range"
  span := span
  help := some ("integers are 64-bit signed: " ++ intText Int64.minValue ++ "..="
    ++ intText Int64.maxValue)

/-- Reads a number that starts at offset `start` with the digit or minus sign `first`. It is a float
if it has a fraction or an exponent. -/
def scanNumber (start : Nat) (first : Char) (c : Cursor) : Scan :=
  let digits := c.span Char.isDigit
  let negative := first == '-'
  let whole := if negative then digits.1 else first :: digits.1
  let fraction := scanFraction digits.2
  let exponent := scanExponent fraction.2
  if fraction.1.isEmpty && exponent.1.isNone then
    match int64? negative whole with
    | some n => { lexeme := some (.integer n), next := exponent.2 }
    | none =>
      { lexeme := some (.integer 0)
        faults := [outOfRange (String.ofList (first :: digits.1)) ⟨start, exponent.2.offset⟩]
        next := exponent.2 }
  else
    let decimal := Decimal.ofParts whole fraction.1 (exponent.1.getD 0)
    { lexeme := some (.float (.ofDecimal negative decimal)), next := exponent.2 }

/-- The character that a letter after a backslash stands for. -/
def unescape? : Char → Option Char
  | 'n' => some '\n'
  | 't' => some '\t'
  | 'r' => some '\r'
  | '\\' => some '\\'
  | '"' => some '"'
  | _ => none

/-- The text of a string literal, what there is to report, and the place behind the closing
quote. -/
structure StringScan where
  text : List Char
  faults : List Diagnostic
  next : Cursor

/-- Puts a character before the text. -/
def StringScan.cons (c : Char) (s : StringScan) : StringScan := { s with text := c :: s.text }

/-- The report on a backslash that starts no escape. -/
def unknownEscape (offset : Nat) : Diagnostic where
  message := "unknown escape sequence"
  span := ⟨offset, offset + 1⟩
  help := some "supported escapes: \\n \\t \\r \\\\ \\\""

/-- The report on a string without a closing quote. -/
def unterminated (start stop : Nat) : Diagnostic where
  message := "unterminated string literal"
  span := ⟨start, stop⟩
  help := some "close the string with '\"'"

/-- Reads a string literal behind its opening quote, which stands at `start`. A backslash that
starts no escape is reported and dropped. -/
def scanString (start offset : Nat) : List Char → StringScan
  | [] => ⟨[], [unterminated start offset], ⟨offset, []⟩⟩
  | '"' :: rest => ⟨[], [], ⟨offset + 1, rest⟩⟩
  | ['\\'] => ⟨[], [unknownEscape offset, unterminated start (offset + 1)], ⟨offset + 1, []⟩⟩
  | '\\' :: e :: rest =>
    match unescape? e with
    | some c => (scanString start (offset + 2) rest).cons c
    | none =>
      let s := scanString start (offset + 1) (e :: rest)
      { s with faults := unknownEscape offset :: s.faults }
  | c :: rest => (scanString start (offset + c.utf8Size) rest).cons c

/-- The symbol of one character. -/
def symbol? : Char → Option Lexeme
  | '(' => some .lparen
  | ')' => some .rparen
  | '\x7b' => some .lbrace
  | '\x7d' => some .rbrace
  | '[' => some .lbracket
  | ']' => some .rbracket
  | ',' => some .comma
  | ':' => some .colon
  | '=' => some .equals
  | '<' => some .less
  | '>' => some .greater
  | _ => none

/-- The report on a character that starts no token. -/
def unexpected (c : Char) (span : Span) : Diagnostic where
  message := "unexpected character '" ++ c.toString ++ "'"
  span := span
  help := some "operators are written as words, e.g. `(add a b)`"

/-- Reads a symbol that starts at offset `start` with `first`, or reports that there is none. -/
def scanSymbol (start : Nat) (first : Char) (c : Cursor) : Scan :=
  match first, c.rest with
  | ':', ':' :: rest => { lexeme := some .colonColon, next := c.behind [':'] rest }
  | '-', '>' :: rest => { lexeme := some .arrow, next := c.behind ['>'] rest }
  | _, _ =>
    match symbol? first with
    | some lexeme => { lexeme := some lexeme, next := c }
    | none => { lexeme := none, faults := [unexpected first ⟨start, c.offset⟩], next := c }

/-- Reads the token that starts at offset `start` with `first`; `c` is the place behind that
character. -/
def scan (start : Nat) (first : Char) (c : Cursor) : Scan :=
  if isIdentStart first then scanWord first c
  else if first.isDigit || (first == '-' && c.rest.head?.any Char.isDigit) then
    scanNumber start first c
  else if first == '"' then
    let s := scanString start c.offset c.rest
    { lexeme := some (.str (String.ofList s.text)), faults := s.faults, next := s.next }
  else scanSymbol start first c

/-! ## Reading goes forward -/

theorem takeMark_suffix (c : Cursor) : (takeMark c).2.rest <:+ c.rest := by
  unfold takeMark
  split
  · next h => rw [h]; exact List.suffix_cons _ _
  · exact List.suffix_refl _

theorem takeSign_suffix (c : Cursor) : (takeSign c).2.rest <:+ c.rest := by
  unfold takeSign
  split
  · next h => rw [h]; exact List.suffix_cons _ _
  · next h => rw [h]; exact List.suffix_cons _ _
  · exact List.suffix_refl _

theorem scanFraction_suffix (c : Cursor) : (scanFraction c).2.rest <:+ c.rest := by
  unfold scanFraction
  split
  · next rest h =>
    split
    · rw [h]
      exact (Cursor.span_suffix (c.behind ['.'] rest) _).trans (List.suffix_cons _ _)
    · exact List.suffix_refl _
  · exact List.suffix_refl _

theorem scanExponent_suffix (c : Cursor) : (scanExponent c).2.rest <:+ c.rest := by
  unfold scanExponent
  split
  · exact List.suffix_refl _
  · next mark rest h =>
    dsimp only
    split
    · rw [h]
      exact ((Cursor.span_suffix _ _).trans (takeSign_suffix _)).trans (List.suffix_cons _ _)
    · exact List.suffix_refl _

theorem scanWord_suffix (first : Char) (c : Cursor) : (scanWord first c).next.rest <:+ c.rest :=
  (takeMark_suffix _).trans (Cursor.span_suffix _ _)

theorem scanNumber_suffix (start : Nat) (first : Char) (c : Cursor) :
    (scanNumber start first c).next.rest <:+ c.rest := by
  have h := ((scanExponent_suffix _).trans (scanFraction_suffix _)).trans
    (Cursor.span_suffix c Char.isDigit)
  unfold scanNumber
  dsimp only
  split
  · split <;> exact h
  · exact h

theorem scanString_suffix (start offset : Nat) (cs : List Char) :
    (scanString start offset cs).next.rest <:+ cs := by
  fun_induction scanString start offset cs with
  | case1 => exact List.suffix_refl _
  | case2 => exact List.suffix_cons _ _
  | case3 => exact List.nil_suffix
  | case4 _ e rest _ _ ih => exact ih.trans ((List.suffix_cons _ _).trans (List.suffix_cons _ _))
  | case5 _ e rest _ _ ih => exact ih.trans (List.suffix_cons _ _)
  | case6 _ c rest _ _ _ ih => exact ih.trans (List.suffix_cons _ _)

theorem scanSymbol_suffix (start : Nat) (first : Char) (c : Cursor) :
    (scanSymbol start first c).next.rest <:+ c.rest := by
  unfold scanSymbol
  split
  · next h => rw [h]; exact List.suffix_cons _ _
  · next h => rw [h]; exact List.suffix_cons _ _
  · split <;> exact List.suffix_refl _

/-- A token ends no earlier than behind its first character. -/
theorem scan_suffix (start : Nat) (first : Char) (c : Cursor) :
    (scan start first c).next.rest <:+ c.rest := by
  unfold scan
  split
  · exact scanWord_suffix _ _
  · split
    · exact scanNumber_suffix _ _ _
    · split
      · exact scanString_suffix _ _ _
      · exact scanSymbol_suffix _ _ _

/-! ## All tokens -/

/-- The tokens of a text and what there is to report about it. -/
structure Lexed where
  tokens : List Token
  faults : List Diagnostic

/-- The tokens from a place on. -/
def run (c : Cursor) : Lexed :=
  match h : (skipBlanks c).rest with
  | [] =>
    let offset := (skipBlanks c).offset
    ⟨[⟨.eof, ⟨offset, offset⟩⟩], []⟩
  | first :: rest =>
    let start := (skipBlanks c).offset
    let s := scan start first ((skipBlanks c).behind [first] rest)
    let later := run s.next
    let token := s.lexeme.map fun lexeme => ⟨lexeme, ⟨start, s.next.offset⟩⟩
    ⟨token.toList ++ later.tokens, s.faults ++ later.faults⟩
termination_by c.rest.length
decreasing_by
  have h₁ := (scan_suffix (skipBlanks c).offset first
    ((skipBlanks c).behind [first] rest)).length_le
  have h₂ := skipBlanks_length_le c
  simp only [h, Cursor.behind, List.length_cons] at *
  omega

end Lexer

/-- Cuts a source text into tokens. -/
def tokenize (source : String) : Lexer.Lexed := Lexer.run ⟨0, source.toList⟩

end ExprTree
