import Mathlib.Data.List.TakeWhile
import ExprTree.Surface.Parser.File
import ExprTree.Surface.Printer

/-!
# Texts and the lexemes they spell

`Spells cs ls` says that the characters `cs` are cut into the lexemes `ls`, whatever follows them, as
long as it starts at an `Edge`: a character that ends every word and every number. Texts are spelled
piece by piece: symbols and blanks may stand before anything (`spells_symbol`, `spells_blank`), and
two pieces may be joined where the second one starts at an edge (`Spells.append`).

The rest of the module gives the spelling of each kind of text that a printed tree consists of:
names, numbers, strings, references and types.
-/

namespace ExprTree

namespace Lexer

/-- The lexemes of a cut text. -/
def Lexed.lexemes (l : Lexed) : List Lexeme := l.tokens.map (·.lexeme)

/-- The characters that end a word or a number. -/
def isEdge (c : Char) : Bool :=
  [' ', '\n', '(', ')', ',', ':', '<', '>', ']', '\x7d'].contains c

/-- The text is empty or starts with a character that ends every word and every number. -/
def Edge (cs : List Char) : Prop := ∀ c ∈ cs.head?, isEdge c = true

/-- Before any text that starts at an edge, the characters are cut into the lexemes, without a
fault. -/
def Spells (cs : List Char) (ls : List Lexeme) : Prop :=
  ∀ offset rest, Edge rest → ∃ offset',
    (run ⟨offset, cs ++ rest⟩).lexemes = ls ++ (run ⟨offset', rest⟩).lexemes ∧
    (run ⟨offset, cs ++ rest⟩).faults = (run ⟨offset', rest⟩).faults

theorem edge_nil : Edge [] := by simp [Edge]

theorem edge_cons {c : Char} {cs : List Char} : Edge (c :: cs) ↔ isEdge c = true := by
  simp [Edge]

theorem Edge.append {cs rest : List Char} (h : Edge cs) (hrest : Edge rest) : Edge (cs ++ rest) := by
  cases cs with
  | nil => exact hrest
  | cons c cs => exact edge_cons.2 (edge_cons.1 h)

/-! ## Joining texts -/

theorem spells_nil : Spells [] [] := fun offset _ _ => ⟨offset, rfl, rfl⟩

theorem Spells.append {cs cs' : List Char} {ls ls' : List Lexeme} (h : Spells cs ls)
    (h' : Spells cs' ls') (hedge : Edge cs') : Spells (cs ++ cs') (ls ++ ls') := by
  intro offset rest hrest
  obtain ⟨o₁, hlex₁, hfaults₁⟩ := h offset (cs' ++ rest) (hedge.append hrest)
  obtain ⟨o₂, hlex₂, hfaults₂⟩ := h' o₁ rest hrest
  refine ⟨o₂, ?_, ?_⟩
  · rw [List.append_assoc, hlex₁, hlex₂, List.append_assoc]
  · rw [List.append_assoc, hfaults₁, hfaults₂]

theorem run_done (offset : Nat) : run ⟨offset, []⟩ = ⟨[⟨.eof, ⟨offset, offset⟩⟩], []⟩ := by
  have hskip : skipBlanks ⟨offset, []⟩ = ⟨offset, []⟩ := by
    rw [skipBlanks]
    rfl
  rw [run]
  split
  · rw [hskip]
  · next heq => rw [hskip] at heq; cases heq

theorem run_nil (offset : Nat) :
    (run ⟨offset, []⟩).lexemes = [.eof] ∧ (run ⟨offset, []⟩).faults = [] := by
  rw [run_done]
  exact ⟨rfl, rfl⟩

/-- A source that is spelled as a whole. -/
theorem Spells.tokenize {source : String} {ls : List Lexeme} (h : Spells source.toList ls) :
    (tokenize source).lexemes = ls ++ [.eof] ∧ (tokenize source).faults = [] := by
  obtain ⟨o', hlexemes, hfaults⟩ := h 0 [] edge_nil
  rw [List.append_nil] at hlexemes hfaults
  rw [(run_nil o').1] at hlexemes
  rw [(run_nil o').2] at hfaults
  exact ⟨hlexemes, hfaults⟩

/-- A text spells at most one list of lexemes. -/
theorem Spells.unique {cs : List Char} {ls ls' : List Lexeme} (h : Spells cs ls)
    (h' : Spells cs ls') : ls = ls' := by
  obtain ⟨o₁, hls, -⟩ := h 0 [] edge_nil
  obtain ⟨o₂, hls', -⟩ := h' 0 [] edge_nil
  rw [hls, (run_nil o₁).1, (run_nil o₂).1] at hls'
  exact List.append_cancel_right hls'

/-- Only the place behind the blanks counts. -/
theorem run_congr {c c' : Cursor} (h : skipBlanks c = skipBlanks c') : run c = run c' := by
  rw [run, run]
  split
  · next hc =>
    split
    · rw [h]
    · next hc' => rw [h, hc'] at hc; cases hc
  · next first rest hc =>
    split
    · next hc' => rw [h, hc'] at hc; cases hc
    · next first' rest' hc' =>
      rw [h, hc'] at hc
      cases hc
      simp only [h]

theorem spells_blank {b : Char} (hb : isBlank b = true) {cs : List Char} {ls : List Lexeme}
    (h : Spells cs ls) : Spells (b :: cs) ls := by
  intro offset rest hrest
  have hgap : gap? ⟨offset, b :: (cs ++ rest)⟩ = some ⟨offset + byteLength [b], cs ++ rest⟩ := by
    unfold gap?
    split
    · next heq =>
      obtain ⟨rfl, -⟩ := List.cons.inj heq
      cases hb
    · next heq =>
      obtain ⟨rfl, rfl⟩ := List.cons.inj heq
      rw [if_pos hb]
      rfl
    · next heq => cases heq
  have hskip : skipBlanks ⟨offset, b :: (cs ++ rest)⟩ =
      skipBlanks ⟨offset + byteLength [b], cs ++ rest⟩ := by
    rw [skipBlanks]
    split
    · next c' hc' => rw [hgap] at hc'; cases hc'; rfl
    · next hc' => rw [hgap] at hc'; cases hc'
  rw [List.cons_append, run_congr hskip]
  exact h _ rest hrest

/-- Where neither a blank nor a comment starts, the text is cut behind what a scan takes. -/
theorem run_cons {offset : Nat} {first : Char} {cs : List Char} (hblank : isBlank first = false)
    (hslash : first ≠ '/') : run ⟨offset, first :: cs⟩ =
      let s := scan offset first ⟨offset + byteLength [first], cs⟩
      ⟨(s.lexeme.map fun l => ⟨l, ⟨offset, s.next.offset⟩⟩).toList ++ (run s.next).tokens,
        s.faults ++ (run s.next).faults⟩ := by
  have hgap : gap? ⟨offset, first :: cs⟩ = none := by
    unfold gap?
    split
    · next heq => cases heq; exact absurd rfl hslash
    · next heq => cases heq; rw [hblank]; rfl
    · rfl
  have hskip : skipBlanks ⟨offset, first :: cs⟩ = ⟨offset, first :: cs⟩ := by
    rw [skipBlanks]
    split
    · next c' hc' => rw [hgap] at hc'; cases hc'
    · rfl
  rw [run]
  split
  · next heq => rw [hskip] at heq; cases heq
  · next first' rest' heq =>
    rw [hskip] at heq ⊢
    cases heq
    rfl

/-- A token is cut off where a scan finds one. -/
theorem run_of_scan {offset : Nat} {first : Char} {cs : List Char} {l : Lexeme} {next : Cursor}
    (hblank : isBlank first = false) (hslash : first ≠ '/')
    (hscan : scan offset first ⟨offset + byteLength [first], cs⟩ = { lexeme := some l, next }) :
    (run ⟨offset, first :: cs⟩).lexemes = l :: (run next).lexemes ∧
      (run ⟨offset, first :: cs⟩).faults = (run next).faults := by
  rw [run_cons hblank hslash, hscan]
  exact ⟨rfl, rfl⟩

/-- Only the end of a text is read as the end of file. -/
theorem scan_ne_eof (start : Nat) (first : Char) (c : Cursor) : (scan start first c).lexeme ≠ some .eof := by
  have hword : ∀ text : String, (Lexeme.keyword? text).getD (.ident text) ≠ .eof := by
    intro text
    unfold Lexeme.keyword?
    split <;> exact Lexeme.noConfusion
  have hsymbol : ∀ {c : Char} {l : Lexeme}, symbol? c = some l → l ≠ .eof := by
    intro c l hc
    unfold symbol? at hc
    split at hc <;> cases hc <;> exact Lexeme.noConfusion
  intro h
  unfold scan at h
  split at h
  · exact hword _ (Option.some.inj h)
  · split at h
    · simp only [scanNumber] at h
      split at h
      · split at h <;> cases h
      · cases h
    · split at h
      · cases h
      · unfold scanSymbol at h
        split at h
        · cases h
        · cases h
        · split at h
          · next hl => exact hsymbol hl (Option.some.inj h)
          · cases h

/-- A text that is scanned as one token, up to any edge. -/
theorem spells_of_scan {first : Char} {cs : List Char} {l : Lexeme}
    (hblank : isBlank first = false) (hslash : first ≠ '/')
    (hscan : ∀ start offset rest, Edge rest → ∃ offset',
      scan start first ⟨offset, cs ++ rest⟩ = { lexeme := some l, next := ⟨offset', rest⟩ }) :
    Spells (first :: cs) [l] := by
  intro offset rest hrest
  obtain ⟨o', hscan⟩ := hscan offset (offset + byteLength [first]) rest hrest
  exact ⟨o', run_of_scan hblank hslash hscan⟩

/-! ## Symbols -/

/-- A token that is scanned whatever follows it may stand before anything. -/
theorem spells_of_scan_cons {first : Char} (cs : List Char) {cs' : List Char} {l : Lexeme}
    (hblank : isBlank first = false) (hslash : first ≠ '/')
    (hscan : ∀ start offset rest, ∃ offset',
      scan start first ⟨offset, cs ++ (cs' ++ rest)⟩ =
        { lexeme := some l, next := ⟨offset', cs' ++ rest⟩ })
    {ls : List Lexeme} (h : Spells cs' ls) : Spells (first :: cs ++ cs') (l :: ls) := by
  intro offset rest hrest
  obtain ⟨o₁, hscan⟩ := hscan offset (offset + byteLength [first]) rest
  obtain ⟨hlex, hfaults⟩ := run_of_scan hblank hslash hscan
  obtain ⟨o₂, hlex', hfaults'⟩ := h o₁ rest hrest
  refine ⟨o₂, ?_, ?_⟩
  · rw [List.append_assoc, List.cons_append, hlex, hlex', List.cons_append]
  · rw [List.append_assoc, List.cons_append, hfaults, hfaults']

/-- A symbol of one character, other than one that a second character may make longer, stands
before anything. -/
theorem spells_symbol {c : Char} {l : Lexeme} (hc : symbol? c = some l) (hcolon : c ≠ ':')
    {cs : List Char} {ls : List Lexeme} (h : Spells cs ls) : Spells (c :: cs) (l :: ls) := by
  unfold symbol? at hc
  split at hc <;> cases hc
  case h_8 => exact absurd rfl hcolon
  all_goals
    exact spells_of_scan_cons [] rfl (by decide) (fun _ offset _ => ⟨offset, by
      simp [scan, isIdentStart, scanSymbol, symbol?]⟩) h

theorem spells_colonColon {cs : List Char} {ls : List Lexeme} (h : Spells cs ls) :
    Spells (':' :: ':' :: cs) (.colonColon :: ls) :=
  spells_of_scan_cons [':'] rfl (by decide) (fun _ offset _ => ⟨offset + byteLength [':'], by
    simp [scan, isIdentStart, scanSymbol, Cursor.behind]⟩) h

theorem spells_arrow {cs : List Char} {ls : List Lexeme} (h : Spells cs ls) :
    Spells ('-' :: '>' :: cs) (.arrow :: ls) :=
  spells_of_scan_cons ['>'] rfl (by decide) (fun _ offset _ => ⟨offset + byteLength ['>'], by
    simp [scan, isIdentStart, scanSymbol, Cursor.behind]⟩) h

/-- A colon before a blank is not doubled. -/
theorem spells_colon {cs : List Char} {ls : List Lexeme} (h : Spells cs ls) :
    Spells (':' :: ' ' :: cs) (.colon :: ls) :=
  spells_of_scan_cons [] rfl (by decide) (fun _ offset _ => ⟨offset, by
    simp [scan, isIdentStart, scanSymbol, symbol?]⟩) (spells_blank rfl h)

/-! ## Words -/

theorem takeWhile_append_edge {p : Char → Bool} (cs : List Char) {rest : List Char}
    (h : ∀ c ∈ rest.head?, p c = false) : (cs ++ rest).takeWhile p = cs.takeWhile p ∧
      (cs ++ rest).dropWhile p = cs.dropWhile p ++ rest := by
  induction cs with
  | nil =>
    cases rest with
    | nil => exact ⟨rfl, rfl⟩
    | cons c rest =>
      have hc : p c = false := h c rfl
      exact ⟨List.takeWhile_cons_of_neg (by simp [hc]), List.dropWhile_cons_of_neg (by simp [hc])⟩
  | cons c cs ih =>
    rw [List.cons_append, List.takeWhile_cons, List.takeWhile_cons, List.dropWhile_cons,
      List.dropWhile_cons, ih.1, ih.2]
    split <;> exact ⟨rfl, rfl⟩

/-- The longest run of characters ends before an edge that has none of them. -/
theorem span_append_edge {p : Char → Bool} (hp : ∀ c, isEdge c = true → p c = false) (offset : Nat)
    {cs rest : List Char} (hrest : Edge rest) :
    (Cursor.mk offset (cs ++ rest)).span p =
      (((Cursor.mk offset cs).span p).1, ⟨((Cursor.mk offset cs).span p).2.offset,
        ((Cursor.mk offset cs).span p).2.rest ++ rest⟩) := by
  obtain ⟨htake, hdrop⟩ := takeWhile_append_edge cs fun c hc => hp c (hrest c hc)
  simp only [Cursor.span, Cursor.behind, htake, hdrop]

theorem isIdentRest_of_isEdge {c : Char} (h : isEdge c = true) : isIdentRest c = false := by
  simp only [isEdge, List.contains_eq_mem, List.mem_cons, List.not_mem_nil, or_false,
    decide_eq_true_eq] at h
  rcases h with rfl | rfl | rfl | rfl | rfl | rfl | rfl | rfl | rfl | rfl <;> decide

theorem isDigit_of_isEdge {c : Char} (h : isEdge c = true) : c.isDigit = false := by
  simp only [isEdge, List.contains_eq_mem, List.mem_cons, List.not_mem_nil, or_false,
    decide_eq_true_eq] at h
  rcases h with rfl | rfl | rfl | rfl | rfl | rfl | rfl | rfl | rfl | rfl <;> decide

end Lexer

/-- Has the text the form of an identifier or a keyword: a letter, letters and digits, and perhaps
the mark `!`? -/
def isName (text : String) : Bool :=
  match text.toList with
  | [] => false
  | c :: cs =>
    Lexer.isIdentStart c && [[], ['!']].contains (cs.dropWhile Lexer.isIdentRest)

/-- Is the text an identifier? -/
def isWord (text : String) : Bool := isName text && (Lexeme.keyword? text).isNone

namespace Lexer

theorem isIdentRest_of_isIdentStart {c : Char} (h : isIdentStart c = true) :
    isIdentRest c = true := by
  rw [isIdentStart, Bool.or_eq_true] at h
  rw [isIdentRest, Char.isAlphanum, Bool.or_eq_true, Bool.or_eq_true]
  exact h.imp_left .inl

theorem isIdentRest_of_isDigit {c : Char} (h : c.isDigit = true) : isIdentRest c = true := by
  rw [isIdentRest, Char.isAlphanum, h, Bool.or_true, Bool.true_or]

/-- What stands in a word or a number is neither blank nor the start of a comment. -/
theorem not_blank_of_isIdentRest {c : Char} (h : isIdentRest c = true) :
    isBlank c = false ∧ c ≠ '/' := by
  refine ⟨?_, ?_⟩
  · cases hb : isBlank c with
    | false => rfl
    | true =>
      simp only [isBlank, Bool.or_eq_true, beq_iff_eq] at hb
      rcases hb with (((rfl | rfl) | rfl) | rfl) | rfl <;> cases h
  · rintro rfl
    cases h

theorem takeMark_of_edge {offset : Nat} {rest : List Char} (hrest : Edge rest) :
    takeMark ⟨offset, rest⟩ = ([], ⟨offset, rest⟩) := by
  unfold takeMark
  split
  · next heq =>
    obtain rfl : rest = '!' :: _ := heq
    cases edge_cons.1 hrest
  · rfl

/-- A name is cut as the keyword it is, or else as an identifier. -/
theorem spells_name {text : String} (h : isName text = true) :
    Spells text.toList [(Lexeme.keyword? text).getD (.ident text)] := by
  unfold isName at h
  split at h
  · cases h
  · next c cs htext =>
    rw [Bool.and_eq_true, List.contains_eq_mem, decide_eq_true_eq, List.mem_cons,
      List.mem_singleton] at h
    obtain ⟨hstart, hmark⟩ := h
    obtain ⟨hblank, hslash⟩ := not_blank_of_isIdentRest (isIdentRest_of_isIdentStart hstart)
    have hcs : cs.takeWhile isIdentRest ++ cs.dropWhile isIdentRest = cs :=
      List.takeWhile_append_dropWhile
    have htext' : String.ofList (c :: cs) = text := by rw [← htext, String.ofList_toList]
    rw [htext]
    refine spells_of_scan hblank hslash fun start offset rest hrest => ?_
    rw [scan, if_pos hstart, scanWord,
      span_append_edge (fun _ => isIdentRest_of_isEdge) offset hrest]
    simp only [Cursor.span, Cursor.behind]
    rcases hmark with hnone | hsome
    · rw [hnone, List.append_nil] at hcs
      rw [hnone, List.nil_append, takeMark_of_edge hrest, hcs, List.append_nil, htext']
      exact ⟨_, rfl⟩
    · rw [hsome] at hcs
      rw [hsome]
      simp only [takeMark, Cursor.behind, List.cons_append, List.nil_append, hcs, htext']
      exact ⟨_, rfl⟩

theorem spells_word {text : String} (h : isWord text = true) : Spells text.toList [.ident text] := by
  rw [isWord, Bool.and_eq_true, Option.isNone_iff_eq_none] at h
  have hspells := spells_name h.1
  rwa [h.2] at hspells

/-! ## Numbers -/

section Edges

variable {cs rest : List Char}

theorem any_isDigit_append_edge (hrest : Edge rest) :
    (cs ++ rest).head?.any Char.isDigit = cs.head?.any Char.isDigit := by
  cases cs with
  | nil =>
    cases rest with
    | nil => rfl
    | cons c rest => simpa using isDigit_of_isEdge (edge_cons.1 hrest)
  | cons c cs => rfl

theorem scanFraction_append_edge (offset : Nat) (hrest : Edge rest) :
    scanFraction ⟨offset, cs ++ rest⟩ = ((scanFraction ⟨offset, cs⟩).1,
      ⟨(scanFraction ⟨offset, cs⟩).2.offset, (scanFraction ⟨offset, cs⟩).2.rest ++ rest⟩) := by
  cases cs with
  | nil =>
    unfold scanFraction
    simp only [List.nil_append]
    split
    · next heq => cases edge_cons.1 hrest
    · rfl
  | cons c cs =>
    by_cases hc : c = '.'
    · subst hc
      simp only [scanFraction, List.cons_append, any_isDigit_append_edge hrest, Cursor.behind]
      split
      · exact span_append_edge (fun _ => isDigit_of_isEdge) _ hrest
      · rfl
    · simp [scanFraction, hc]

theorem takeSign_append_edge (offset : Nat) (hrest : Edge rest) :
    takeSign ⟨offset, cs ++ rest⟩ = ((takeSign ⟨offset, cs⟩).1,
      ⟨(takeSign ⟨offset, cs⟩).2.offset, (takeSign ⟨offset, cs⟩).2.rest ++ rest⟩) := by
  cases cs with
  | nil =>
    unfold takeSign
    simp only [List.nil_append]
    split
    · next heq => cases edge_cons.1 hrest
    · next heq => cases edge_cons.1 hrest
    · rfl
  | cons c cs =>
    by_cases hminus : c = '-'
    · subst hminus
      rfl
    · by_cases hplus : c = '+'
      · subst hplus
        rfl
      · simp [takeSign, hminus, hplus]

theorem scanExponent_append_edge (offset : Nat) (hrest : Edge rest) :
    scanExponent ⟨offset, cs ++ rest⟩ = ((scanExponent ⟨offset, cs⟩).1,
      ⟨(scanExponent ⟨offset, cs⟩).2.offset, (scanExponent ⟨offset, cs⟩).2.rest ++ rest⟩) := by
  cases cs with
  | nil =>
    cases rest with
    | nil => rfl
    | cons c rest =>
      have hmark : (c == 'e' || c == 'E') = false := by
        cases hmark : c == 'e' || c == 'E' with
        | false => rfl
        | true =>
          rw [Bool.or_eq_true, beq_iff_eq, beq_iff_eq] at hmark
          rcases hmark with rfl | rfl <;> cases edge_cons.1 hrest
      simp [scanExponent, hmark]
  | cons c cs =>
    simp only [scanExponent, List.cons_append, Cursor.behind, takeSign_append_edge _ hrest,
      any_isDigit_append_edge hrest, span_append_edge (fun _ => isDigit_of_isEdge) _ hrest]
    by_cases hdigits : ((c == 'e' || c == 'E') &&
        (takeSign ⟨offset + byteLength [c], cs⟩).2.rest.head?.any Char.isDigit) = true
    · simp only [hdigits, reduceIte]
      rfl
    · rw [Bool.not_eq_true] at hdigits
      simp only [hdigits, Bool.false_eq_true, reduceIte, List.cons_append]

/-- A number ends before an edge. -/
theorem scanNumber_append_edge (start offset : Nat) (first : Char) (hrest : Edge rest) :
    scanNumber start first ⟨offset, cs ++ rest⟩ =
      let s := scanNumber start first ⟨offset, cs⟩
      { s with next := ⟨s.next.offset, s.next.rest ++ rest⟩ } := by
  simp only [scanNumber, span_append_edge (fun _ => isDigit_of_isEdge) offset hrest,
    scanFraction_append_edge _ hrest, scanExponent_append_edge _ hrest]
  split
  · split <;> rfl
  · rfl

end Edges

/-- The number that a list of decimal digits denotes. -/
theorem ofDigits_toDigits (n : Nat) : Decimal.ofDigits (Nat.toDigits 10 n) = n := by
  have hfold : Decimal.ofDigits (Nat.toDigits 10 n) = Nat.ofDigitChars 10 (Nat.toDigits 10 n) 0 := by
    rw [Nat.ofDigitChars_eq_foldl]
    rfl
  rw [hfold, Nat.ofDigitChars_ten_toDigits]

theorem isDigit_of_mem_toDigits {n : Nat} : ∀ c ∈ Nat.toDigits 10 n, c.isDigit = true :=
  fun _ hc => Nat.isDigit_of_mem_toDigits (by decide) (by decide) hc

theorem any_isDigit_append {digits : List Char} (h : ∀ c ∈ digits, c.isDigit = true) (hne : digits ≠ [])
    (rest : List Char) : (digits ++ rest).head?.any Char.isDigit = true := by
  cases digits with
  | nil => exact absurd rfl hne
  | cons c digits => exact h c List.mem_cons_self

theorem any_isDigit_toDigits (n : Nat) : (Nat.toDigits 10 n).head?.any Char.isDigit = true := by
  simpa using any_isDigit_append (@isDigit_of_mem_toDigits n) Nat.toDigits_ne_nil []

/-- The text of an integer. -/
theorem toList_toString_int (n : Int) : (toString n).toList =
    if 0 ≤ n then Nat.toDigits 10 n.toNat else '-' :: Nat.toDigits 10 (-n).toNat := by
  rw [Int.toString_eq_repr, Int.repr_eq_if]
  split
  · rw [Nat.repr_eq_ofList_toDigits, String.toList_ofList]
  · rw [String.toList_append, Nat.repr_eq_ofList_toDigits, String.toList_ofList, String.toList_ofList]
    rfl

theorem isIdentStart_of_isDigit {c : Char} (h : c.isDigit = true) : isIdentStart c = false := by
  simp only [Char.isDigit, Bool.and_eq_true, decide_eq_true_eq, ge_iff_le, UInt32.le_iff_toNat_le]
    at h
  have hletter : c.isAlpha = false := by
    delta Char.isAlpha Char.isUpper Char.isLower
    simp only [Bool.or_eq_false_iff, Bool.and_eq_false_iff, decide_eq_false_iff_not, ge_iff_le,
      UInt32.le_iff_toNat_le]
    have : ('9').val.toNat = 57 := rfl
    have : ('A').val.toNat = 65 := rfl
    have : ('a').val.toNat = 97 := rfl
    omega
  have hunderscore : (c == '_') = false := by
    rw [beq_eq_false_iff_ne]
    rintro rfl
    revert h
    decide
  rw [isIdentStart, hletter, hunderscore, Bool.or_false]

/-- A digit, or a minus sign before a digit, starts a number. -/
def startsNumber (first : Char) (cs : List Char) : Bool :=
  first.isDigit || (first == '-' && cs.head?.any Char.isDigit)

theorem scan_number {first : Char} {cs : List Char} (h : startsNumber first cs = true)
    (start offset : Nat) : scan start first ⟨offset, cs⟩ = scanNumber start first ⟨offset, cs⟩ := by
  have hident : isIdentStart first = false := by
    rw [startsNumber, Bool.or_eq_true, Bool.and_eq_true, beq_iff_eq] at h
    rcases h with h | ⟨rfl, -⟩
    · exact isIdentStart_of_isDigit h
    · rfl
  unfold startsNumber at h
  rw [scan, hident, if_neg Bool.false_ne_true, if_pos h]

/-- A text that is scanned as one number, whatever offset it has. -/
theorem spells_number {first : Char} {cs : List Char} {l : Lexeme}
    (hstart : startsNumber first cs = true)
    (hscan : ∀ start offset, ∃ offset',
      scanNumber start first ⟨offset, cs⟩ = { lexeme := some l, next := ⟨offset', []⟩ }) :
    Spells (first :: cs) [l] := by
  have hfirst : isBlank first = false ∧ first ≠ '/' := by
    rw [startsNumber, Bool.or_eq_true, Bool.and_eq_true, beq_iff_eq] at hstart
    rcases hstart with h | ⟨rfl, -⟩
    · exact not_blank_of_isIdentRest (isIdentRest_of_isDigit h)
    · exact ⟨rfl, by decide⟩
  refine spells_of_scan hfirst.1 hfirst.2 fun start offset rest hrest => ?_
  have hstart' : startsNumber first (cs ++ rest) = true := by
    rwa [startsNumber, any_isDigit_append_edge hrest]
  obtain ⟨o', hscan⟩ := hscan start offset
  rw [scan_number hstart', scanNumber_append_edge start offset first hrest, hscan]
  exact ⟨o', rfl⟩

/-- A text that starts with a digit and is scanned as one number. -/
theorem spells_unsigned {text : List Char} {l : Lexeme} (htext : text.head?.any Char.isDigit = true)
    (hscan : ∀ first cs, text = first :: cs → (first == '-') = false → ∀ start offset, ∃ offset',
      scanNumber start first ⟨offset, cs⟩ = { lexeme := some l, next := ⟨offset', []⟩ }) :
    Spells text [l] := by
  cases text with
  | nil => cases htext
  | cons first cs =>
    have hfirst : first.isDigit = true := htext
    have hminus : (first == '-') = false := beq_eq_false_iff_ne.2 (by rintro rfl; cases hfirst)
    exact spells_number (by rw [startsNumber, hfirst, Bool.true_or]) (hscan first cs rfl hminus)

/-- A minus sign and a text that starts with a digit, if they are scanned as one number. -/
theorem spells_negative {text : List Char} {l : Lexeme} (htext : text.head?.any Char.isDigit = true)
    (hscan : ∀ start offset, ∃ offset',
      scanNumber start '-' ⟨offset, text⟩ = { lexeme := some l, next := ⟨offset', []⟩ }) :
    Spells ('-' :: text) [l] :=
  spells_number (by rw [startsNumber, beq_self_eq_true, Bool.true_and, htext, Bool.or_true]) hscan

/-- Digits are taken up to what is none. -/
theorem span_digits_append {digits rest : List Char} (h : ∀ c ∈ digits, c.isDigit = true)
    (hrest : ∀ c ∈ rest.head?, c.isDigit = false) (offset : Nat) :
    (Cursor.mk offset (digits ++ rest)).span Char.isDigit =
      (digits, ⟨offset + byteLength digits, rest⟩) := by
  obtain ⟨htake, hdrop⟩ := takeWhile_append_edge digits hrest
  rw [List.takeWhile_eq_self_iff.2 h] at htake
  rw [List.dropWhile_eq_nil_iff.2 h, List.nil_append] at hdrop
  simp only [Cursor.span, Cursor.behind, htake, hdrop]

theorem span_digits {digits : List Char} (h : ∀ c ∈ digits, c.isDigit = true) (offset : Nat) :
    (Cursor.mk offset digits).span Char.isDigit = (digits, ⟨offset + byteLength digits, []⟩) := by
  simpa using span_digits_append h (show ∀ c ∈ ([] : List Char).head?, c.isDigit = false from nofun) offset

/-- A number without a fraction and an exponent is an integer. -/
theorem scanNumber_int {first : Char} {digits : List Char} {n : Int64}
    (hdigits : ∀ c ∈ digits, c.isDigit = true)
    (hn : int64? (first == '-') (if first == '-' then digits else first :: digits) = some n)
    (start offset : Nat) : scanNumber start first ⟨offset, digits⟩ =
      { lexeme := some (.integer n), next := ⟨offset + byteLength digits, []⟩ } := by
  simp only [scanNumber, span_digits hdigits, scanFraction, scanExponent, List.isEmpty_nil,
    Option.isNone_none, Bool.and_self, reduceIte, hn]

theorem int64?_toInt (n : Int64) {negative : Bool} {digits : List Char}
    (h : (if negative then -(Decimal.ofDigits digits : Int) else Decimal.ofDigits digits) = n.toInt) :
    int64? negative digits = some n := by
  have hrange : Int64.minValue.toInt ≤ n.toInt ∧ n.toInt ≤ Int64.maxValue.toInt :=
    ⟨n.minValue_le_toInt, n.toInt_le⟩
  simp only [int64?, h, if_pos hrange, Int64.ofInt_toInt]

/-- Every integer is read back from its text. -/
theorem spells_int (n : Int64) : Spells (intText n).toList [.integer n] := by
  rw [intText, toList_toString_int]
  split
  · next hpos =>
    refine spells_unsigned (any_isDigit_toDigits _) fun first cs hdigits hminus start offset =>
      ⟨_, scanNumber_int (fun c hc => ?_) (int64?_toInt n ?_) start offset⟩
    · exact isDigit_of_mem_toDigits c (hdigits ▸ List.mem_cons_of_mem first hc)
    · rw [hminus, if_neg Bool.false_ne_true, if_neg Bool.false_ne_true, ← hdigits, ofDigits_toDigits]
      exact Int.toNat_of_nonneg hpos
  · next hneg =>
    refine spells_negative (any_isDigit_toDigits _) fun start offset =>
      ⟨_, scanNumber_int isDigit_of_mem_toDigits (int64?_toInt n ?_) start offset⟩
    simp only [beq_self_eq_true, reduceIte, ofDigits_toDigits]
    omega

/-- What is read from a text does not depend on its offset. -/
def Shifts {α : Type} (f : Cursor → α × Cursor) : Prop :=
  ∀ cs, ∃ a size rest, ∀ offset, f ⟨offset, cs⟩ = (a, ⟨offset + size, rest⟩)

theorem shifts_span (p : Char → Bool) : Shifts (Cursor.span · p) := fun cs =>
  ⟨cs.takeWhile p, byteLength (cs.takeWhile p), cs.dropWhile p, fun _ => rfl⟩

theorem shifts_scanFraction : Shifts scanFraction := by
  intro cs
  match cs with
  | [] => exact ⟨[], 0, [], fun _ => rfl⟩
  | c :: cs =>
    by_cases hc : c = '.'
    · subst hc
      cases hdigit : cs.head?.any Char.isDigit with
      | true =>
        refine ⟨cs.takeWhile Char.isDigit, byteLength ['.'] + byteLength (cs.takeWhile Char.isDigit),
          cs.dropWhile Char.isDigit, fun offset => ?_⟩
        simp only [scanFraction, hdigit, reduceIte, Cursor.span, Cursor.behind, Nat.add_assoc]
      | false => exact ⟨[], 0, '.' :: cs, fun _ => by simp [scanFraction, hdigit]⟩
    · exact ⟨[], 0, c :: cs, fun _ => by simp [scanFraction, hc]⟩

theorem shifts_takeSign : Shifts takeSign := by
  intro cs
  match cs with
  | [] => exact ⟨[], 0, [], fun _ => rfl⟩
  | c :: cs =>
    by_cases hminus : c = '-'
    · exact ⟨['-'], byteLength ['-'], cs, fun _ => by rw [hminus]; rfl⟩
    · by_cases hplus : c = '+'
      · exact ⟨['+'], byteLength ['+'], cs, fun _ => by rw [hplus]; rfl⟩
      · exact ⟨[], 0, c :: cs, fun _ => by simp [takeSign, hminus, hplus]⟩

theorem shifts_scanExponent : Shifts scanExponent := by
  intro cs
  match cs with
  | [] => exact ⟨none, 0, [], fun _ => rfl⟩
  | mark :: cs =>
    obtain ⟨sign, size, rest, hsign⟩ := shifts_takeSign cs
    obtain ⟨digits, size', rest', hdigits⟩ := shifts_span Char.isDigit rest
    cases hmark : (mark == 'e' || mark == 'E') && rest.head?.any Char.isDigit with
    | true =>
      refine ⟨some (if sign == ['-'] then -(Decimal.ofDigits digits : Int) else Decimal.ofDigits digits),
        byteLength [mark] + (size + size'), rest', fun offset => ?_⟩
      simp only [scanExponent, Cursor.behind, hsign, hmark, reduceIte, hdigits, Nat.add_assoc]
    | false =>
      refine ⟨none, 0, mark :: cs, fun offset => ?_⟩
      simp only [scanExponent, Cursor.behind, hsign, hmark, Bool.false_eq_true, reduceIte,
        Nat.add_zero]

/-- A float that is scanned from a text is scanned from it at every offset, without a fault. -/
theorem scanNumber_float {start₀ offset₀ : Nat} {first : Char} {cs : List Char} {x : Binary64}
    (hlexeme : (scanNumber start₀ first ⟨offset₀, cs⟩).lexeme = some (.float x))
    (hrest : (scanNumber start₀ first ⟨offset₀, cs⟩).next.rest = []) (start offset : Nat) :
    ∃ offset', scanNumber start first ⟨offset, cs⟩ =
      { lexeme := some (.float x), next := ⟨offset', []⟩ } := by
  obtain ⟨digits, size₁, rest₁, hdigits⟩ := shifts_span Char.isDigit cs
  obtain ⟨fraction, size₂, rest₂, hfraction⟩ := shifts_scanFraction rest₁
  obtain ⟨exponent, size₃, rest₃, hexponent⟩ := shifts_scanExponent rest₂
  simp only [scanNumber, hdigits, hfraction, hexponent] at hlexeme hrest ⊢
  split at hlexeme
  · split at hlexeme <;> cases hlexeme
  · next hfloat =>
    simp only [hfloat, Bool.false_eq_true, reduceIte] at hrest ⊢
    refine ⟨offset + size₁ + size₂ + size₃, ?_⟩
    rw [hrest, Option.some.inj hlexeme]

end Lexer

/-- Is the number read back from its text? -/
def Binary64.readsBack (x : Binary64) : Bool :=
  match x.text.toList with
  | [] => false
  | first :: cs =>
    let s := Lexer.scanNumber 0 first ⟨0, cs⟩
    Lexer.startsNumber first cs && s.lexeme == some (.float x) && s.next.rest.isEmpty

namespace Lexer

theorem spells_float {x : Binary64} (h : x.readsBack = true) : Spells x.text.toList [.float x] := by
  unfold Binary64.readsBack at h
  split at h
  · cases h
  · next first cs htext =>
    rw [Bool.and_eq_true, Bool.and_eq_true, beq_iff_eq, List.isEmpty_iff] at h
    obtain ⟨⟨hstart, hlexeme⟩, hrest⟩ := h
    rw [htext]
    exact spells_number hstart (scanNumber_float hlexeme hrest)

/-! ## Strings -/

/-- The characters of a string literal are read back up to the closing quote. -/
theorem scanString_quote (start offset : Nat) (cs rest : List Char) : ∃ offset',
    scanString start offset (cs.flatMap quoteChar ++ '"' :: rest) = ⟨cs, [], ⟨offset', rest⟩⟩ := by
  induction cs generalizing offset with
  | nil => exact ⟨offset + 1, rfl⟩
  | cons c cs ih =>
    rw [List.flatMap_cons, List.append_assoc]
    have hescape : ∀ e : Char, quoteChar c = ['\\', e] → unescape? e = some c →
        ∃ offset', scanString start offset (quoteChar c ++ (cs.flatMap quoteChar ++ '"' :: rest)) =
          ⟨c :: cs, [], ⟨offset', rest⟩⟩ := by
      intro e hquote hunescape
      obtain ⟨o', htail⟩ := ih (offset + 2)
      refine ⟨o', ?_⟩
      rw [hquote]
      simp only [List.cons_append, List.nil_append, scanString, hunescape, htail, StringScan.cons]
    by_cases hspecial : c ∈ ['"', '\\', '\n', '\t', '\r']
    · simp only [List.mem_cons, List.not_mem_nil, or_false] at hspecial
      rcases hspecial with rfl | rfl | rfl | rfl | rfl
      · exact hescape '"' rfl rfl
      · exact hescape '\\' rfl rfl
      · exact hescape 'n' rfl rfl
      · exact hescape 't' rfl rfl
      · exact hescape 'r' rfl rfl
    · simp only [List.mem_cons, List.not_mem_nil, or_false, not_or] at hspecial
      obtain ⟨o', htail⟩ := ih (offset + c.utf8Size)
      have hquote : quoteChar c = [c] := by simp [quoteChar, hspecial]
      refine ⟨o', ?_⟩
      rw [hquote, List.cons_append, List.nil_append, scanString, htail]
      · rfl
      · exact hspecial.1
      · exact fun h => absurd h hspecial.2.1
      · exact fun e rest h => absurd h hspecial.2.1

/-- Every string is read back from its literal. -/
theorem spells_quote (s : String) : Spells (quote s).toList [.str s] := by
  have htext : (quote s).toList = '"' :: (s.toList.flatMap quoteChar ++ ['"']) := by
    simp only [quote, String.toList_append, String.toList_ofList]
    rfl
  rw [htext]
  refine spells_of_scan rfl (by decide) fun start offset rest _ => ?_
  obtain ⟨o', hscan⟩ := scanString_quote start offset s.toList rest
  refine ⟨o', ?_⟩
  have hfirst : scan start '"' ⟨offset, s.toList.flatMap quoteChar ++ ['"'] ++ rest⟩ =
      (let t := scanString start offset (s.toList.flatMap quoteChar ++ ['"'] ++ rest)
       { lexeme := some (.str (String.ofList t.text)), faults := t.faults, next := t.next }) := rfl
  rw [hfirst, List.append_assoc, List.singleton_append, hscan]
  simp only [String.ofList_toList]

/-! ## The tokens of any source -/

theorem isWord_of_scan {start : Nat} {first : Char} {c : Cursor} {name : String}
    (h : (scan start first c).lexeme = some (.ident name)) : isWord name = true := by
  have hsymbol : ∀ {c : Char} {l : Lexeme}, symbol? c = some l → l ≠ .ident name := by
    intro c l hc
    unfold symbol? at hc
    split at hc <;> cases hc <;> exact Lexeme.noConfusion
  unfold scan at h
  split at h
  · next hfirst =>
    have hword : ∀ text : String, (Lexeme.keyword? text).getD (.ident text) = .ident name →
        text = name ∧ (Lexeme.keyword? text).isNone = true := by
      intro text htext
      unfold Lexeme.keyword? at htext ⊢
      split at htext <;> cases htext
      exact ⟨rfl, rfl⟩
    obtain ⟨htext, hkeyword⟩ := hword _ (Option.some.inj h)
    rw [htext] at hkeyword
    rw [isWord, Bool.and_eq_true]
    refine ⟨?_, hkeyword⟩
    have hchars : name.toList = first :: (c.rest.takeWhile isIdentRest ++
        (takeMark (c.span isIdentRest).2).1) := by
      rw [← htext, String.toList_ofList]
      rfl
    have hmark : (takeMark (c.span isIdentRest).2).1 ∈ [[], ['!']] := by
      unfold takeMark
      split <;> simp
    have hrest : (c.rest.takeWhile isIdentRest ++ (takeMark (c.span isIdentRest).2).1).dropWhile
        isIdentRest = (takeMark (c.span isIdentRest).2).1 := by
      rw [List.dropWhile_append_of_pos (fun x hx => List.mem_takeWhile_imp hx)]
      simp only [List.mem_cons, List.not_mem_nil, or_false] at hmark
      rcases hmark with hmark | hmark <;> rw [hmark] <;> decide
    unfold isName
    rw [hchars]
    simp only [hfirst, Bool.true_and, hrest, List.contains_eq_mem, decide_eq_true_eq]
    exact hmark
  · split at h
    · simp only [scanNumber] at h
      split at h
      · split at h <;> cases h
      · cases h
    · split at h
      · cases h
      · unfold scanSymbol at h
        split at h
        · cases h
        · cases h
        · split at h
          · next hl => exact absurd (Option.some.inj h) (hsymbol hl)
          · cases h

/-- All names are identifiers, and the end of file comes last. -/
theorem run_tokens (c : Cursor) : (∀ t ∈ (run c).tokens, ∀ name, t.lexeme = .ident name →
    isWord name = true) ∧ ∃ t, (run c).tokens.getLast? = some t ∧ t.lexeme = .eof := by
  fun_induction run c with
  | case1 c h offset =>
    refine ⟨fun t ht name hname => ?_, _, rfl, rfl⟩
    rw [List.mem_singleton.1 ht] at hname
    cases hname
  | case2 c first rest h start s later token ih =>
    obtain ⟨hwords, t, hlast, heof⟩ := ih
    refine ⟨fun u hu name hname => ?_, t, ?_, heof⟩
    · rcases List.mem_append.1 hu with hu | hu
      · obtain ⟨l, hl, rfl⟩ := Option.map_eq_some_iff.1 (Option.mem_toList.1 hu)
        exact isWord_of_scan (hl.trans (congrArg some hname))
      · exact hwords u hu name hname
    · rw [List.getLast?_append, hlast]
      rfl

end Lexer

end ExprTree
