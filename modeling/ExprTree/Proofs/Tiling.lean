import ExprTree.Proofs.SingleTokens

/-!
# Tokens tile the text

A text is a row of pieces: blanks, comments, tokens, and characters that start no token (`Piece`).
`Tiled` says that a cut text is the row of pieces that the text consists of, each at its offset, and
the lexer cuts every text so (`tiled_run`). What holds of each piece then holds of the row: the tokens
stand behind each other, every byte belongs to a piece, and reports point into the text.
-/

namespace ExprTree

namespace Lexer

/-! ## Pieces -/

/-- The text is cut as one lexeme if it stands alone. -/
def CutsAlone (text : List Char) (lexeme : Lexeme) : Prop := (run ⟨0, text⟩).tokens =
  [⟨lexeme, ⟨0, byteLength text⟩⟩, ⟨.eof, ⟨byteLength text, byteLength text⟩⟩]

/-- A piece of a text at an offset, with its token and what is reported on it. -/
inductive Piece (offset : Nat) : List Char → List Token → List Diagnostic → Prop
  | blank {c : Char} (blank : isBlank c = true) : Piece offset [c] [] []
  | comment {text : List Char} (line : '\n' ∉ text) : Piece offset ('/' :: '/' :: text) [] []
  | token {text : List Char} {lexeme : Lexeme} {faults : List Diagnostic} (ne_nil : text ≠ [])
      (ne_eof : lexeme ≠ .eof) (alone : CutsAlone text lexeme)
      (reports : ∀ d ∈ faults, ∃ part, Occurs ⟨offset, text⟩ d.span part) :
      Piece offset text [⟨lexeme, ⟨offset, offset + byteLength text⟩⟩] faults
  | stray (c : Char) : Piece offset [c] [] [unexpected c ⟨offset, offset + byteLength [c]⟩]

/-- The text is a row of pieces, and what it is cut into are their tokens and the end of file. -/
inductive Tiled : Cursor → Lexed → Prop
  | done (offset : Nat) : Tiled ⟨offset, []⟩ ⟨[⟨.eof, ⟨offset, offset⟩⟩], []⟩
  | piece {offset : Nat} {text rest : List Char} {tokens : List Token} {faults : List Diagnostic} {l : Lexed}
      (first : Piece offset text tokens faults) (later : Tiled ⟨offset + byteLength text, rest⟩ l) :
      Tiled ⟨offset, text ++ rest⟩ ⟨tokens ++ l.tokens, faults ++ l.faults⟩

/-! ## The lexer tiles -/

theorem tiled_gap {c c' : Cursor} {l : Lexed} (hgap : gap? c = some c') (h : Tiled c' l) : Tiled c l := by
  obtain ⟨offset, cs⟩ := c
  unfold gap? at hgap
  split at hgap
  · next rest heq =>
    obtain rfl : cs = '/' :: '/' :: rest := heq
    obtain rfl := Option.some.inj hgap
    have hline : '\n' ∉ rest.takeWhile (· != '\n') := fun hmem => by
      simpa using List.mem_takeWhile_imp hmem
    have hrest : '/' :: '/' :: rest =
        ('/' :: '/' :: rest.takeWhile (· != '\n')) ++ rest.dropWhile (· != '\n') := by
      rw [List.cons_append, List.cons_append, List.takeWhile_append_dropWhile]
    change Tiled ⟨offset + byteLength ['/', '/'] + byteLength _, _⟩ l at h
    rw [Nat.add_assoc, ← byteLength_append] at h
    rw [hrest]
    exact .piece (.comment hline) h
  · next x rest _ heq =>
    obtain rfl : cs = [x] ++ rest := heq
    split at hgap
    · next hblank =>
      obtain rfl := Option.some.inj hgap
      exact .piece (.blank hblank) h
    · cases hgap
  · cases hgap

theorem tiled_of_skipBlanks {c : Cursor} {l : Lexed} (h : Tiled (skipBlanks c) l) : Tiled c l := by
  fun_induction skipBlanks c with
  | case1 c c' hgap ih => exact tiled_gap hgap (ih h)
  | case2 => exact h

/-- What starts a token is neither blank nor the start of a comment. -/
theorem not_blank_of_scan {start : Nat} {first : Char} {c : Cursor} {l : Lexeme}
    (h : (scan start first c).lexeme = some l) : isBlank first = false ∧ first ≠ '/' := by
  have hnone : first ∈ [' ', '\t', '\n', '\r', '\x0c', '/'] → (scan start first c).lexeme = none := by
    intro hfirst
    simp only [List.mem_cons, List.not_mem_nil, or_false] at hfirst
    rcases hfirst with rfl | rfl | rfl | rfl | rfl | rfl <;> rfl
  rw [← Bool.not_eq_true, ← not_or]
  intro hfirst
  rw [hnone (by simpa [isBlank, or_assoc] using hfirst)] at h
  cases h

/-- What a scan finds is a piece of the text. -/
theorem piece_of_found {start : Nat} {first : Char} {rest taken : List Char} {l : Lexeme}
    (h : Found (scan · first) start ⟨start + byteLength [first], rest⟩ taken l) :
    Piece start (first :: taken) [⟨l, ⟨start, start + byteLength (first :: taken)⟩⟩]
      (scan start first ⟨start + byteLength [first], rest⟩).faults := by
  obtain ⟨hblank, hslash⟩ := not_blank_of_scan h.lexeme
  refine .token (List.cons_ne_nil _ _) (fun heof => scan_ne_eof _ _ _ (heof ▸ h.lexeme)) ?_ fun d hd => ?_
  · obtain ⟨hlexeme, hnext⟩ := h.alone 0 (byteLength [first])
    rw [← byteLength_append] at hnext
    rw [CutsAlone, run_cons hblank hslash]
    simp only [Nat.zero_add, hlexeme, hnext, run_done]
    rfl
  · rcases h.faults d hd with hspan | hoccurs
    · rw [hspan, Nat.add_assoc, ← byteLength_append]
      exact ⟨first :: taken, by simpa using occurs_here start (first :: taken) []⟩
    · exact ⟨['\\'], hoccurs.later [first]⟩

/-- Every text is cut into the pieces that it consists of. -/
theorem tiled_run (c : Cursor) : Tiled c (run c) := by
  fun_induction run c with
  | case1 c hrest offset =>
    have hskip : skipBlanks c = ⟨offset, []⟩ := congrArg (Cursor.mk offset) hrest
    exact tiled_of_skipBlanks (hskip ▸ .done offset)
  | case2 c first rest hrest start s later token ih =>
    have hskip : skipBlanks c = ⟨start, first :: rest⟩ := congrArg (Cursor.mk start) hrest
    refine tiled_of_skipBlanks ?_
    rw [hskip]
    have hs : s = scan start first ⟨start + byteLength [first], rest⟩ := rfl
    rcases scan_cases start first ⟨start + byteLength [first], rest⟩ with hnone | ⟨taken, l, h⟩
    · rw [← hs] at hnone
      simp only [token, later, hnone] at ih ⊢
      exact .piece (.stray first) ih
    · have hlexeme : s.lexeme = some l := h.lexeme
      have hoffset : s.next.offset = start + byteLength (first :: taken) := by
        rw [hs, h.offset, Nat.add_assoc, ← byteLength_append]
        rfl
      have hrest : first :: rest = (first :: taken) ++ s.next.rest := congrArg (first :: ·) h.rest
      have hlater : Tiled ⟨start + byteLength (first :: taken), s.next.rest⟩ later := hoffset ▸ ih
      simp only [token, hlexeme, hoffset]
      rw [hrest]
      exact .piece (piece_of_found h) hlater

/-! ## What holds of the row -/

variable {c : Cursor} {l : Lexed}

theorem Piece.span_eq {offset : Nat} {text : List Char} {tokens : List Token} {faults : List Diagnostic}
    (h : Piece offset text tokens faults) : ∀ t ∈ tokens, t.span = ⟨offset, offset + byteLength text⟩ := by
  cases h with
  | token => exact fun t ht => by rw [List.mem_singleton.1 ht]
  | blank | comment | stray =>
    intro t ht
    cases ht

/-- The tokens from a place on start behind it. -/
theorem Tiled.offset_le (h : Tiled c l) : ∀ t ∈ l.tokens, c.offset ≤ t.span.start := by
  induction h with
  | done offset => exact fun t ht => by rw [List.mem_singleton.1 ht]
  | piece first _ ih =>
    refine List.forall_mem_append.2 ⟨fun t ht => ?_, fun t ht => Nat.le_trans ?_ (ih t ht)⟩
    · rw [first.span_eq t ht]
    · exact Nat.le_add_right _ _

/-- The tokens stand behind each other. -/
theorem Tiled.pairwise (h : Tiled c l) : l.tokens.Pairwise fun t u => t.span.stop ≤ u.span.start := by
  induction h with
  | done => exact List.pairwise_singleton _ _
  | piece first later ih =>
    refine List.pairwise_append.2 ⟨?_, ih, fun t ht u hu => ?_⟩
    · cases first with
      | token => exact List.pairwise_singleton _ _
      | blank | comment | stray => exact .nil
    · rw [first.span_eq t ht]
      exact later.offset_le u hu

/-- A token of a text: it is not empty, and stands alone for the same lexeme. -/
structure Standing (c : Cursor) (t : Token) (text : List Char) : Prop where
  ne_nil : text ≠ []
  ne_eof : t.lexeme ≠ .eof
  occurs : Occurs c t.span text
  alone : CutsAlone text t.lexeme

/-- Behind the tokens of the text comes the end of file, and nowhere else. -/
theorem Tiled.ends (h : Tiled c l) : ∃ body : List Token,
    l.tokens = body ++ [⟨.eof, ⟨c.offset + byteLength c.rest, c.offset + byteLength c.rest⟩⟩] ∧
    ∀ t ∈ body, ∃ text, Standing c t text := by
  induction h with
  | done offset => exact ⟨[], rfl, by simp⟩
  | @piece offset text rest tokens faults l first _ ih =>
    obtain ⟨body, htokens, hbody⟩ := ih
    refine ⟨tokens ++ body, ?_, List.forall_mem_append.2 ⟨fun t ht => ?_, fun t ht => ?_⟩⟩
    · simp only [htokens, byteLength_append, Nat.add_assoc, List.append_assoc]
    · cases first with
      | token ne_nil ne_eof alone =>
        obtain rfl := List.mem_singleton.1 ht
        exact ⟨text, ne_nil, ne_eof, occurs_here offset text rest, alone⟩
      | blank | comment | stray => cases ht
    · obtain ⟨part, hpart⟩ := hbody t ht
      exact ⟨part, hpart.ne_nil, hpart.ne_eof, hpart.occurs.later text, hpart.alone⟩

/-- What is reported is a part of the text. -/
theorem Tiled.reports (h : Tiled c l) : ∀ d ∈ l.faults, ∃ part, Occurs c d.span part := by
  induction h with
  | done =>
    intro d hd
    cases hd
  | @piece offset text rest tokens faults l first _ ih =>
    refine List.forall_mem_append.2 ⟨fun d hd => ?_, fun d hd => ?_⟩
    · cases first with
      | token _ _ _ reports => exact (reports d hd).imp fun part hpart => hpart.append rest
      | stray x =>
        rw [List.mem_singleton.1 hd]
        exact ⟨[x], occurs_here offset [x] rest⟩
      | blank | comment => cases hd
    · exact (ih d hd).imp fun part hpart => hpart.later text

/-- What a byte of a text belongs to: a token, a reported character, a blank, or a comment that is
not a part of a token. -/
def Covered (c : Cursor) (l : Lexed) (i : Nat) : Prop := ∃ span : Span, (span.start ≤ i ∧ i < span.stop) ∧
  ((∃ t ∈ l.tokens, t.span = span) ∨ (∃ x, Occurs c span [x] ∧ unexpected x span ∈ l.faults) ∨
    (∃ x, Occurs c span [x] ∧ isBlank x = true) ∨
    ∃ text, Occurs c span ('/' :: '/' :: text) ∧ '\n' ∉ text ∧
      ∀ t ∈ l.tokens, t.span.stop ≤ span.start ∨ span.stop ≤ t.span.start)

/-- Every byte belongs to something. -/
theorem Tiled.covered (h : Tiled c l) :
    ∀ i, c.offset ≤ i → i < c.offset + byteLength c.rest → Covered c l i := by
  induction h with
  | done =>
    intro i hle hlt
    exact absurd hlt (Nat.not_lt.2 hle)
  | @piece offset text rest tokens faults l first later ih =>
    intro i hle hlt
    by_cases hi : i < offset + byteLength text
    · refine ⟨⟨offset, offset + byteLength text⟩, ⟨hle, hi⟩, ?_⟩
      cases first with
      | token => exact .inl ⟨_, List.mem_cons_self, rfl⟩
      | stray x => exact .inr (.inl ⟨x, occurs_here offset [x] rest, List.mem_cons_self⟩)
      | @blank x hblank => exact .inr (.inr (.inl ⟨x, occurs_here offset [x] rest, hblank⟩))
      | @comment text hline =>
        exact .inr (.inr (.inr
          ⟨text, occurs_here offset _ rest, hline, fun t ht => .inr (later.offset_le t ht)⟩))
    · rw [byteLength_append, ← Nat.add_assoc] at hlt
      obtain ⟨span, hspan, hkind⟩ := ih i (Nat.not_lt.1 hi) hlt
      refine ⟨span, hspan, ?_⟩
      rcases hkind with ⟨t, ht, heq⟩ | ⟨x, hx, hfault⟩ | ⟨x, hx, hblank⟩ | ⟨part, hpart, hline, happart⟩
      · exact .inl ⟨t, List.mem_append_right _ ht, heq⟩
      · exact .inr (.inl ⟨x, hx.later text, List.mem_append_right _ hfault⟩)
      · exact .inr (.inr (.inl ⟨x, hx.later text, hblank⟩))
      · refine .inr (.inr (.inr ⟨part, hpart.later text, hline, ?_⟩))
        refine List.forall_mem_append.2 ⟨fun t ht => .inl ?_, happart⟩
        rw [first.span_eq t ht]
        exact hpart.offset_le

end Lexer

end ExprTree
