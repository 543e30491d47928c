import ExprTree.Proofs.Tiling
import ExprTree.Proofs.ReportedSpans

/-!
# Spans in a source

`TextAt source span text` says which text stands at a span, and `Span.Within` that a span lies in the
source and cuts no character. The tokens of a source tile it (`tokens_tile_source`): their spans are
disjoint and in order, what lies between them is blank, a comment or reported, and each token is cut
as the same one when it stands alone. All spans of tokens and of reports, those of the parser
included, lie in the source, so offsets fit wherever its length does.
-/

namespace ExprTree

/-- The text stands at the span in the source. -/
def TextAt (source : String) (span : Span) (text : String) : Prop := ∃ before after : String,
  source = before ++ text ++ after ∧ span = ⟨before.utf8ByteSize, (before ++ text).utf8ByteSize⟩

/-- The span lies in the source and has both ends between characters. -/
structure Span.Within (source : String) (span : Span) : Prop where
  start_le_stop : span.start ≤ span.stop
  stop_le : span.stop ≤ source.utf8ByteSize
  start_valid : String.Pos.Raw.IsValid source ⟨span.start⟩
  stop_valid : String.Pos.Raw.IsValid source ⟨span.stop⟩

/-- The token stands somewhere in the source, and its text alone is cut as the same lexeme. -/
def Token.StandsIn (source : String) (t : Token) : Prop := ∃ text : String, TextAt source t.span text ∧
  (tokenize text).tokens =
    [⟨t.lexeme, ⟨0, text.utf8ByteSize⟩⟩, ⟨.eof, ⟨text.utf8ByteSize, text.utf8ByteSize⟩⟩]

/-- What a byte of a source belongs to: a token, a character that is reported, a blank, or a comment
that is not a part of a token. -/
def Accounted (source : String) (i : Nat) : Prop := ∃ span : Span, (span.start ≤ i ∧ i < span.stop) ∧
  ((∃ t ∈ (tokenize source).tokens, t.span = span) ∨
    (∃ x : Char, TextAt source span (String.singleton x) ∧
      Lexer.unexpected x span ∈ (tokenize source).faults) ∨
    (∃ x : Char, TextAt source span (String.singleton x) ∧ Lexer.isBlank x = true) ∨
    ∃ line : String, TextAt source span ("//" ++ line) ∧ '\n' ∉ line.toList ∧
      ∀ t ∈ (tokenize source).tokens, t.span.stop ≤ span.start ∨ span.stop ≤ t.span.start)

theorem TextAt.within {source text : String} {span : Span} (h : TextAt source span text) :
    span.Within source := by
  obtain ⟨before, after, rfl, rfl⟩ := h
  refine ⟨?_, ?_, ?_, ?_⟩
  · simp only [String.utf8ByteSize_append]
    omega
  · simp only [String.utf8ByteSize_append]
    omega
  · exact String.Pos.Raw.isValid_iff_exists_append.2 ⟨before, text ++ after, String.append_assoc, rfl⟩
  · exact String.Pos.Raw.isValid_iff_exists_append.2 ⟨before ++ text, after, rfl, rfl⟩

/-- The spans that lie in a source are closed under what readers do with spans. -/
theorem Span.spanProperty_within (source : String) : Parser.SpanProperty (Span.Within source) where
  origin := ⟨le_refl 0, Nat.zero_le _, String.Pos.Raw.isValid_zero, String.Pos.Raw.isValid_zero⟩
  join a b ha hb := by
    obtain ⟨hle, hstop, hstart_valid, hstop_valid⟩ := ha
    obtain ⟨hle', hstop', hstart_valid', hstop_valid'⟩ := hb
    refine ⟨?_, ?_, ?_, ?_⟩
    · simp only [Span.join]
      omega
    · simp only [Span.join]
      omega
    · rcases Nat.le_total a.start b.start with h | h
      · rwa [Span.join, Nat.min_eq_left h]
      · rwa [Span.join, Nat.min_eq_right h]
    · rcases Nat.le_total a.stop b.stop with h | h
      · rwa [Span.join, Nat.max_eq_right h]
      · rwa [Span.join, Nat.max_eq_left h]

namespace Lexer

theorem utf8ByteSize_ofList (cs : List Char) : (String.ofList cs).utf8ByteSize = byteLength cs := by
  induction cs with
  | nil => rfl
  | cons c cs ih =>
    rw [String.ofList_cons, String.utf8ByteSize_append, String.utf8ByteSize_singleton, ih]
    rfl

theorem byteLength_toList (s : String) : byteLength s.toList = s.utf8ByteSize := by
  rw [← utf8ByteSize_ofList, String.ofList_toList]

theorem Occurs.textAt {source : String} {span : Span} {text : List Char}
    (h : Occurs ⟨0, source.toList⟩ span text) : TextAt source span (String.ofList text) := by
  obtain ⟨before, after, hsource, rfl⟩ := h
  refine ⟨String.ofList before, String.ofList after, ?_, ?_⟩
  · rw [← String.ofList_append, ← String.ofList_append, List.append_assoc]
    exact (String.ofList_toList (s := source)).symm.trans (congrArg String.ofList hsource)
  · rw [String.utf8ByteSize_append, utf8ByteSize_ofList, utf8ByteSize_ofList]
    simp only [Nat.zero_add]

/-- A token of a source is not empty, and alone it is cut as the same lexeme. -/
theorem Standing.standsIn {source : String} {t : Token} {text : List Char}
    (h : Standing ⟨0, source.toList⟩ t text) : t.span.start < t.span.stop ∧ t.StandsIn source := by
  have hpos : 0 < byteLength text := by
    obtain ⟨c, cs, rfl⟩ := List.exists_cons_of_ne_nil h.ne_nil
    have := c.utf8Size_pos
    rw [byteLength_cons]
    omega
  refine ⟨?_, String.ofList text, h.occurs.textAt, ?_⟩
  · obtain ⟨before, after, -, hspan⟩ := h.occurs
    rw [hspan]
    exact Nat.lt_add_of_pos_right hpos
  · rw [tokenize, String.toList_ofList, utf8ByteSize_ofList]
    exact h.alone

theorem Covered.accounted {source : String} {i : Nat}
    (h : Covered ⟨0, source.toList⟩ (tokenize source) i) : Accounted source i := by
  obtain ⟨span, hspan, hkind⟩ := h
  refine ⟨span, hspan, ?_⟩
  rcases hkind with htoken | ⟨x, hx, hfault⟩ | ⟨x, hx, hblank⟩ | ⟨line, hline, hend, happart⟩
  · exact .inl htoken
  · exact .inr (.inl ⟨x, hx.textAt, hfault⟩)
  · exact .inr (.inr (.inl ⟨x, hx.textAt, hblank⟩))
  · refine .inr (.inr (.inr ⟨String.ofList line, ?_, ?_, happart⟩))
    · have htext : String.ofList (['/', '/'] ++ line) = "//" ++ String.ofList line := String.ofList_append
      rw [← htext]
      exact hline.textAt
    · rwa [String.toList_ofList]

end Lexer

theorem TextAt.empty_end (source : String) :
    TextAt source ⟨source.utf8ByteSize, source.utf8ByteSize⟩ "" := by
  refine ⟨source, "", ?_, ?_⟩
  · rw [String.append_empty, String.append_empty]
  · rw [String.append_empty]

/-- The tokens of a source tile it. The end of file comes last and nowhere else, the other tokens are
not empty, stand behind each other, and alone are cut as the same lexemes; no byte is left over; and
the spans of the tokens and of all reports of the lexer and the parser lie in the source. -/
theorem tokens_tile_source (source : String) :
    (∃ body : List Token, (tokenize source).tokens =
        body ++ [⟨.eof, ⟨source.utf8ByteSize, source.utf8ByteSize⟩⟩] ∧
      ∀ t ∈ body, t.lexeme ≠ .eof ∧ t.span.start < t.span.stop ∧ t.StandsIn source) ∧
    (tokenize source).tokens.Pairwise (fun t u => t.span.stop ≤ u.span.start) ∧
    (∀ i < source.utf8ByteSize, Accounted source i) ∧
    (∀ t ∈ (tokenize source).tokens, t.span.Within source) ∧
    (∀ d ∈ (tokenize source).faults, d.span.Within source) ∧
    ∀ (supply : Supply) (ds : List Diagnostic), parseTokens (tokenize source).tokens supply = .error ds →
      ∀ d ∈ ds, d.span.Within source := by
  have htiled : Lexer.Tiled ⟨0, source.toList⟩ (tokenize source) := Lexer.tiled_run _
  have hlength : 0 + Lexer.byteLength source.toList = source.utf8ByteSize := by
    rw [Nat.zero_add, Lexer.byteLength_toList]
  obtain ⟨body, htokens, hbody⟩ := htiled.ends
  rw [hlength] at htokens
  have hstands : ∀ t ∈ body, t.lexeme ≠ .eof ∧ t.span.start < t.span.stop ∧ t.StandsIn source := by
    intro t ht
    obtain ⟨text, hstanding⟩ := hbody t ht
    exact ⟨hstanding.ne_eof, hstanding.standsIn⟩
  have hwithin : ∀ t ∈ (tokenize source).tokens, t.span.Within source := by
    rw [htokens]
    refine List.forall_mem_append.2 ⟨fun t ht => ?_, fun t ht => ?_⟩
    · obtain ⟨-, -, text, htext, -⟩ := hstands t ht
      exact htext.within
    · rw [List.mem_singleton.1 ht]
      exact (TextAt.empty_end source).within
  refine ⟨⟨body, htokens, hstands⟩, htiled.pairwise, fun i hi => ?_, hwithin, fun d hd => ?_,
    fun supply ds hds => ?_⟩
  · exact (htiled.covered i (Nat.zero_le i) (hlength ▸ hi)).accounted
  · obtain ⟨part, hpart⟩ := htiled.reports d hd
    exact hpart.textAt.within
  · exact Parser.forall_reports_of_tokens (Span.spanProperty_within source) hwithin hds

-- a character of three bytes that starts no token, a comment, and a string that is cut off in an escape
example : (tokenize "→-1//é\n\"→\\").tokens.map (·.span) = [⟨3, 5⟩, ⟨10, 15⟩, ⟨15, 15⟩] ∧
    (tokenize "→-1//é\n\"→\\").faults.map (·.span) = [⟨0, 3⟩, ⟨14, 15⟩, ⟨10, 15⟩] := by
  decide +kernel

end ExprTree
