import ExprTree.Proofs.Spelling

/-!
# The characters of a token

A reader is `Stable` if it takes the same characters when less follows them, wherever they stand.
Readers in a row are stable (`Stable.bind`), and so are those that look ahead for a fixed form
(`stable_of_form`).

A token is cut by stable readers, or, if it is a string, up to its own end. So a scan that finds a
lexeme in some characters finds it in them alone (`Found`), and a scan that finds none reports the
character it stands at (`scan_cases`).
-/

namespace ExprTree

namespace Lexer

/-! ## Bytes -/

theorem byteLength_append (cs ds : List Char) : byteLength (cs ++ ds) = byteLength cs + byteLength ds := by
  induction cs with
  | nil => exact (Nat.zero_add _).symm
  | cons c cs ih =>
    calc byteLength (c :: cs ++ ds) = c.utf8Size + byteLength (cs ++ ds) := rfl
      _ = c.utf8Size + byteLength cs + byteLength ds := by rw [ih, Nat.add_assoc]

theorem byteLength_cons (c : Char) (cs : List Char) : byteLength (c :: cs) = c.utf8Size + byteLength cs := rfl

theorem byteLength_singleton (c : Char) : byteLength [c] = c.utf8Size := rfl

/-! ## Stable readers -/

section Stable

variable {α β : Type} {f : Cursor → α × Cursor}

/-- The reader takes these characters, and takes them again wherever they stand before less of what
follows. -/
def Reads (f : Cursor → α × Cursor) (c : Cursor) (taken : List Char) : Prop :=
  c.rest = taken ++ (f c).2.rest ∧ ∀ offset rest, rest <+: (f c).2.rest →
    f ⟨offset, taken ++ rest⟩ = ((f c).1, ⟨offset + byteLength taken, rest⟩)

/-- What the reader takes does not depend on how much follows it. -/
def Stable (f : Cursor → α × Cursor) : Prop := ∀ c, ∃ taken, Reads f c taken

theorem Reads.eq {c : Cursor} {taken : List Char} (h : Reads f c taken) :
    f c = ((f c).1, ⟨c.offset + byteLength taken, (f c).2.rest⟩) := by
  have hself := h.2 c.offset (f c).2.rest (List.prefix_refl _)
  rwa [← h.1] at hself

theorem Reads.offset {c : Cursor} {taken : List Char} (h : Reads f c taken) :
    (f c).2.offset = c.offset + byteLength taken := by
  rw [h.eq]

theorem Stable.bind {g : α → Cursor → β × Cursor} (hf : Stable f) (hg : ∀ a, Stable (g a)) :
    Stable fun c => g (f c).1 (f c).2 := by
  intro c
  obtain ⟨taken, hrest, hagain⟩ := hf c
  obtain ⟨taken', hrest', hagain'⟩ := hg (f c).1 (f c).2
  refine ⟨taken ++ taken', ?_, fun offset rest hprefix => ?_⟩
  · rw [List.append_assoc, ← hrest', ← hrest]
  · have hbefore : taken' ++ rest <+: (f c).2.rest := by
      rw [hrest', List.prefix_append_right_inj]
      exact hprefix
    simp only [List.append_assoc, hagain offset _ hbefore, hagain' _ _ hprefix, byteLength_append,
      Nat.add_assoc]

theorem Reads.map {c : Cursor} {taken : List Char} (h : Reads f c taken) (g : α → β) :
    Reads (fun c => (g (f c).1, (f c).2)) c taken :=
  ⟨h.1, fun offset rest hprefix => by simp only [h.2 offset rest hprefix]⟩

theorem Stable.map (hf : Stable f) (g : α → β) : Stable fun c => (g (f c).1, (f c).2) :=
  fun c => (hf c).imp fun _ h => h.map g

theorem reads_span (p : Char → Bool) (c : Cursor) : Reads (Cursor.span · p) c (c.rest.takeWhile p) := by
  refine ⟨List.takeWhile_append_dropWhile.symm, fun offset rest hprefix => ?_⟩
  have hedge : ∀ x ∈ rest.head?, p x = false := by
    intro x hx
    obtain ⟨rest', hrest'⟩ := hprefix
    obtain ⟨tail, rfl⟩ := List.head?_eq_some_iff.1 hx
    have hhead := List.head?_dropWhile_not p c.rest
    rw [show c.rest.dropWhile p = x :: tail ++ rest' from hrest'.symm] at hhead
    simpa using hhead
  have hall : ∀ x ∈ c.rest.takeWhile p, p x = true := fun x hx => List.mem_takeWhile_imp hx
  obtain ⟨htake, hdrop⟩ := takeWhile_append_edge (c.rest.takeWhile p) hedge
  rw [List.takeWhile_eq_self_iff.2 hall] at htake
  rw [List.dropWhile_eq_nil_iff.2 hall, List.nil_append] at hdrop
  simp only [Cursor.span, Cursor.behind, htake, hdrop]

theorem stable_span (p : Char → Bool) : Stable (Cursor.span · p) := fun c => ⟨_, reads_span p c⟩

/-- A reader that goes on as another one does behind some characters. -/
theorem Reads.behind {g : Cursor → α × Cursor} {G : List Char → Prop} {offset : Nat}
    {before cs taken : List Char}
    (h : ∀ offset cs, G cs → f ⟨offset, before ++ cs⟩ = g ⟨offset + byteLength before, cs⟩)
    (hform : ∀ rest, G (taken ++ rest)) (hg : Reads g ⟨offset + byteLength before, cs⟩ taken) :
    Reads f ⟨offset, before ++ cs⟩ (before ++ taken) := by
  have hcs : cs = taken ++ (g ⟨offset + byteLength before, cs⟩).2.rest := hg.1
  have hf : f ⟨offset, before ++ cs⟩ = g ⟨offset + byteLength before, cs⟩ :=
    h offset cs (by rw [hcs]; exact hform _)
  refine ⟨?_, fun offset' rest hprefix => ?_⟩
  · rw [hf, List.append_assoc, ← hcs]
  · rw [hf] at hprefix ⊢
    rw [List.append_assoc, h offset' _ (hform rest), hg.2 _ _ hprefix, byteLength_append, Nat.add_assoc]

/-- A reader that takes something only from texts of some form, which more characters behind do not
change. -/
theorem stable_of_form {F : List Char → Prop} {a : α} (hmore : ∀ cs more, F cs → F (cs ++ more))
    (htake : ∀ c : Cursor, F c.rest → ∃ taken, Reads f c taken)
    (hnone : ∀ c : Cursor, ¬ F c.rest → f c = (a, c)) : Stable f := by
  intro c
  by_cases hform : F c.rest
  · exact htake c hform
  · refine ⟨[], ?_, fun offset rest hprefix => ?_⟩
    · rw [hnone c hform, List.nil_append]
    · rw [hnone c hform] at hprefix ⊢
      obtain ⟨more, hmore'⟩ := hprefix
      have hshort : ¬ F rest := fun h => hform (hmore' ▸ hmore rest more h)
      exact hnone ⟨offset, rest⟩ hshort

theorem stable_takeMark : Stable takeMark := by
  refine stable_of_form (F := fun cs => ∃ rest, cs = '!' :: rest) (a := []) ?_ ?_ ?_
  · rintro _ more ⟨rest, rfl⟩
    exact ⟨rest ++ more, rfl⟩
  · rintro ⟨offset, cs⟩ ⟨rest, hcs⟩
    obtain rfl : cs = '!' :: rest := hcs
    exact ⟨['!'], rfl, fun _ _ _ => rfl⟩
  · rintro ⟨offset, cs⟩ hnot
    unfold takeMark
    split
    · next rest heq => exact absurd ⟨rest, heq⟩ hnot
    · rfl

theorem exists_digit_of_any {cs : List Char} (h : cs.head?.any Char.isDigit = true) :
    ∃ d rest, cs = d :: rest ∧ d.isDigit = true := by
  cases cs with
  | nil => cases h
  | cons d rest => exact ⟨d, rest, rfl, h⟩

/-- The digits at the start of a text do not depend on what follows them. -/
theorem any_isDigit_takeWhile {d : Char} (hd : d.isDigit = true) (cs rest : List Char) :
    ((d :: cs).takeWhile Char.isDigit ++ rest).head?.any Char.isDigit = true := by
  rw [List.takeWhile_cons_of_pos hd]
  exact hd

theorem stable_scanFraction : Stable scanFraction := by
  refine stable_of_form (F := fun cs => ∃ d rest, cs = '.' :: d :: rest ∧ d.isDigit = true) (a := []) ?_ ?_ ?_
  · rintro _ more ⟨d, rest, rfl, hd⟩
    exact ⟨d, rest ++ more, rfl, hd⟩
  · rintro ⟨offset, cs⟩ ⟨d, rest, hcs, hd⟩
    obtain rfl : cs = ['.'] ++ d :: rest := hcs
    refine ⟨_, Reads.behind (G := fun cs => cs.head?.any Char.isDigit = true) ?_
      (any_isDigit_takeWhile hd rest) (reads_span Char.isDigit _)⟩
    intro offset cs hdigit
    exact if_pos hdigit
  · rintro ⟨offset, cs⟩ hnot
    unfold scanFraction
    split
    · next rest heq =>
      obtain rfl : cs = '.' :: rest := heq
      refine if_neg fun hdigit => hnot ?_
      obtain ⟨d, rest, rfl, hd⟩ := exists_digit_of_any hdigit
      exact ⟨d, rest, rfl, hd⟩
    · rfl

/-- A sign or none. -/
def isSign (cs : List Char) : Prop := cs = [] ∨ cs = ['-'] ∨ cs = ['+']

theorem takeSign_cases (offset : Nat) (cs : List Char) : ∃ sign rest, cs = sign ++ rest ∧ isSign sign ∧
    takeSign ⟨offset, cs⟩ = (sign, ⟨offset + byteLength sign, rest⟩) := by
  unfold takeSign
  split
  · next rest heq => exact ⟨['-'], rest, heq, .inr (.inl rfl), rfl⟩
  · next rest heq => exact ⟨['+'], rest, heq, .inr (.inr rfl), rfl⟩
  · exact ⟨[], cs, rfl, .inl rfl, rfl⟩

theorem takeSign_append {sign cs : List Char} (hsign : isSign sign) (hdigit : cs.head?.any Char.isDigit = true)
    (offset : Nat) : takeSign ⟨offset, sign ++ cs⟩ = (sign, ⟨offset + byteLength sign, cs⟩) := by
  rcases hsign with rfl | rfl | rfl
  · -- a digit is no sign
    obtain ⟨d, rest, rfl, hd⟩ := exists_digit_of_any hdigit
    unfold takeSign
    split
    · next heq => cases heq; cases hd
    · next heq => cases heq; cases hd
    · rfl
  · rfl
  · rfl

/-- The form of an exponent: a mark, perhaps a sign, and a digit. -/
def StartsExponent (cs : List Char) : Prop := ∃ mark sign d rest,
  cs = (mark :: sign) ++ d :: rest ∧ (mark == 'e' || mark == 'E') = true ∧ isSign sign ∧ d.isDigit = true

theorem stable_scanExponent : Stable scanExponent := by
  refine stable_of_form (F := StartsExponent) (a := none) ?_ ?_ ?_
  · rintro _ more ⟨mark, sign, d, rest, rfl, hmark, hsign, hd⟩
    exact ⟨mark, sign, d, rest ++ more, List.append_assoc _ _ _, hmark, hsign, hd⟩
  · rintro ⟨offset, cs⟩ ⟨mark, sign, d, rest, hcs, hmark, hsign, hd⟩
    obtain rfl : cs = (mark :: sign) ++ d :: rest := hcs
    refine ⟨_, Reads.behind (G := fun cs => cs.head?.any Char.isDigit = true) ?_
      (any_isDigit_takeWhile hd rest) ((reads_span Char.isDigit _).map fun digits =>
        let n : Int := Decimal.ofDigits digits
        some (if sign == ['-'] then -n else n))⟩
    intro offset cs hdigit
    have hsigned := takeSign_append hsign hdigit (offset + byteLength [mark])
    have hlength : offset + byteLength (mark :: sign) = offset + byteLength [mark] + byteLength sign :=
      (Nat.add_assoc _ _ _).symm
    rw [hlength]
    simp only [scanExponent, List.cons_append, Cursor.behind, hsigned, hmark, hdigit, Bool.and_self, reduceIte]
  · rintro ⟨offset, cs⟩ hnot
    unfold scanExponent
    split
    · rfl
    · next mark rest heq =>
      obtain rfl : cs = mark :: rest := heq
      obtain ⟨sign, rest, rfl, hsign, hsigned⟩ := takeSign_cases (offset + byteLength [mark]) rest
      simp only [Cursor.behind, hsigned]
      refine if_neg fun hexponent => hnot ?_
      rw [Bool.and_eq_true] at hexponent
      obtain ⟨d, rest, rfl, hd⟩ := exists_digit_of_any hexponent.2
      exact ⟨mark, sign, d, rest, rfl, hexponent.1, hsign, hd⟩

end Stable

/-! ## Texts at a place -/

/-- The text stands at the span, somewhere behind the cursor. -/
def Occurs (c : Cursor) (span : Span) (text : List Char) : Prop :=
  ∃ before after, c.rest = before ++ (text ++ after) ∧
    span = ⟨c.offset + byteLength before, c.offset + byteLength before + byteLength text⟩

section Occurs

variable {offset : Nat} {cs rest text : List Char} {span : Span}

theorem occurs_here (offset : Nat) (text rest : List Char) :
    Occurs ⟨offset, text ++ rest⟩ ⟨offset, offset + byteLength text⟩ text :=
  ⟨[], rest, rfl, rfl⟩

theorem Occurs.later (taken : List Char) (h : Occurs ⟨offset + byteLength taken, rest⟩ span text) :
    Occurs ⟨offset, taken ++ rest⟩ span text := by
  obtain ⟨before, after, hrest, rfl⟩ := h
  refine ⟨taken ++ before, after, ?_, by rw [byteLength_append, Nat.add_assoc offset]⟩
  rw [List.append_assoc]
  exact congrArg (taken ++ ·) hrest

theorem Occurs.append (h : Occurs ⟨offset, cs⟩ span text) (more : List Char) :
    Occurs ⟨offset, cs ++ more⟩ span text := by
  obtain ⟨before, after, hrest, hspan⟩ := h
  refine ⟨before, after ++ more, ?_, hspan⟩
  rw [← List.append_assoc text, ← List.append_assoc before]
  exact congrArg (· ++ more) hrest

theorem Occurs.offset_le {c : Cursor} (h : Occurs c span text) : c.offset ≤ span.start := by
  obtain ⟨before, after, -, rfl⟩ := h
  exact Nat.le_add_right _ _

end Occurs

/-! ## One token -/

/-- The scan finds a lexeme in the characters `taken`, and finds it there alone. What it reports, it
reports on the token or on a backslash in it. -/
structure Found (f : Nat → Cursor → Scan) (start : Nat) (c : Cursor) (taken : List Char) (l : Lexeme) :
    Prop where
  lexeme : (f start c).lexeme = some l
  rest : c.rest = taken ++ (f start c).next.rest
  offset : (f start c).next.offset = c.offset + byteLength taken
  alone : ∀ start offset, (f start ⟨offset, taken⟩).lexeme = some l ∧
    (f start ⟨offset, taken⟩).next = ⟨offset + byteLength taken, []⟩
  faults : ∀ d ∈ (f start c).faults, d.span = ⟨start, c.offset + byteLength taken⟩ ∨
    Occurs ⟨c.offset, taken⟩ d.span ['\\']

section Found

variable {f g : Nat → Cursor → Scan} {start : Nat} {c : Cursor} {taken : List Char} {l : Lexeme}

theorem Found.congr (h : Found f start c taken l) (hhere : g start c = f start c)
    (halone : ∀ start offset, g start ⟨offset, taken⟩ = f start ⟨offset, taken⟩) :
    Found g start c taken l where
  lexeme := hhere ▸ h.lexeme
  rest := hhere ▸ h.rest
  offset := hhere ▸ h.offset
  alone start offset := halone start offset ▸ h.alone start offset
  faults := hhere ▸ h.faults

/-- A scan that depends on what a stable reader reads. -/
theorem found_of_reads {α : Type} {parts : Cursor → α × Cursor} (lexeme : α → Lexeme)
    (hparts : Reads parts c taken)
    (h : ∀ start c, (f start c).lexeme = some (lexeme (parts c).1) ∧ (f start c).next = (parts c).2 ∧
      ∀ d ∈ (f start c).faults, d.span = ⟨start, (parts c).2.offset⟩) :
    Found f start c taken (lexeme (parts c).1) := by
  obtain ⟨hlexeme, hnext, hfaults⟩ := h start c
  refine ⟨hlexeme, hnext ▸ hparts.1, hnext ▸ hparts.offset, fun start' offset => ?_, fun d hd => .inl ?_⟩
  · obtain ⟨hlexeme', hnext', -⟩ := h start' ⟨offset, taken⟩
    have hagain := hparts.2 offset [] List.nil_prefix
    rw [List.append_nil] at hagain
    rw [hlexeme', hnext', hagain]
    exact ⟨rfl, rfl⟩
  · rw [hfaults d hd, hparts.offset]

end Found

/-- The characters of a word behind the first. -/
def wordParts (c : Cursor) : List Char × Cursor :=
  let word := c.span isIdentRest
  let mark := takeMark word.2
  (word.1 ++ mark.1, mark.2)

theorem stable_wordParts : Stable wordParts :=
  (stable_span isIdentRest).bind fun word => stable_takeMark.map (word ++ ·)

theorem found_word (start : Nat) (first : Char) (c : Cursor) :
    ∃ taken l, Found (fun _ c => scanWord first c) start c taken l := by
  obtain ⟨taken, htaken⟩ := stable_wordParts c
  refine ⟨taken, _, found_of_reads (fun word =>
    (Lexeme.keyword? (String.ofList (first :: word))).getD (.ident (String.ofList (first :: word))))
    htaken fun start c => ⟨rfl, rfl, by simp [scanWord]⟩⟩

/-- The digits, the fraction and the exponent of a number. -/
def numberParts (c : Cursor) : (List Char × List Char × Option Int) × Cursor :=
  let digits := c.span Char.isDigit
  let fraction := scanFraction digits.2
  let exponent := scanExponent fraction.2
  ((digits.1, fraction.1, exponent.1), exponent.2)

theorem stable_numberParts : Stable numberParts :=
  (stable_span Char.isDigit).bind fun digits => stable_scanFraction.bind fun fraction =>
    stable_scanExponent.map fun exponent => (digits, fraction, exponent)

/-- The number that the parts of a literal denote; an integer that is too large is read as zero. -/
def numberLexeme (first : Char) (parts : List Char × List Char × Option Int) : Lexeme :=
  let negative := first == '-'
  let whole := if negative then parts.1 else first :: parts.1
  if parts.2.1.isEmpty && parts.2.2.isNone then .integer ((int64? negative whole).getD 0)
  else .float (.ofDecimal negative (Decimal.ofParts whole parts.2.1 (parts.2.2.getD 0)))

theorem scanNumber_parts (start : Nat) (first : Char) (c : Cursor) :
    (scanNumber start first c).lexeme = some (numberLexeme first (numberParts c).1) ∧
    (scanNumber start first c).next = (numberParts c).2 ∧
    ∀ d ∈ (scanNumber start first c).faults, d.span = ⟨start, (numberParts c).2.offset⟩ := by
  unfold scanNumber
  dsimp only
  split
  · next hinteger =>
    split
    · next n hn =>
      refine ⟨congrArg some ?_, rfl, by simp⟩
      exact ((if_pos hinteger).trans (congrArg (fun n => Lexeme.integer (Option.getD n 0)) hn)).symm
    · next hn =>
      refine ⟨congrArg some ?_, rfl, fun d hd => by rw [List.mem_singleton.1 hd]; rfl⟩
      exact ((if_pos hinteger).trans (congrArg (fun n => Lexeme.integer (Option.getD n 0)) hn)).symm
  · next hfloat => exact ⟨congrArg some (if_neg hfloat).symm, rfl, by simp⟩

/-- A minus sign that starts a number is followed by a digit of it. -/
theorem startsNumber_taken {first : Char} {c : Cursor} {taken : List Char}
    (h : startsNumber first c.rest = true) (htaken : Reads numberParts c taken) :
    startsNumber first taken = true := by
  rw [startsNumber, Bool.or_eq_true, Bool.and_eq_true] at h ⊢
  refine h.imp_right fun h => ⟨h.1, ?_⟩
  have hdigit := h.2
  have hhead : c.rest.head? = (taken ++ (numberParts c).2.rest).head? := by rw [← htaken.1]
  cases taken with
  | cons d taken =>
    rw [hhead] at hdigit
    exact hdigit
  | nil =>
    -- nothing taken: then there are no digits
    have hnone := htaken.2 0 [] List.nil_prefix
    have hdigits : c.rest.takeWhile Char.isDigit = [] := (congrArg (·.1.1) hnone).symm
    obtain ⟨d, rest, hrest, hd⟩ := exists_digit_of_any hdigit
    rw [hrest, List.takeWhile_cons_of_pos hd] at hdigits
    cases hdigits

theorem found_number {first : Char} {c : Cursor} (h : startsNumber first c.rest = true) (start : Nat) :
    ∃ taken l, Found (scan · first) start c taken l := by
  obtain ⟨taken, htaken⟩ := stable_numberParts c
  exact ⟨taken, _, (found_of_reads _ htaken fun start c => scanNumber_parts start first c).congr
    (scan_number h start c.offset) fun start offset => scan_number (startsNumber_taken h htaken) start offset⟩

theorem utf8Size_of_unescape {e c : Char} (h : unescape? e = some c) : e.utf8Size = 1 := by
  unfold unescape? at h
  split at h <;> first | rfl | cases h

/-- What the reader of strings takes, and takes again alone. It reports on the string that starts at
`start` or on a backslash. -/
structure StringTakes (start offset : Nat) (cs taken : List Char) : Prop where
  rest : cs = taken ++ (scanString start offset cs).next.rest
  ne_nil : cs ≠ [] → taken ≠ []
  stop : (scanString start offset cs).next.offset = offset + byteLength taken
  alone : ∀ start' offset', (scanString start' offset' taken).text = (scanString start offset cs).text ∧
    (scanString start' offset' taken).next = ⟨offset' + byteLength taken, []⟩
  faults : ∀ d ∈ (scanString start offset cs).faults, d.span = ⟨start, offset + byteLength taken⟩ ∨
    Occurs ⟨offset, taken⟩ d.span ['\\']

/-- The first characters of a string change its text in some way, and may be an unknown escape. -/
theorem StringTakes.behind {start offset : Nat} {cs taken : List Char} (before : List Char)
    (edit : List Char → List Char)
    (h : StringTakes start (offset + byteLength before) cs taken) (hbefore : before ≠ [])
    (hstep : ∀ ds, ds = cs ∨ ds = taken → ∀ start offset,
      let s := scanString start offset (before ++ ds)
      let s' := scanString start (offset + byteLength before) ds
      s.next = s'.next ∧ s.text = edit s'.text ∧
        ∀ d ∈ s.faults, before = ['\\'] ∧ d = unknownEscape offset ∨ d ∈ s'.faults) :
    StringTakes start offset (before ++ cs) (before ++ taken) := by
  obtain ⟨hnext, htext, hfaults⟩ := hstep cs (.inl rfl) start offset
  refine ⟨?_, fun _ => List.append_ne_nil_of_left_ne_nil hbefore _, ?_, fun start' offset' => ?_,
    fun d hd => ?_⟩
  · rw [hnext, List.append_assoc, ← h.rest]
  · rw [hnext, h.stop, byteLength_append, Nat.add_assoc]
  · obtain ⟨hnext', htext', -⟩ := hstep taken (.inr rfl) start' offset'
    obtain ⟨htext'', hnext''⟩ := h.alone start' (offset' + byteLength before)
    rw [htext', htext'', htext, hnext', hnext'', byteLength_append, Nat.add_assoc]
    exact ⟨rfl, rfl⟩
  · rw [byteLength_append, ← Nat.add_assoc]
    rcases hfaults d hd with ⟨rfl, rfl⟩ | hd
    · exact .inr (occurs_here offset ['\\'] taken)
    · exact (h.faults d hd).imp_right fun hoccurs => hoccurs.later before

theorem scanString_takes (start offset : Nat) (cs : List Char) :
    ∃ taken, StringTakes start offset cs taken := by
  fun_induction scanString start offset cs with
  | case1 offset =>
    exact ⟨[], rfl, fun h => absurd rfl h, rfl, fun _ _ => ⟨rfl, rfl⟩, fun d hd =>
      .inl (by rw [List.mem_singleton.1 hd]; rfl)⟩
  | case2 offset rest =>
    exact ⟨['"'], rfl, fun _ => List.cons_ne_nil _ _, rfl, fun _ _ => ⟨rfl, rfl⟩, fun d hd => by cases hd⟩
  | case3 offset =>
    refine ⟨['\\'], rfl, fun _ => List.cons_ne_nil _ _, rfl, fun _ _ => ⟨rfl, rfl⟩, fun d hd => ?_⟩
    rcases List.mem_cons.1 hd with rfl | hd
    · exact .inr (occurs_here offset ['\\'] [])
    · rw [List.mem_singleton.1 hd]
      exact .inl rfl
  | case4 offset e rest c hc ih =>
    obtain ⟨taken, ih⟩ := ih
    have hlength : byteLength ['\\', e] = 2 := by
      rw [byteLength_cons, byteLength_singleton, utf8Size_of_unescape hc]
      rfl
    rw [← hlength] at ih
    refine ⟨['\\', e] ++ taken, ih.behind ['\\', e] (c :: ·) (List.cons_ne_nil _ _) ?_⟩
    intro ds _ start offset
    simp only [List.cons_append, List.nil_append, scanString, hc, hlength]
    exact ⟨rfl, rfl, fun d hd => .inr hd⟩
  | case5 offset e rest hc s ih =>
    obtain ⟨taken, ih⟩ := ih
    refine ⟨['\\'] ++ taken, ih.behind ['\\'] id (List.cons_ne_nil _ _) ?_⟩
    intro ds hds start offset
    obtain ⟨ds, rfl⟩ : ∃ ds', ds = e :: ds' := by
      rcases hds with rfl | rfl
      · exact ⟨rest, rfl⟩
      · obtain ⟨d, ds', rfl⟩ := List.exists_cons_of_ne_nil (ih.ne_nil (List.cons_ne_nil _ _))
        exact ⟨ds', congrArg (· :: ds') (List.cons.inj ih.rest).1.symm⟩
    simp only [List.cons_append, List.nil_append, scanString, hc]
    exact ⟨rfl, rfl, fun d hd => (List.mem_cons.1 hd).imp_left fun h => ⟨trivial, h⟩⟩
  | case6 offset c rest hquote hlast hescape ih =>
    obtain ⟨taken, ih⟩ := ih
    have hbackslash : c ≠ '\\' := by
      intro hc
      cases rest with
      | nil => exact hlast hc rfl
      | cons e rest => exact hescape e rest hc rfl
    refine ⟨[c] ++ taken, ih.behind [c] (c :: ·) (List.cons_ne_nil _ _) ?_⟩
    intro ds _ start offset
    have hstep : scanString start offset (c :: ds) = (scanString start (offset + c.utf8Size) ds).cons c :=
      scanString.eq_5 start offset c ds hquote (fun hc => absurd hc hbackslash)
        fun _ _ hc => absurd hc hbackslash
    rw [List.singleton_append, hstep]
    exact ⟨rfl, rfl, fun d hd => .inr hd⟩

theorem found_string (start : Nat) (c : Cursor) : ∃ taken l, Found (scan · '"') start c taken l := by
  obtain ⟨taken, h⟩ := scanString_takes start c.offset c.rest
  refine ⟨taken, .str (String.ofList (scanString start c.offset c.rest).text), rfl, h.rest, h.stop,
    fun start' offset' => ?_, h.faults⟩
  obtain ⟨htext, hnext⟩ := h.alone start' offset'
  exact ⟨congrArg (fun text => some (Lexeme.str (String.ofList text))) htext, hnext⟩

/-- A scan without reports, of characters that stand alone as well. -/
theorem found_of_eq {f : Nat → Cursor → Scan} {start offset : Nat} (taken rest : List Char) {l : Lexeme}
    (hhere : f start ⟨offset, taken ++ rest⟩ =
      { lexeme := some l, next := ⟨offset + byteLength taken, rest⟩ })
    (halone : ∀ start offset, f start ⟨offset, taken⟩ =
      { lexeme := some l, next := ⟨offset + byteLength taken, []⟩ }) :
    Found f start ⟨offset, taken ++ rest⟩ taken l := by
  refine ⟨by rw [hhere], by rw [hhere], by rw [hhere], fun start' offset' => ?_, fun d hd => ?_⟩
  · rw [halone]
    exact ⟨rfl, rfl⟩
  · rw [hhere] at hd
    cases hd

/-- Off the marks of two characters, the first character decides. -/
theorem scanSymbol_one {first : Char} {c : Cursor} (hcolons : ¬ (first = ':' ∧ ∃ rest, c.rest = ':' :: rest))
    (harrow : ¬ (first = '-' ∧ ∃ rest, c.rest = '>' :: rest)) (start : Nat) :
    scanSymbol start first c = (symbol? first).elim
      { lexeme := none, faults := [unexpected first ⟨start, c.offset⟩], next := c }
      fun l => { lexeme := some l, next := c } := by
  rw [scanSymbol.eq_3 start c first (fun rest hfirst hrest => hcolons ⟨hfirst, rest, hrest⟩)
    fun rest hfirst hrest => harrow ⟨hfirst, rest, hrest⟩]
  cases symbol? first <;> rfl

theorem found_symbol (start : Nat) (first : Char) (c : Cursor) :
    scanSymbol start first c = { lexeme := none, faults := [unexpected first ⟨start, c.offset⟩], next := c } ∨
    ∃ taken l, Found (scanSymbol · first) start c taken l ∧ taken.head?.any Char.isDigit = false := by
  obtain ⟨offset, cs⟩ := c
  by_cases hcolons : first = ':' ∧ ∃ rest, cs = ':' :: rest
  · obtain ⟨rfl, rest, rfl⟩ := hcolons
    exact .inr ⟨[':'], .colonColon, found_of_eq [':'] rest rfl fun _ _ => rfl, rfl⟩
  by_cases harrow : first = '-' ∧ ∃ rest, cs = '>' :: rest
  · obtain ⟨rfl, rest, rfl⟩ := harrow
    exact .inr ⟨['>'], .arrow, found_of_eq ['>'] rest rfl fun _ _ => rfl, rfl⟩
  have hone := scanSymbol_one (c := ⟨offset, cs⟩) hcolons harrow
  have halone : ∀ start offset, scanSymbol start first ⟨offset, []⟩ = _ :=
    fun start offset => scanSymbol_one (c := ⟨offset, []⟩) (by simp) (by simp) start
  cases hsymbol : symbol? first with
  | none =>
    refine .inl ?_
    rw [hone start, hsymbol]
    rfl
  | some l =>
    refine .inr ⟨[], l, found_of_eq [] cs ?_ fun start offset => ?_, rfl⟩
    · rw [List.nil_append, hone start, hsymbol]
      rfl
    · rw [halone, hsymbol]
      rfl

theorem scan_symbol {first : Char} {cs : List Char} (hident : ¬ isIdentStart first = true)
    (hnumber : ¬ startsNumber first cs = true) (hquote : first ≠ '"') (start offset : Nat) :
    scan start first ⟨offset, cs⟩ = scanSymbol start first ⟨offset, cs⟩ := by
  unfold startsNumber at hnumber
  rw [scan, if_neg hident, if_neg hnumber, if_neg (by rwa [beq_iff_eq])]

/-- A scan reports a character, or finds a token. -/
theorem scan_cases (start : Nat) (first : Char) (c : Cursor) :
    scan start first c = { lexeme := none, faults := [unexpected first ⟨start, c.offset⟩], next := c } ∨
    ∃ taken l, Found (scan · first) start c taken l := by
  by_cases hident : isIdentStart first = true
  · obtain ⟨taken, l, h⟩ := found_word start first c
    exact .inr ⟨taken, l, h.congr (if_pos hident) fun _ _ => if_pos hident⟩
  by_cases hnumber : startsNumber first c.rest = true
  · exact .inr (found_number hnumber start)
  by_cases hquote : first = '"'
  · subst hquote
    exact .inr (found_string start c)
  have hscan := scan_symbol hident hnumber hquote start c.offset
  rcases found_symbol start first c with hnone | ⟨taken, l, h, hdigit⟩
  · exact .inl (hscan.trans hnone)
  · refine .inr ⟨taken, l, h.congr hscan fun start offset => scan_symbol hident ?_ hquote start offset⟩
    rw [startsNumber, Bool.or_eq_true, not_or] at hnumber
    rw [startsNumber, hdigit, Bool.and_false, Bool.or_false]
    exact hnumber.1

end Lexer

end ExprTree
