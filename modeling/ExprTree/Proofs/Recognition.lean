import ExprTree.Proofs.Grammar
import ExprTree.Proofs.Reports
import ExprTree.Proofs.Taking

/-!
# Readers and phrases

A reader recognizes a phrase (`Recognizes`) if it reports nothing exactly where the phrase stands, and
then gives what the phrase means and stops behind it. There is a rule for each elementary reader, in the
form in which it stands before the rest of a reader, one for readers that follow each other and one for
loops. A rule gives the phrase that matches the reader step by step, with what the reader looks at ahead;
`Recognizes.restate` turns it into a production of the grammar. There what follows a phrase comes in: a
loop goes on as long as it can, a list of the grammar ends anywhere, and both are the same where the word
behind the list is none that an item starts with.
-/

namespace ExprTree

open Grammar

variable {α β : Type}

/-! ## Points of a reader -/

/-- Where the reader stands. -/
def ParseState.point (s : ParseState) : Point := ⟨s.tokens.map (·.lexeme), s.supply⟩

/-- What names stand for. -/
def ParseState.env (s : ParseState) : Env := ⟨s.scopes, s.closures⟩

theorem ParseState.head_point (s : ParseState) : s.point.head = s.lexeme := by
  unfold Point.head point lexeme
  cases s.tokens <;> rfl

namespace Grammar

/-- The end of file comes last and nowhere else. -/
def Point.Ends (p : Point) : Prop := ∃ ls, p.ahead = ls ++ [.eof] ∧ .eof ∉ ls

theorem Point.Ends.of_suffix {p q : Point} (h : p.Ends) (hsuffix : q.ahead <:+ p.ahead)
    (hmore : q.ahead ≠ []) : q.Ends := by
  obtain ⟨ls, hls, heof⟩ := h
  obtain ⟨taken, htaken⟩ := hsuffix
  rcases List.eq_nil_or_concat q.ahead with hnil | ⟨ms, l, hms⟩
  · exact absurd hnil hmore
  · rw [hms, hls, List.concat_eq_append, ← List.append_assoc] at htaken
    obtain ⟨rfl, hl⟩ := List.append_inj' htaken rfl
    cases hl
    exact ⟨ms, by rw [hms, List.concat_eq_append], fun h => heof (List.mem_append_right _ h)⟩

/-- At the end of file nothing else is ahead. -/
theorem Point.Ends.ahead_eq {p : Point} (h : p.Ends) (hend : p.head = .eof) : p.ahead = [.eof] := by
  obtain ⟨ls, hls, hmem⟩ := h
  cases ls with
  | nil => exact hls
  | cons l ls =>
    rw [Point.head, hls] at hend
    cases hend
    exact absurd List.mem_cons_self hmem

theorem Word.head {l : Lexeme} {p q : Point} (h : Word l p q) : p.head = l := by
  cases h
  rfl

theorem Word.next {l : Lexeme} {p q q' : Point} (h : Word l p q) (h' : Word l p q') : q = q' := by
  cases h
  cases h'
  rfl

/-- The point before a word. -/
def Point.before (l : Lexeme) (p : Point) : Point := ⟨l :: p.ahead, p.supply⟩

theorem word_before (l : Lexeme) (p : Point) : Word l (p.before l) p := .mk _ _

theorem word_before_iff {l l' : Lexeme} {p q : Point} : Word l (p.before l') q ↔ l = l' ∧ q = p := by
  constructor
  · intro h
    cases h
    exact ⟨rfl, rfl⟩
  · rintro ⟨rfl, rfl⟩
    exact word_before _ _

theorem Word.eq_before {l : Lexeme} {p q : Point} (h : Word l p q) : p = q.before l := by
  cases h
  rfl

theorem Word.ahead_eq {l : Lexeme} {p q : Point} (h : Word l p q) : p.ahead = l :: q.ahead := by
  cases h
  rfl

theorem Word.suffix {l : Lexeme} {p q : Point} (h : Word l p q) : q.ahead <:+ p.ahead :=
  h.ahead_eq ▸ List.suffix_cons _ _

end Grammar

namespace Parser

theorem Leads.suffix {s s' : ParseState} (h : Leads s s') : s'.point.ahead <:+ s.point.ahead :=
  h.tokens.map _

theorem Leads.ends {s s' : ParseState} (h : Leads s s') (hs : s.point.Ends) : s'.point.Ends := by
  refine hs.of_suffix h.suffix ?_
  have hmore : s.tokens ≠ [] := by
    rintro hnil
    obtain ⟨ls, hls, -⟩ := hs
    simp [ParseState.point, hnil] at hls
  simpa [ParseState.point] using h.more hmore

theorem Leads.env {s s' : ParseState} (h : Leads s s') : s'.env = s.env := by
  rw [ParseState.env, ParseState.env, h.scopes, h.closures]

theorem Leads.length {s s' : ParseState} (h : Leads s s') : s'.tokens.length ≤ s.tokens.length :=
  h.tokens.length_le

/-- A word other than the end of file can be taken. -/
theorem word_next {s : ParseState} (hs : s.point.Ends) (h : s.lexeme ≠ .eof) :
    Word s.lexeme s.point s.next.point ∧ s.next.tokens.length < s.tokens.length := by
  obtain ⟨ls, hls, -⟩ := hs
  unfold ParseState.lexeme at h ⊢
  unfold ParseState.next
  match htokens : s.tokens with
  | [] => rw [htokens] at h; exact absurd rfl h
  | [t] =>
    cases ls with
    | nil => simp_all [ParseState.point]
    | cons l ls => simp [ParseState.point, htokens] at hls
  | t :: u :: rest =>
    simp only [ParseState.point, htokens, List.map_cons]
    exact ⟨.mk _ _, by simp⟩

theorem next_faults (s : ParseState) : s.next.faults = s.faults := by
  unfold ParseState.next
  split <;> rfl

/-! ## Recognizing a phrase -/

/-- Wherever a reader stands. -/
def Anywhere : Point → Prop := fun _ => True

/-- Not more words are ahead. -/
def Within (n : Nat) : Point → Prop := fun p => p.ahead.length ≤ n

/-- What holds of all points behind, if it holds of a point. -/
class Steady (C : Point → Prop) : Prop where
  steady : ∀ {p q : Point}, C p → q.ahead <:+ p.ahead → C q

instance : Steady Anywhere := ⟨fun _ _ => trivial⟩

instance (n : Nat) : Steady (Within n) := ⟨fun h hsuffix => Nat.le_trans hsuffix.length_le h⟩

/-- A word, not the end of the words. -/
class IsWord (l : Lexeme) : Prop where
  ne_eof : l ≠ .eof

instance : IsWord .closure := ⟨nofun⟩
instance : IsWord .free := ⟨nofun⟩
instance : IsWord .static := ⟨nofun⟩
instance : IsWord .lparen := ⟨nofun⟩
instance : IsWord .rparen := ⟨nofun⟩
instance : IsWord .lbrace := ⟨nofun⟩
instance : IsWord .rbrace := ⟨nofun⟩
instance : IsWord .lbracket := ⟨nofun⟩
instance : IsWord .rbracket := ⟨nofun⟩
instance : IsWord .comma := ⟨nofun⟩
instance : IsWord .colon := ⟨nofun⟩
instance : IsWord .colonColon := ⟨nofun⟩
instance : IsWord .equals := ⟨nofun⟩
instance : IsWord .arrow := ⟨nofun⟩
instance : IsWord .less := ⟨nofun⟩
instance : IsWord .greater := ⟨nofun⟩
instance (name : String) : IsWord (.ident name) := ⟨nofun⟩

/-- What is claimed if `M` holds is known if `N` holds. -/
class Covers (N M : Prop) : Prop where
  covers : M → N

instance (M : Prop) : Covers M M := ⟨id⟩

instance (N : Prop) : Covers N False := ⟨False.elim⟩

instance (M : Prop) : Covers True M := ⟨fun _ => trivial⟩

/-- At points that satisfy `C`, the reader reports nothing exactly where the phrase `R` stands, gives
what it means and stops behind it. Only phrases that are followed by a word in `F` need be recognized.
If `M` holds, some word is taken. -/
structure Recognizes (M : Prop) (C : Point → Prop) (F : Lexeme → Prop) (x : Parser α) (R : Phrase α) :
    Prop where
  leads : ∀ s, Leads s (x s).2
  moves : M → ∀ s, s.point.Ends → C s.point → (x s).2.faults.size = s.faults.size →
    (x s).2.tokens.length < s.tokens.length
  sound : ∀ s, s.point.Ends → C s.point → (x s).2.faults.size = s.faults.size →
    R s.env s.point (x s).1 (x s).2.point
  complete : ∀ s a q, s.point.Ends → C s.point → R s.env s.point a q → F q.head →
    ∃ s', x s = (a, s') ∧ s'.point = q ∧ s'.faults = s.faults

section Rules

variable {M N : Prop} {C D : Point → Prop} {F G : Lexeme → Prop} {R R' : Phrase α}

/-- The phrase that matches a reader is a production of the grammar. -/
theorem Recognizes.restate [hM : Covers N M] {x : Parser α} (h : Recognizes N C G x R)
    (hsound : ∀ {Γ p a q}, C p → R Γ p a q → R' Γ p a q)
    (hcomplete : ∀ {Γ p a q}, C p → R' Γ p a q → F q.head → R Γ p a q ∧ G q.head) :
    Recognizes M C F x R' where
  leads := h.leads
  moves hmoves := h.moves (hM.covers hmoves)
  sound s hs hC hfaults := hsound hC (h.sound s hs hC hfaults)
  complete s a q hs hC hR' hF := by
    obtain ⟨hR, hG⟩ := hcomplete hC hR' hF
    exact h.complete s a q hs hC hR hG

/-- The same phrase, said in another way. -/
theorem Recognizes.congr [Covers N M] {x : Parser α} (h : Recognizes N C F x R)
    (hiff : ∀ {Γ p a q}, C p → (R Γ p a q ↔ R' Γ p a q)) : Recognizes M C F x R' :=
  h.restate (fun hC => (hiff hC).1) fun hC hR' hF => ⟨(hiff hC).2 hR', hF⟩

theorem Recognizes.mono {x : Parser α} (h : Recognizes M C G x R) (hM : N → M) (hC : ∀ {p}, D p → C p)
    (hF : ∀ {l}, F l → G l) : Recognizes N D F x R where
  leads := h.leads
  moves hN s hs hD := h.moves (hM hN) s hs (hC hD)
  sound s hs hD := h.sound s hs (hC hD)
  complete s a q hs hD hR hl := h.complete s a q hs (hC hD) hR (hF hl)

theorem Recognizes.anywhere {x : Parser α} (h : Recognizes M Anywhere F x R) : Recognizes M C F x R :=
  h.mono id (fun _ => trivial) id

theorem Recognizes.still {x : Parser α} (h : Recognizes M C F x R) : Recognizes False C F x R :=
  h.mono False.elim id id

theorem recognizes_pure (a : α) : Recognizes False C F (pure a) fun _ p b q => b = a ∧ q = p where
  leads := .refl
  moves := False.elim
  sound _ _ _ _ := ⟨rfl, rfl⟩
  complete := by
    rintro s _ _ - - ⟨rfl, rfl⟩ -
    exact ⟨s, rfl, rfl, rfl⟩

/-- One reader after the other. The second phrase starts with a word that may follow the first one. -/
theorem Recognizes.bind [hsteady : Steady C] {x : Parser α} {f : α → Parser β} {S : α → Phrase β}
    (hx : Recognizes M C G x R) (hf : ∀ a, Recognizes N C F (f a) (S a))
    (hfollow : ∀ {a Γ p b q}, S a Γ p b q → F q.head → G p.head) :
    Recognizes M C F (x >>= f) fun Γ p b q => ∃ a p₁, R Γ p a p₁ ∧ S a Γ p₁ b q := by
  have hfirst : ∀ s, ((x >>= f) s).2.faults.size = s.faults.size →
      (x s).2.faults.size = s.faults.size ∧
        (f (x s).1 (x s).2).2.faults.size = (x s).2.faults.size := by
    intro s hfaults
    have h₁ := (hx.leads s).faults
    have h₂ := ((hf (x s).1).leads (x s).2).faults
    have h₃ : (f (x s).1 (x s).2).2.faults.size = s.faults.size := hfaults
    omega
  refine ⟨fun s => (hx.leads s).trans ((hf _).leads _), fun hM s hs hC hfaults => ?_,
    fun s hs hC hfaults => ?_, ?_⟩
  · exact Nat.lt_of_le_of_lt ((hf (x s).1).leads (x s).2).length
      (hx.moves hM s hs hC (hfirst s hfaults).1)
  · have hleads := hx.leads s
    have hR := hx.sound s hs hC (hfirst s hfaults).1
    have hS := (hf (x s).1).sound (x s).2 (hleads.ends hs) (hsteady.steady hC hleads.suffix)
      (hfirst s hfaults).2
    rw [hleads.env] at hS
    exact ⟨_, _, hR, hS⟩
  · rintro s b q hs hC ⟨a, p₁, hR, hS⟩ hF
    obtain ⟨s₁, hrun, rfl, hfaults⟩ := hx.complete s a p₁ hs hC hR (hfollow hS hF)
    have hleads : Leads s s₁ := by
      have hleads := hx.leads s
      rwa [hrun] at hleads
    rw [← hleads.env] at hS
    obtain ⟨s₂, hrun₂, hpoint, hfaults₂⟩ := (hf a).complete s₁ b q (hleads.ends hs)
      (hsteady.steady hC hleads.suffix) hS hF
    refine ⟨s₂, ?_, hpoint, hfaults₂.trans hfaults⟩
    show f (x s).1 (x s).2 = _
    rw [hrun, hrun₂]

/-- One reader after another that may be followed by anything. -/
theorem Recognizes.andThen [Steady C] {x : Parser α} {f : α → Parser β} {S : α → Phrase β}
    (hx : Recognizes M C Anything x R) (hf : ∀ a, Recognizes N C F (f a) (S a)) :
    Recognizes M C F (x >>= f) fun Γ p b q => ∃ a p₁, R Γ p a p₁ ∧ S a Γ p₁ b q :=
  hx.bind hf fun _ _ => trivial

/-- What follows the last part of a phrase follows the phrase. -/
theorem follow_here {P : Prop} {p q : Point} (h : P ∧ q = p) (hq : F q.head) : F p.head := h.2 ▸ hq

/-- A report is made nowhere in an accepted source. -/
theorem recognizes_report {d : Diagnostic} {f : Unit → Parser α} (hf : ∀ s, Leads s (f () s).2) :
    Recognizes True C F (report d >>= f) fun _ _ _ _ => False := by
  have hsize : ∀ s : ParseState, (report d s).2.faults.size = s.faults.size + 1 :=
    fun s => Array.size_push d
  have hleads : ∀ s : ParseState, Leads s (report d s).2 := fun s =>
    ⟨by rw [hsize s]; omega, rfl, rfl, Nat.le_refl _, List.suffix_refl _, id⟩
  have hreported : ∀ s : ParseState, ((report d >>= f) s).2.faults.size ≠ s.faults.size := by
    intro s
    have h₁ := (hf (report d s).2).faults
    have h₂ : s.faults.size + 1 ≤ (f () (report d s).2).2.faults.size := hsize s ▸ h₁
    exact fun h => by
      have h₃ : (f () (report d s).2).2.faults.size = s.faults.size := h
      omega
  exact ⟨fun s => (hleads s).trans (hf _), fun _ s _ _ h => absurd h (hreported s),
    fun s _ _ h => absurd h (hreported s), fun _ _ _ _ _ h => h.elim⟩

theorem recognizes_reportHere {message : String} {help : Option String} {f : Unit → Parser α}
    (hf : ∀ s, Leads s (f () s).2) :
    Recognizes True C F (reportHere message help >>= f) fun _ _ _ _ => False := by
  have h : ∀ span, Recognizes True C F (report { message, span, help } >>= f) fun _ _ _ _ => False :=
    fun span => recognizes_report hf
  exact ⟨fun s => (h s.span).leads s, fun hM s => (h s.span).moves hM s, fun s => (h s.span).sound s,
    fun s => (h s.span).complete s⟩

/-- A reader looks at the word at hand. -/
theorem recognizes_peek {f : Lexeme → Parser α}
    (hf : ∀ l, Recognizes M (fun p => C p ∧ p.head = l) F (f l) R) :
    Recognizes M C F (peek >>= f) R where
  leads s := (hf s.lexeme).leads s
  moves hM s hs hC := (hf s.lexeme).moves hM s hs ⟨hC, s.head_point⟩
  sound s hs hC := (hf s.lexeme).sound s hs ⟨hC, s.head_point⟩
  complete s a q hs hC := (hf s.lexeme).complete s a q hs ⟨hC, s.head_point⟩

theorem recognizes_at? {l : Lexeme} {f : Bool → Parser α}
    (hf : ∀ b, Recognizes M (fun p => C p ∧ (p.head == l) = b) F (f b) R) :
    Recognizes M C F (at? l >>= f) R where
  leads s := (hf (s.lexeme == l)).leads s
  moves hM s hs hC := (hf (s.lexeme == l)).moves hM s hs ⟨hC, by rw [s.head_point]⟩
  sound s hs hC := (hf (s.lexeme == l)).sound s hs ⟨hC, by rw [s.head_point]⟩
  complete s a q hs hC := (hf (s.lexeme == l)).complete s a q hs ⟨hC, by rw [s.head_point]⟩

/-- Spans have no meaning. -/
theorem recognizes_peekSpan {f : Span → Parser α} (hf : ∀ span, Recognizes M C F (f span) R) :
    Recognizes M C F (peekSpan >>= f) R where
  leads s := (hf s.span).leads s
  moves hM s := (hf s.span).moves hM s
  sound s := (hf s.span).sound s
  complete s := (hf s.span).complete s

/-- A reader looks at the variables in scope. -/
theorem recognizes_scopes {f : ParseState → Parser α} {S : List (String × Variable) → Phrase α}
    (hf : ∀ s : ParseState, Recognizes M C F (f s) (S s.scopes)) :
    Recognizes M C F (get >>= f) fun Γ => S Γ.scopes Γ where
  leads s := (hf s).leads s
  moves hM s := (hf s).moves hM s
  sound s := (hf s).sound s
  complete s := (hf s).complete s

theorem recognizes_closure? {name : String} {f : Option (Closure Value) → Parser α}
    {S : Option (Closure Value) → Phrase α} (hf : ∀ c, Recognizes M C F (f c) (S c)) :
    Recognizes M C F (closure? name >>= f) fun Γ => S (Γ.closures.lookup name) Γ where
  leads s := (hf (s.closures.lookup name)).leads s
  moves hM s := (hf (s.closures.lookup name)).moves hM s
  sound s := (hf (s.closures.lookup name)).sound s
  complete s := (hf (s.closures.lookup name)).complete s

/-- The word at hand is taken. -/
theorem recognizes_advance {l : Lexeme} [hl : IsWord l] {f : Unit → Parser α}
    (hf : Recognizes N D F (f ()) R) (hhead : ∀ p, C p → p.head = l)
    (hD : ∀ p q, C p → Word l p q → D q) :
    Recognizes True C F (advance >>= f) fun Γ p a q => ∃ p₁, Word l p p₁ ∧ R Γ p₁ a q := by
  have hword : ∀ s : ParseState, s.point.Ends → C s.point →
      Word l s.point s.next.point ∧ s.next.tokens.length < s.tokens.length := by
    intro s hs hC
    have hlexeme : s.lexeme = l := s.head_point ▸ hhead _ hC
    have hnext := word_next hs (hlexeme ▸ hl.ne_eof)
    rwa [hlexeme] at hnext
  refine ⟨fun s => (leads_advance s).trans (hf.leads _), fun _ s hs hC _ => ?_,
    fun s hs hC hfaults => ?_, ?_⟩
  · exact Nat.lt_of_le_of_lt (hf.leads s.next).length (hword s hs hC).2
  · have hleads := leads_advance s
    have hR := hf.sound s.next (hleads.ends hs) (hD _ _ hC (hword s hs hC).1)
      (hfaults.trans (congrArg Array.size (next_faults s)).symm)
    rw [show s.next.env = s.env from hleads.env] at hR
    exact ⟨_, (hword s hs hC).1, hR⟩
  · rintro s a q hs hC ⟨p₁, hp₁, hR⟩ hF
    have hleads : Leads s s.next := leads_advance s
    obtain rfl : s.next.point = p₁ := (hword s hs hC).1.next hp₁
    rw [← hleads.env] at hR
    obtain ⟨s', hrun, hpoint, hfaults⟩ := hf.complete s.next a q (hleads.ends hs) (hD _ _ hC hp₁) hR hF
    exact ⟨s', hrun, hpoint, hfaults.trans (next_faults s)⟩

/-- The word at hand is taken, and what is behind it completes the phrase. -/
theorem recognizes_advance_before {l : Lexeme} [hl : IsWord l] {f : Unit → Parser α}
    (hf : Recognizes False D F (f ()) fun Γ p => R Γ (p.before l)) (hhead : ∀ p, C p → p.head = l)
    (hD : ∀ p q, C p → Word l p q → D q) : Recognizes True C F (advance >>= f) R := by
  have hadvance : Recognizes True C F (advance >>= f) fun Γ p a q =>
      ∃ p₁, Word l p p₁ ∧ R Γ (p₁.before l) a q :=
    recognizes_advance hf hhead hD
  refine ⟨hadvance.leads, hadvance.moves, fun s hs hC hfaults => ?_, fun s a q hs hC hR hF => ?_⟩
  · obtain ⟨p₁, hword, hR⟩ := hadvance.sound s hs hC hfaults
    rwa [← hword.eq_before] at hR
  · have hlexeme : s.lexeme = l := s.head_point ▸ hhead _ hC
    have hword := (word_next hs (hlexeme ▸ hl.ne_eof)).1
    rw [hlexeme] at hword
    exact hadvance.complete s a q hs hC ⟨_, hword, hword.eq_before ▸ hR⟩ hF

/-- A word of the grammar. -/
theorem recognizes_expect {l : Lexeme} [IsWord l] {f : Span → Parser α}
    (hf : ∀ span, Recognizes N D F (f span) R) (hD : ∀ p q, C p → Word l p q → D q) :
    Recognizes True C F (expect l >>= f) fun Γ p a q => ∃ p₁, Word l p p₁ ∧ R Γ p₁ a q := by
  rw [expect, bind_assoc]
  refine recognizes_peekSpan fun span => ?_
  rw [bind_assoc]
  refine recognizes_at? fun b => ?_
  cases b with
  | true =>
    simp only [reduceIte, bind_assoc]
    exact recognizes_advance (hf span) (fun _ hC => eq_of_beq hC.2) fun _ _ hC => hD _ _ hC.1
  | false =>
    have hreport : Recognizes True (fun p => C p ∧ (p.head == l) = false) F (do
        let found ← peek
        reportHere ("expected " ++ l.describe ++ ", found " ++ found.describe) none
        f span) fun _ _ _ _ => False :=
      recognizes_peek fun found => recognizes_reportHere (hf span).leads
    simp only [Bool.false_eq_true, reduceIte, bind_assoc]
    refine hreport.congr fun hC => ⟨False.elim, ?_⟩
    rintro ⟨p₁, hword, -⟩
    exact ne_of_beq_false hC.2 hword.head

theorem recognizes_word [hsteady : Steady C] {l : Lexeme} [IsWord l] {f : Span → Parser α}
    (hf : ∀ span, Recognizes N C F (f span) R) :
    Recognizes True C F (expect l >>= f) fun Γ p a q => ∃ p₁, Word l p p₁ ∧ R Γ p₁ a q :=
  recognizes_expect hf fun _ _ hC hword => hsteady.steady hC hword.suffix

/-- A name. -/
theorem recognizes_ident [hsteady : Steady C] {f : String × Span → Parser α} {S : String → Phrase α}
    (hf : ∀ name span, Recognizes N C F (f (name, span)) (S name)) :
    Recognizes True C F (expectIdent >>= f) fun Γ p a q =>
      ∃ name p₁, Word (.ident name) p p₁ ∧ S name Γ p₁ a q := by
  rw [expectIdent, bind_assoc]
  refine recognizes_peekSpan fun span => ?_
  rw [bind_assoc]
  refine recognizes_peek fun l => ?_
  split
  · next name =>
    rw [bind_assoc]
    refine (recognizes_advance (l := .ident name) (hf name span) (fun _ hC => hC.2) fun _ _ hC hword =>
      hsteady.steady hC.1 hword.suffix).congr fun hC => ?_
    constructor
    · rintro ⟨p₁, hword, hS⟩
      exact ⟨name, p₁, hword, hS⟩
    · rintro ⟨name', p₁, hword, hS⟩
      cases hword.head.symm.trans hC.2
      exact ⟨p₁, hword, hS⟩
  · next hother =>
    rw [bind_assoc]
    refine (recognizes_reportHere (hf missingName span).leads).congr fun hC => ⟨False.elim, ?_⟩
    rintro ⟨name, p₁, hword, -⟩
    exact hother name (hC.2.symm.trans hword.head)

/-- A word that may be missing. -/
theorem recognizes_eat [hsteady : Steady C] {l : Lexeme} [IsWord l] {f : Bool → Parser α}
    (htrue : Recognizes N C F (f true) R) (hfalse : Recognizes M C F (f false) R') :
    Recognizes M C F (eat l >>= f) fun Γ p a q =>
      (∃ p₁, Word l p p₁ ∧ R Γ p₁ a q) ∨ p.head ≠ l ∧ R' Γ p a q := by
  rw [eat, bind_assoc]
  refine recognizes_at? fun b => ?_
  cases b with
  | true =>
    simp only [reduceIte, bind_assoc]
    refine (recognizes_advance htrue (fun _ hC => eq_of_beq hC.2) fun _ _ hC hword =>
      hsteady.steady hC.1 hword.suffix).congr fun hC => ⟨.inl, ?_⟩
    rintro (h | ⟨hne, -⟩)
    · exact h
    · exact absurd (eq_of_beq hC.2) hne
  | false =>
    refine (hfalse.mono id And.left id).congr fun hC => ⟨fun h => .inr ⟨ne_of_beq_false hC.2, h⟩, ?_⟩
    rintro (⟨p₁, hword, -⟩ | ⟨-, h⟩)
    · exact absurd hword.head (ne_of_beq_false hC.2)
    · exact h

/-- Identities are drawn. -/
theorem recognizes_draw {x : Fresh α} (hx : ∀ supply, supply.next ≤ (x.run supply).2.next) :
    Recognizes False C F (draw x) fun _ => Drawn x where
  leads s := ⟨Nat.le_refl _, rfl, rfl, hx s.supply, List.suffix_refl _, id⟩
  moves := False.elim
  sound s _ _ _ := .mk _ _
  complete := by
    rintro s a q - - h -
    refine ⟨{ s with supply := q.supply }, ?_, ?_, rfl⟩
    · generalize hp : s.point = p at h
      cases h
      cases hp
      rfl
    · generalize hp : s.point = p at h
      cases h
      cases hp
      rfl

/-- Looking two words ahead. -/
theorem recognizes_opens {head : String} {x y : Parser α}
    (hx : Recognizes M (fun p => C p ∧ ∃ p₁ p₂, Word .lparen p p₁ ∧ Word (.ident head) p₁ p₂) F x R)
    (hy : Recognizes M (fun p => C p ∧ ¬∃ p₁ p₂, Word .lparen p p₁ ∧ Word (.ident head) p₁ p₂) F y R) :
    Recognizes M C F (do if (← get).opensForm head then x else y) R := by
  have hopens : ∀ s : ParseState, s.opensForm head = true ↔
      ∃ p₁ p₂, Word .lparen s.point p₁ ∧ Word (.ident head) p₁ p₂ := by
    intro s
    unfold ParseState.opensForm ParseState.point
    constructor
    · intro h
      split at h
      · next t u rest htokens =>
        simp only [Bool.and_eq_true, beq_iff_eq] at h
        rw [htokens, List.map_cons, List.map_cons, h.1, h.2]
        exact ⟨_, _, .mk _ _, .mk _ _⟩
      · cases h
    · rintro ⟨p₁, p₂, h₁, h₂⟩
      have hahead := h₁.ahead_eq
      rw [h₂.ahead_eq] at hahead
      split
      · next t u rest htokens =>
        simp only [htokens, List.map_cons, List.cons.injEq] at hahead
        simp [hahead.1, hahead.2.1]
      · next hother =>
        rcases htokens : s.tokens with _ | ⟨t, _ | ⟨u, rest⟩⟩
        · simp [htokens] at hahead
        · simp [htokens] at hahead
        · exact absurd htokens (hother t u rest)
  have hrun : ∀ s, (do if (← get).opensForm head then x else y : Parser α) s =
      if s.opensForm head then x s else y s := by
    intro s
    show (if s.opensForm head = true then x else y : Parser α) s = _
    split <;> rfl
  refine ⟨fun s => ?_, fun hM s hs hC => ?_, fun s hs hC => ?_, fun s a q hs hC => ?_⟩ <;>
    rw [hrun s] <;> split
  · exact hx.leads s
  · exact hy.leads s
  · next h => exact hx.moves hM s hs ⟨hC, (hopens s).1 h⟩
  · next h => exact hy.moves hM s hs ⟨hC, fun hex => h ((hopens s).2 hex)⟩
  · next h => exact hx.sound s hs ⟨hC, (hopens s).1 h⟩
  · next h => exact hy.sound s hs ⟨hC, fun hex => h ((hopens s).2 hex)⟩
  · next h => exact hx.complete s a q hs ⟨hC, (hopens s).1 h⟩
  · next h => exact hy.complete s a q hs ⟨hC, fun hex => h ((hopens s).2 hex)⟩

/-! ## Bounds -/

/-- The end of file is ahead, so there is no point that is within no words. -/
theorem recognizes_within_zero {x : Parser α} (hx : ∀ s, Leads s (x s).2) :
    Recognizes M (Within 0) F x R := by
  have hnone : ∀ {p : Point}, p.Ends → ¬Within 0 p := by
    rintro p ⟨ls, hls, -⟩
    simp [Within, hls]
  exact ⟨hx, fun _ s hs hC => absurd hC (hnone hs), fun s hs hC => absurd hC (hnone hs),
    fun s _ _ hs hC => absurd hC (hnone hs)⟩

/-- The words that are left are enough as a bound. -/
theorem recognizes_bounded {x : Nat → Parser α} (hx : ∀ n, Recognizes M (Within n) F (x n) R) :
    Recognizes M C F (do x (← get).tokens.length) R := by
  have hwithin : ∀ s : ParseState, Within s.tokens.length s.point := fun s => by
    simp [Within, ParseState.point]
  exact ⟨fun s => (hx s.tokens.length).leads s, fun hM s hs _ =>
    (hx s.tokens.length).moves hM s hs (hwithin s),
    fun s hs _ => (hx s.tokens.length).sound s hs (hwithin s),
    fun s a q hs _ => (hx s.tokens.length).complete s a q hs (hwithin s)⟩

theorem within_next {n : Nat} {l : Lexeme} {p q : Point} (hp : Within (n + 1) p) (h : Word l p q) :
    Within n q := by
  rw [Within, h.ahead_eq, List.length_cons] at hp
  exact Nat.le_of_succ_le_succ hp

/-! ## Loops -/

/-- A loop: steps as long as the word at hand satisfies `more`, until a step ends it. -/
inductive Loop (more : Lexeme → Bool) (S : β → Phrase (β × Bool)) (Γ : Env) :
    Point → β → β → Point → Prop
  | stop {p : Point} {b : β} : more p.head = false → Loop more S Γ p b b p
  | last {p q : Point} {b b' : β} : more p.head = true → S b Γ p (b', false) q → Loop more S Γ p b b' q
  | go {p p₁ q : Point} {b b₁ b' : β} : more p.head = true → S b Γ p (b₁, true) p₁ →
      Loop more S Γ p₁ b₁ b' q → Loop more S Γ p b b' q

theorem Loop.stopped {more : Lexeme → Bool} {S : β → Phrase (β × Bool)} {Γ : Env} {p q : Point}
    {b b' : β}
    (h : Loop more S Γ p b b' q) (hstop : more p.head = false) : b' = b ∧ q = p := by
  cases h with
  | stop _ => exact ⟨rfl, rfl⟩
  | last hmore | go hmore => cases hmore.symm.trans hstop

theorem recognizes_iterate [hsteady : Steady C] {more : Lexeme → Bool} {step : β → Parser (β × Bool)}
    {S : β → Phrase (β × Bool)}
    (hstep : ∀ b, Recognizes True (fun p => C p ∧ more p.head = true) Anything (step b) (S b)) (b : β) :
    Recognizes False C Anything (iterate more step b) fun Γ p b' q => Loop more S Γ p b b' q := by
  have hleads : ∀ b s, Leads s (iterate more step b s).2 := fun b s =>
    iterate_invariant (I := fun _ s' => Leads s s') (fun b s' h => h.trans ((hstep b).leads s'))
      b s (.refl s)
  refine ⟨hleads b, False.elim, fun s => ?_, fun s b' q hs hC hloop hany => ?_⟩
  · -- along the run: a step that reports nothing takes a word, so that the loop goes on if it says so
    fun_induction iterate more step b s with
    | case1 b s hmore r hgo hshorter ih =>
      intro hs hC hfaults
      have hstepLeads := (hstep b).leads s
      have hfirst : r.2.faults.size = s.faults.size := by
        have h₁ : s.faults.size ≤ r.2.faults.size := hstepLeads.faults
        have h₂ := (hleads r.1.1 r.2).faults
        omega
      have hrest := ih (hstepLeads.ends hs) (hsteady.steady hC hstepLeads.suffix)
        (hfaults.trans hfirst.symm)
      have hhere := (hstep b).sound s hs ⟨hC, s.head_point ▸ hmore⟩ hfirst
      rw [show r.2.env = s.env from hstepLeads.env] at hrest
      refine .go (s.head_point ▸ hmore) ?_ hrest
      rwa [show (step b s).1 = (r.1.1, true) from Prod.ext rfl hgo] at hhere
    | case2 b s hmore r hgo hstuck =>
      intro hs hC hfaults
      exact absurd ((hstep b).moves trivial s hs ⟨hC, s.head_point ▸ hmore⟩ hfaults) hstuck
    | case3 b s hmore r hend =>
      intro hs hC hfaults
      have hhere := (hstep b).sound s hs ⟨hC, s.head_point ▸ hmore⟩ hfaults
      refine .last (s.head_point ▸ hmore) ?_
      rwa [show (step b s).1 = (r.1.1, false) from Prod.ext rfl (Bool.eq_false_iff.2 hend)] at hhere
    | case4 b s hmore =>
      exact fun _ _ _ => .stop (s.head_point ▸ Bool.eq_false_iff.2 hmore)
  · clear hany
    generalize hΓ : s.env = Γ, hp : s.point = p at hloop
    induction hloop generalizing s with
    | stop hmore =>
      rw [← hp, s.head_point] at hmore
      refine ⟨s, ?_, hp, rfl⟩
      rw [iterate, hmore, if_neg Bool.false_ne_true]
    | last hmore hlast =>
      subst hp hΓ
      obtain ⟨s', hrun, hpoint, hfaults⟩ := (hstep _).complete s _ _ hs ⟨hC, hmore⟩ hlast trivial
      refine ⟨s', ?_, hpoint, hfaults⟩
      rw [iterate, if_pos (s.head_point ▸ hmore), hrun]
      rfl
    | @go p p₁ q b b₁ b' hmore hhere _ ih =>
      subst hp hΓ
      obtain ⟨s₁, hrun, hpoint, hfaults⟩ := (hstep _).complete s _ _ hs ⟨hC, hmore⟩ hhere trivial
      have hstepLeads := (hstep b).leads s
      have hshorter := (hstep b).moves trivial s hs ⟨hC, hmore⟩
      rw [hrun] at hstepLeads hshorter
      obtain ⟨s', hrun', hpoint', hfaults'⟩ := ih s₁ (hstepLeads.ends hs)
        (hsteady.steady hC hstepLeads.suffix) hstepLeads.env hpoint
      refine ⟨s', ?_, hpoint', hfaults'.trans hfaults⟩
      rw [iterate, if_pos (s.head_point ▸ hmore), hrun]
      simp only [reduceIte, if_pos (hshorter (congrArg Array.size hfaults)), hrun']

/-- An item is put before those that were read already. -/
def Collected (R : Phrase α) (acc : List α) : Phrase (List α × Bool) := fun Γ p r q =>
  ∃ a p₁, R Γ p a p₁ ∧ r = (a :: acc, true) ∧ q = p₁

theorem Loop.many {more : Lexeme → Bool} {Γ : Env} {p q : Point} {acc acc' : List α}
    (h : Loop more (Collected R) Γ p acc acc' q) :
    ∃ as, acc' = as.reverse ++ acc ∧ Many (R Γ) p as q := by
  induction h with
  | stop _ => exact ⟨[], rfl, .nil⟩
  | last _ hlast =>
    obtain ⟨a, _, -, heq, -⟩ := hlast
    cases heq
  | go _ hhere _ ih =>
    obtain ⟨a, _, hR, heq, rfl⟩ := hhere
    cases heq
    obtain ⟨as, rfl, has⟩ := ih
    exact ⟨a :: as, by simp, .cons hR has⟩

theorem loop_of_many {more : Lexeme → Bool} {Γ : Env} {p q : Point} {as : List α}
    (hstart : ∀ {p a q}, R Γ p a q → more p.head = true) (hstop : more q.head = false)
    (h : Many (R Γ) p as q) (acc : List α) : Loop more (Collected R) Γ p acc (as.reverse ++ acc) q := by
  induction h generalizing acc with
  | nil => exact .stop hstop
  | @cons p p₁ q a as hR _ ih =>
    rw [List.reverse_cons, List.append_assoc, List.singleton_append]
    exact .go (hstart hR) ⟨a, p₁, hR, rfl, rfl⟩ (ih hstop (a :: acc))

/-- A list of items, each of which starts with a word that lets the loop go on. -/
theorem recognizes_many [Steady C] {more : Lexeme → Bool} {item : Parser α}
    (hitem : Recognizes True C Anything item R) (hstart : ∀ {Γ p a q}, R Γ p a q → more p.head = true)
    (hstop : ∀ l, F l → more l = false) : Recognizes False C F (many more item) fun Γ => Many (R Γ) := by
  have hstep : ∀ acc, Recognizes True C Anything (do return ((← item) :: acc, true)) (Collected R acc) :=
    fun acc => hitem.andThen fun a => recognizes_pure (a :: acc, true)
  refine ((recognizes_iterate (fun acc => (hstep acc).mono id And.left id) []).andThen fun acc =>
    recognizes_pure acc.reverse).restate
    (fun _ h => ?_) fun {Γ p as q} _ h hF => ⟨?_, hF⟩
  · obtain ⟨acc, _, hloop, rfl, rfl⟩ := h
    obtain ⟨as, rfl, hmany⟩ := hloop.many
    simpa using hmany
  · have hloop := loop_of_many hstart (hstop _ hF) h []
    exact ⟨_, q, hloop, by simp, rfl⟩

end Rules

end Parser

end ExprTree
