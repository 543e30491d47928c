import ExprTree.Proofs.ReaderText
import ExprTree.Proofs.Recognition

/-!
# The reading of a source ends

`Follows C P x y` says that a tracked run `x` does not stop from where `C` holds, and that it does what the
reader `y` does. It also says when a token is certain to be taken: where `P` holds of the lexeme at hand and
of what is read.

There is one rule for each elementary reader, and rules to put readers together. A loop follows if its body
takes a token in every round but the last (`Follows.loop`). A call follows if it is made behind a token
taken since the call around it began: when the text of a call has begun (`Track.Begun`), it may make calls of
its own (`Track.MayCall`) once it has taken a token (`Follows.enter`). On a list of tokens that ends in the
end of file all calls follow, since each has fewer tokens left than the call around it
(`follows_callsWithin`).
-/

namespace ExprTree.Parser

variable {α β : Type}

/-! ## Going onward -/

/-- Tokens are only taken from the front, and never all of them. -/
structure Onward (s s' : ParseState) : Prop where
  tokens : s'.tokens <:+ s.tokens
  more : s.tokens ≠ [] → s'.tokens ≠ []

namespace Onward

variable {s s' s'' : ParseState}

theorem of_eq (h : s'.tokens = s.tokens) : Onward s s' := ⟨h ▸ List.suffix_refl _, h ▸ id⟩

theorem trans (h : Onward s s') (h' : Onward s' s'') : Onward s s'' :=
  ⟨h'.tokens.trans h.tokens, h'.more ∘ h.more⟩

theorem length_le (h : Onward s s') : s'.tokens.length ≤ s.tokens.length := h.tokens.length_le

/-- Where no token was taken, the same token is at hand. -/
theorem lexeme_eq (h : Onward s s') (hlength : ¬s'.tokens.length < s.tokens.length) :
    s'.lexeme = s.lexeme := by
  have heq : s'.tokens = s.tokens :=
    h.tokens.eq_of_length (Nat.le_antisymm h.length_le (Nat.le_of_not_lt hlength))
  rw [ParseState.lexeme, ParseState.lexeme, heq]

end Onward

theorem onward_next (s : ParseState) : Onward s s.next :=
  ⟨(leads_advance s).tokens, (leads_advance s).more⟩

namespace Track

variable {w : Track} {s : ParseState}

/-- What is left is an end of the source, and the end of file comes last. -/
structure Intact (w : Track) : Prop where
  suffix : w.reader.tokens <:+ w.source
  ends : ∃ t, w.reader.tokens.getLast? = some t ∧ t.lexeme = .eof

theorem Intact.ne_nil (h : w.Intact) : w.reader.tokens ≠ [] := by
  obtain ⟨t, ht, -⟩ := h.ends
  rintro hnil
  simp [hnil] at ht

theorem Intact.onward (h : w.Intact) (hs : Onward w.reader s) : Intact { w with reader := s } where
  suffix := hs.tokens.trans h.suffix
  ends := ends_of_suffix h.ends hs.tokens (hs.more h.ne_nil)

theorem Intact.position_lt (h : w.Intact) : w.position < w.source.length := by
  have hpos := List.length_pos_iff.2 h.ne_nil
  have hle := h.suffix.length_le
  unfold position
  omega

end Track

/-! ## Runs that follow a reader -/

/-- The tracked run does not stop and does what the reader does, and takes a token where `P` says so. -/
structure FollowsAt (w : Track) (P : Lexeme → α → Prop) (x : Tracked α) (y : Parser α) : Prop where
  run : x w = .ok ((y w.reader).1, { w with reader := (y w.reader).2 })
  onward : Onward w.reader (y w.reader).2
  moves : P w.reader.lexeme (y w.reader).1 → (y w.reader).2.tokens.length < w.reader.tokens.length

/-- The tracked run follows the reader from wherever `C` holds. -/
def Follows (C : Track → Prop) (P : Lexeme → α → Prop) (x : Tracked α) (y : Parser α) : Prop :=
  ∀ w : Track, w.Intact → C w → FollowsAt w P x y

/-- No token need be taken. -/
abbrev nowhere : Lexeme → α → Prop := fun _ _ => False

/-- A token is taken in any case. -/
abbrev always : Lexeme → α → Prop := fun _ _ => True

/-- What still holds after tokens are taken. -/
class Lasting (C : Track → Prop) : Prop where
  lasts : ∀ {w : Track} {s : ParseState}, C w → Onward w.reader s → C { w with reader := s }

theorem Tracked.run_bind (x : Tracked α) (f : α → Tracked β) (w : Track) :
    (x >>= f) w = match x w with
      | .error stop => .error stop
      | .ok (a, w') => f a w' := by
  change (x w).bind (fun p => f p.1 p.2) = _
  rcases x w with _ | ⟨a, w'⟩ <;> rfl

section Rules

variable {C D : Track → Prop} {P : Lexeme → α → Prop} {Q : Lexeme → β → Prop} {x : Tracked α}
  {y : Parser α} {f : α → Tracked β} {g : α → Parser β}

theorem Follows.mono {P' : Lexeme → α → Prop} (h : Follows C P x y) (hC : ∀ w, D w → C w)
    (hP : ∀ w a, D w → P' w.reader.lexeme a → P w.reader.lexeme a) : Follows D P' x y := by
  intro w hw hCw
  have hat := h w hw (hC w hCw)
  exact ⟨hat.run, hat.onward, fun hP' => hat.moves (hP w _ hCw hP')⟩

theorem Follows.under (h : Follows C P x y) (hC : ∀ w, D w → C w) : Follows D P x y :=
  h.mono hC fun _ _ _ hP => hP

theorem Follows.plain (h : Follows C P x y) : Follows C nowhere x y :=
  h.mono (fun _ hw => hw) fun _ _ _ => False.elim

theorem Follows.here {l : Lexeme} (h : Follows C (fun l' _ => l' = l) x y) :
    Follows (fun w => C w ∧ w.reader.lexeme = l) always x y :=
  h.mono (fun _ hw => hw.1) fun _ _ hw _ => hw.2

/-- Two readers, one behind the other. If the first takes nothing, the second begins at the same token. -/
theorem Follows.chain {R : α → Lexeme → β → Prop} (hx : Follows C P x y)
    (hf : ∀ a, Follows D (R a) (f a) (g a))
    (hC : ∀ w a s, C w → Onward w.reader s →
      (P w.reader.lexeme a → s.tokens.length < w.reader.tokens.length) → D { w with reader := s })
    (hQ : ∀ w a b, C w → Q w.reader.lexeme b → P w.reader.lexeme a ∨ R a w.reader.lexeme b) :
    Follows C Q (x >>= f) (y >>= g) := by
  intro w hw hCw
  have hfirst := hx w hw hCw
  have hrest := hf (y w.reader).1 { w with reader := (y w.reader).2 } (hw.onward hfirst.onward)
    (hC w _ _ hCw hfirst.onward hfirst.moves)
  refine ⟨?_, hfirst.onward.trans hrest.onward, fun hQw => ?_⟩
  · rw [Tracked.run_bind, hfirst.run]
    exact hrest.run
  · have hle : ((y >>= g) w.reader).2.tokens.length ≤ (y w.reader).2.tokens.length :=
      hrest.onward.length_le
    by_cases hlt : (y w.reader).2.tokens.length < w.reader.tokens.length
    · exact Nat.lt_of_le_of_lt hle hlt
    · have hsame := hfirst.onward.lexeme_eq hlt
      rcases hQ w (y w.reader).1 _ hCw hQw with hP | hR
      · exact absurd (hfirst.moves hP) hlt
      · exact Nat.lt_of_lt_of_le (hrest.moves (hsame ▸ hR)) hfirst.onward.length_le

theorem follows_return {a : α} (h : ∀ w, C w → ¬P w.reader.lexeme a) :
    Follows C P (pure a : Tracked α) (pure a) := fun w _ hCw =>
  ⟨rfl, .of_eq rfl, fun hP => absurd hP (h w hCw)⟩

theorem follows_pure (a : α) : Follows C nowhere (pure a : Tracked α) (pure a) :=
  follows_return fun _ _ h => h

theorem Follows.bind [Lasting C] (hx : Follows C P x y) (hf : ∀ a, Follows C Q (f a) (g a)) :
    Follows C Q (x >>= f) (y >>= g) :=
  hx.chain hf (fun _ _ _ hC hs _ => Lasting.lasts hC hs) fun _ _ _ _ => Or.inr

/-- The first reader takes a token. -/
theorem Follows.first [Lasting C] {p : Lexeme → Prop} (hx : Follows C (fun l _ => p l) x y)
    (hf : ∀ a, Follows C nowhere (f a) (g a)) : Follows C (fun l _ => p l) (x >>= f) (y >>= g) :=
  hx.chain hf (fun _ _ _ hC hs _ => Lasting.lasts hC hs) fun _ _ _ _ => Or.inl

theorem Follows.returning {f : α → β} (hx : Follows C P x y) (h : ∀ l a, Q l (f a) → P l a) :
    Follows C Q (x >>= fun a => pure (f a)) (y >>= fun a => pure (f a)) := by
  refine hx.chain (D := fun _ => True) (R := fun a _ b => b ≠ f a)
    (fun a => follows_return fun _ _ hne => hne rfl) (fun _ _ _ _ _ _ => trivial) fun w a b _ hb => ?_
  by_cases heq : b = f a
  · exact .inl (h _ a (heq ▸ hb))
  · exact .inr heq

theorem Follows.ite {c : Prop} [Decidable c] {x x' : Tracked α} {y y' : Parser α}
    (h : c → Follows C P x y) (h' : ¬c → Follows C P x' y') :
    Follows C P (if c then x else x') (if c then y else y') := by
  split
  · exact h ‹_›
  · exact h' ‹_›

/-- What is looked at is known from there on. -/
theorem Follows.look {look : Parser α} (hlook : ∀ s, (look s).2 = s)
    (hf : ∀ a, Follows (fun w => C w ∧ (look w.reader).1 = a) Q (f a) (g a)) :
    Follows C Q ((Engine.step look : Tracked α) >>= f) (look >>= g) := by
  intro w hw hCw
  have hat := hf _ w hw ⟨hCw, rfl⟩
  have hrun : (look >>= g) w.reader = g (look w.reader).1 w.reader := by
    change g (look w.reader).1 (look w.reader).2 = _
    rw [hlook]
  refine ⟨?_, hrun ▸ hat.onward, hrun ▸ hat.moves⟩
  rw [Tracked.run_bind]
  change (match Tracked.step look w with | .error stop => _ | .ok (a, w') => _) = _
  rw [Tracked.step, if_pos hw.position_lt, hrun, hlook]
  exact hat.run

theorem Follows.peek {f : Lexeme → Tracked β} {g : Lexeme → Parser β}
    (hf : ∀ l, Follows (fun w => C w ∧ w.reader.lexeme = l) Q (f l) (g l)) :
    Follows C Q (Text.peek >>= f) (Text.peek >>= g) := .look (fun _ => rfl) hf

/-! ### Elementary readers -/

theorem follows_step {look : Parser α} (honward : ∀ s, Onward s (look s).2)
    (hmoves : ∀ w : Track, w.Intact → P w.reader.lexeme (look w.reader).1 →
      (look w.reader).2.tokens.length < w.reader.tokens.length) :
    Follows C P (Engine.step look : Tracked α) look := fun w hw _ =>
  ⟨if_pos hw.position_lt, honward w.reader, hmoves w hw⟩

/-- A step that leaves the tokens alone. -/
theorem follows_still {look : Parser α} (h : ∀ s, (look s).2.tokens = s.tokens) :
    Follows C nowhere (Engine.step look : Tracked α) look :=
  follows_step (fun s => .of_eq (h s)) fun _ _ => False.elim

theorem follows_advance : Follows C (fun l _ => l ≠ .eof) Text.advance Text.advance :=
  follows_step onward_next fun _ hw => length_next_lt hw.ends

theorem follows_eat {l : Lexeme} [hl : IsWord l] :
    Follows C (fun _ taken => taken = true) (Text.eat l) (Text.eat l) := by
  have heat : ∀ s, eat l s = if s.lexeme == l then (true, s.next) else (false, s) := by
    intro s
    change (if s.lexeme == l then _ else _ : Parser Bool) s = _
    split <;> rfl
  refine follows_step (fun s => ?_) fun w hw => ?_
  · rw [heat]
    split
    · exact onward_next s
    · exact .of_eq rfl
  · rw [heat]
    split
    · next h => exact fun _ => length_next_lt hw.ends (eq_of_beq h ▸ hl.ne_eof)
    · exact fun h => by cases h

theorem follows_expect {l : Lexeme} [hl : IsWord l] :
    Follows C (fun l' _ => l' = l) (Text.expect l) (Text.expect l) := by
  have hexpect : ∀ s, (expect l s).2.tokens = if s.lexeme == l then s.next.tokens else s.tokens := by
    intro s
    change ((if s.lexeme == l then _ else _ : Parser Span) s).2.tokens = _
    split <;> rfl
  refine follows_step (fun s => ?_) fun w hw h => ?_
  · by_cases h : s.lexeme == l
    · exact (onward_next s).trans (.of_eq ((hexpect s).trans (if_pos h)))
    · exact .of_eq ((hexpect s).trans (if_neg h))
  · rw [hexpect, if_pos (beq_iff_eq.2 h)]
    exact length_next_lt hw.ends (h ▸ hl.ne_eof)

theorem follows_expectIdent : Follows C nowhere Text.expectIdent Text.expectIdent := by
  refine follows_step (fun s => ?_) fun _ _ => False.elim
  change Onward s (expectIdent.run s).2
  simp only [expectIdent, peekSpan, peek, bind_assoc, pure_bind, StateT.run_bind, StateT.run_get]
  cases s.lexeme with
  | ident name => exact onward_next s
  | _ => exact .of_eq rfl

/-- A token is taken as it is eaten, or else by what comes then. -/
theorem Follows.eating [Lasting C] {l : Lexeme} [IsWord l] {p : Lexeme → Prop} {f : Bool → Tracked β}
    {g : Bool → Parser β} (htaken : Follows C nowhere (f true) (g true))
    (hnot : Follows C (fun l _ => p l) (f false) (g false)) :
    Follows C (fun l _ => p l) (Text.eat l >>= f) (Text.eat l >>= g) := by
  refine follows_eat.chain (R := fun taken l _ => taken = false ∧ p l) (fun taken => ?_)
    (fun _ _ _ hC hs _ => Lasting.lasts hC hs) fun _ taken _ _ hp => ?_
  · cases taken with
    | true => exact htaken.mono (fun _ h => h) fun _ _ _ h => by cases h.1
    | false => exact hnot.mono (fun _ h => h) fun _ _ _ h => h.2
  · cases taken with
    | true => exact .inl rfl
    | false => exact .inr ⟨rfl, hp⟩

theorem follows_resolveName (name : String) (span : Span) :
    Follows C nowhere (Text.resolveName name span) (Text.resolveName name span) := by
  refine follows_still fun s => ?_
  change ((resolveName name span).run s).2.tokens = _
  simp only [resolveName, pure_bind, StateT.run_bind, StateT.run_get]
  cases s.scopes.lookup name with
  | some v => rfl
  | none =>
    simp only [closure?, bind_assoc, pure_bind, StateT.run_bind, StateT.run_get]
    cases s.closures.lookup name <;> rfl

/-- A fault is reported or not, and reading goes on alike. -/
theorem Follows.reporting [Lasting C] {c : Prop} [Decidable c] {d : Diagnostic} {f : Unit → Tracked β}
    {g : Unit → Parser β} (hf : ∀ u, Follows C Q (f u) (g u)) :
    Follows C Q (if c then Text.report d >>= f else f ())
      (if c then Text.report d >>= g else g ()) :=
  .ite (fun _ => (follows_still fun _ => rfl).bind hf) fun _ => hf ()

/-- A token that nothing can begin with is reported, and taken unless a form ends with it. -/
theorem follows_unexpected [Lasting C] (l : Lexeme) (message : String) (help : Option String) (a : α) :
    Follows (fun w => C w ∧ w.reader.lexeme = l) (fun l _ => endsForm l = false) (do
      Text.reportHere message help
      if !endsForm l then Text.advance
      return a) (do
      Text.reportHere message help
      if !endsForm l then Text.advance
      return a) := by
  refine Follows.mono (C := C) (P := fun l' _ => l' ≠ .eof ∧ endsForm l = false)
    ((follows_still fun _ => rfl).bind fun _ => .ite (fun _ => ?_) fun hends => ?_) (fun _ h => h.1)
    fun w _ h hgoesOn => ⟨fun heof => ?_, h.2 ▸ hgoesOn⟩
  · exact (follows_advance.first fun _ => follows_pure a).mono (fun _ h => h) fun _ _ _ h => h.1
  · exact follows_return fun _ _ h => hends (by rw [h.2]; rfl)
  · rw [heof] at hgoesOn
    cases hgoesOn

/-! ### Loops -/

/-- A loop whose body takes a token in every round but the last is run as it is, to its end. -/
theorem Follows.loop [Lasting C] {more : Lexeme → Bool} {body : β → Tracked (β × Bool)}
    {body' : β → Parser (β × Bool)}
    (hbody : ∀ acc, Follows (fun w => C w ∧ more w.reader.lexeme = true) (fun _ r => r.2 = true)
      (body acc) (body' acc)) (acc : β) :
    Follows C nowhere (Engine.loop more body acc) (Engine.loop more body' acc) := by
  suffices h : ∀ s (w : Track), w.reader = s → w.Intact → C w →
      Tracked.loop more body acc w = .ok ((iterate more body' acc s).1,
        { w with reader := (iterate more body' acc s).2 }) ∧ Onward s (iterate more body' acc s).2 by
    intro w hw hCw
    obtain ⟨hrun, honward⟩ := h w.reader w rfl hw hCw
    exact ⟨hrun, honward, False.elim⟩
  intro s
  fun_induction iterate more body' acc s with
  | case1 acc s hmore r hgoesOn hlt ih =>
    rintro w rfl hw hCw
    have hround := hbody acc w hw ⟨hCw, hmore⟩
    obtain ⟨hrun, honward⟩ := ih { w with reader := r.2 } rfl (hw.onward hround.onward)
      (Lasting.lasts hCw hround.onward)
    refine ⟨?_, hround.onward.trans honward⟩
    rw [Tracked.loop, if_pos hw.position_lt, if_pos hmore, hround.run]
    exact (if_pos hgoesOn).trans ((if_pos hlt).trans hrun)
  | case2 acc s hmore r hgoesOn hnot =>
    rintro w rfl hw hCw
    exact absurd ((hbody acc w hw ⟨hCw, hmore⟩).moves hgoesOn) hnot
  | case3 acc s hmore r hends =>
    rintro w rfl hw hCw
    have hround := hbody acc w hw ⟨hCw, hmore⟩
    refine ⟨?_, hround.onward⟩
    rw [Tracked.loop, if_pos hw.position_lt, if_pos hmore, hround.run]
    exact if_neg hends
  | case4 acc s hmore =>
    rintro w rfl hw hCw
    refine ⟨?_, .of_eq rfl⟩
    rw [Tracked.loop, if_pos hw.position_lt, if_neg hmore]

theorem Follows.many [Lasting C] {more : Lexeme → Bool} {item : Tracked α} {item' : Parser α}
    (hitem : Follows (fun w => C w ∧ more w.reader.lexeme = true) always item item') :
    Follows C nowhere (Text.many more item) (Text.many more item') :=
  (Follows.loop (fun _ => hitem.returning fun _ _ _ => trivial) []).bind fun _ => follows_pure _

theorem Follows.manyForms [Lasting C] {item : Tracked α} {item' : Parser α}
    (hitem : Follows (fun w => C w ∧ w.reader.lexeme = .lparen) always item item') :
    Follows C nowhere (Text.manyForms item) (Text.manyForms item') :=
  Follows.many (hitem.under fun _ h => ⟨h.1, eq_of_beq h.2⟩)

end Rules

/-! ## Recovery, types and references -/

section Parts

variable {C : Track → Prop} [Lasting C]

theorem follows_skipToClose : Follows C nowhere Text.skipToClose Text.skipToClose := by
  refine (Follows.loop (fun depth => ?_) 0).bind fun _ => follows_pure _
  -- every lexeme that the loop looks at can be taken
  have htake : ∀ depth' : Nat, Follows (fun w => C w ∧ (w.reader.lexeme != .eof) = true)
      (fun _ r => r.2 = true) (do Text.advance; pure (depth', true))
      (do Text.advance; pure (depth', true)) := fun depth' =>
    (follows_advance.first fun _ => follows_pure (depth', true)).mono (fun _ h => h.1)
      fun _ _ h _ => by simpa using h.2
  refine .peek fun l => Follows.under ?_ fun _ h => h.1
  cases l with
  | lparen => exact htake _
  | rparen => exact .ite (fun _ => follows_return fun _ _ h => by cases h) fun _ => htake _
  | _ => exact htake _

theorem follows_skipForm : Follows C (fun l _ => endsForm l = false) Text.skipForm Text.skipForm := by
  refine .eating (follows_skipToClose.bind fun _ => follows_eat.bind fun _ => follows_pure _) ?_
  refine .peek fun l => .ite (fun _ => ?_) fun hends => ?_
  · refine follows_advance.mono (fun _ h => h) fun w _ _ h heof => ?_
    rw [heof] at h
    cases h
  · exact follows_return fun w hw h => hends (by rw [← hw.2, h]; rfl)

variable {ty : Tracked Ty} {ty' : Parser Ty}

theorem follows_tyParams (hty : Follows C nowhere ty ty') :
    Follows C nowhere (Text.tyParams ty) (Text.tyParams ty') := by
  refine (Follows.loop (fun acc => ?_) []).bind fun _ => follows_pure _
  exact (hty.bind fun param => follows_eat.returning fun _ _ h => h).under fun _ h => h.1

theorem follows_path : Follows C nowhere Text.path Text.path :=
  follows_expectIdent.bind fun _ => follows_expect.bind fun _ =>
    follows_expectIdent.bind fun _ => follows_pure _

theorem follows_memberTail (hty : Follows C nowhere ty ty') (kind : MemberKind) :
    Follows C nowhere (Text.memberTail ty kind) (Text.memberTail ty' kind) :=
  follows_path.bind fun _ => hty.bind fun _ => (follows_still fun _ => rfl).bind fun _ =>
    follows_pure _

theorem follows_memberRef (hty : Follows C nowhere ty ty') :
    Follows C (fun l _ => l = .lparen) (Text.memberRef ty) (Text.memberRef ty') := by
  refine follows_expect.first fun _ => follows_expectIdent.bind fun found => ?_
  have hrest := fun kind => (follows_memberTail hty kind).bind fun member =>
    (follows_expect (l := .rparen)).bind fun _ => follows_pure member
  simp only
  split
  · exact hrest _
  · exact hrest _
  · exact (follows_still fun _ => rfl).bind fun _ => hrest _

/-! ## Parts of forms -/

/-- The lexeme is not the end of file, nor of the form it stands in. -/
abbrev goesOn : Lexeme → α → Prop := fun l _ => endsForm l = false

variable {expr : Tracked Expr} {expr' : Parser Expr}

theorem follows_value (hexpr : Follows C goesOn expr expr') :
    Follows C nowhere (Text.value expr) (Text.value expr') := by
  have htake : ∀ v : Value, Follows C nowhere (do Text.advance; pure v) (do Text.advance; pure v) :=
    fun v => follows_advance.bind fun _ => follows_pure v
  refine (follows_still fun _ => rfl).bind fun l => ?_
  cases l with
  | integer n => exact htake _
  | float x => exact htake _
  | str s => exact htake _
  | true => exact htake _
  | false => exact htake _
  | null => exact htake _
  | ident name =>
    refine (follows_still fun _ => rfl).bind fun span => follows_advance.bind fun _ =>
      (follows_still fun _ => rfl).bind fun found => ?_
    cases found with
    | some c => exact follows_pure _
    | none => exact (follows_still fun _ => rfl).bind fun _ => follows_pure _
  | _ =>
    refine (follows_still fun _ => rfl).bind fun _ => .ite (fun _ => ?_) fun _ => ?_
    · exact follows_advance.bind fun _ => follows_advance.bind fun _ => hexpr.bind fun _ =>
        follows_expect.bind fun _ => follows_pure _
    · exact (follows_still fun _ => rfl).bind fun _ => follows_skipForm.bind fun _ => follows_pure _

theorem follows_exprs (hexpr : Follows C goesOn expr expr') :
    Follows C nowhere (Text.exprs expr) (Text.exprs expr') := by
  refine Follows.many (hexpr.mono (fun _ h => h.1) fun w _ h _ => ?_)
  have hmore := h.2
  rw [Bool.and_eq_true, Bool.not_eq_true'] at hmore
  exact hmore.1

theorem follows_object (hexpr : Follows C goesOn expr expr') :
    Follows C nowhere (Text.object expr) (Text.object expr') :=
  follows_eat.bind fun _ => .ite (fun _ => follows_pure _) fun _ =>
    hexpr.bind fun _ => follows_pure _

theorem follows_lambda (hty : Follows C nowhere ty ty') (hexpr : Follows C goesOn expr expr') :
    Follows C nowhere (Text.lambda ty expr) (Text.lambda ty' expr') := by
  refine follows_expect.bind fun _ => Follows.bind (Follows.loop (fun acc => ?_) []) fun params =>
    follows_expect.bind fun _ => (follows_still fun _ => rfl).bind fun s =>
    (follows_still fun _ => rfl).bind fun _ => hexpr.bind fun body =>
    (follows_still fun _ => rfl).bind fun _ => follows_pure _
  refine Follows.mono (follows_advance.first fun _ => follows_expectIdent.bind fun found =>
    hty.bind fun ty => follows_expect.bind fun _ => ?_) (fun _ h => h.1) ?_
  · exact .reporting fun _ => (follows_still fun _ => rfl).bind fun _ => follows_pure _
  · intro w _ h _ heof
    rw [heof] at h
    cases h.2

theorem follows_constructTail (hty : Follows C nowhere ty ty') (hexpr : Follows C goesOn expr expr') :
    Follows C nowhere (Text.constructTail ty expr) (Text.constructTail ty' expr') := by
  refine hty.bind fun _ => follows_expect.bind fun _ => (follows_exprs hexpr).bind fun _ =>
    follows_expect.bind fun _ => Follows.bind (Follows.manyForms ?_) fun _ => follows_pure _
  exact (follows_memberRef hty).here

theorem follows_constructForm (hty : Follows C nowhere ty ty') (hexpr : Follows C goesOn expr expr') :
    Follows C nowhere (Text.constructForm ty expr) (Text.constructForm ty' expr') :=
  follows_expect.bind fun _ => follows_expectIdent.bind fun _ => .reporting fun _ =>
    (follows_constructTail hty hexpr).bind fun _ => follows_expect.bind fun _ => follows_pure _

theorem follows_element (hexpr : Follows C goesOn expr expr') :
    Follows C (fun l _ => l = .lparen) (Text.element expr) (Text.element expr') :=
  follows_expect.first fun _ => follows_expectIdent.bind fun _ => .reporting fun _ =>
    follows_path.bind fun _ => (follows_exprs hexpr).bind fun _ => follows_expect.bind fun _ =>
    follows_pure _

theorem follows_elements (hexpr : Follows C goesOn expr expr') :
    Follows C nowhere (Text.manyForms (Text.element expr)) (Text.manyForms (Text.element expr')) :=
  Follows.manyForms (follows_element hexpr).here

variable {binding : Tracked (Binding Expr)} {binding' : Parser (Binding Expr)}

/-- The calls of the text follow wherever `C` holds. A binding is only read at an opening parenthesis. -/
structure CallsFollow (C : Track → Prop) (ty : Tracked Ty) (ty' : Parser Ty)
    (binding : Tracked (Binding Expr)) (binding' : Parser (Binding Expr)) (expr : Tracked Expr)
    (expr' : Parser Expr) : Prop where
  ty : Follows C nowhere ty ty'
  binding : Follows (fun w => C w ∧ w.reader.lexeme = .lparen) always binding binding'
  expr : Follows C goesOn expr expr'

theorem follows_formBody (h : CallsFollow C ty ty' binding binding' expr expr') (head : String)
    (span : Span) :
    Follows C nowhere (Text.formBody ty binding expr head span)
      (Text.formBody ty' binding' expr' head span) := by
  obtain ⟨hty, hbinding, hexpr⟩ := h
  -- one case for each head of a form, in the order of the text
  unfold Text.formBody
  split
  · exact hexpr.bind fun _ => .ite (fun _ => hty.bind fun _ => follows_pure _) fun _ => follows_pure _
  split
  · exact hexpr.bind fun _ => hexpr.bind fun _ => follows_pure _
  split
  · exact hexpr.bind fun _ => hty.bind fun _ => follows_pure _
  · exact hexpr.bind fun _ => hexpr.bind fun _ => hexpr.bind fun _ => follows_pure _
  · exact (follows_value hexpr).bind fun _ => hty.bind fun _ => follows_pure _
  · exact hexpr.bind fun _ => follows_pure _
  · exact follows_lambda hty hexpr
  · exact hexpr.bind fun _ => (follows_exprs hexpr).bind fun _ => follows_pure _
  · exact hexpr.bind fun _ => (follows_exprs hexpr).bind fun _ => follows_pure _
  · exact hexpr.bind fun _ => follows_pure _
  · exact hexpr.bind fun _ => follows_pure _
  · exact (follows_object hexpr).bind fun _ => (follows_memberTail hty _).bind fun _ => follows_pure _
  · exact (follows_object hexpr).bind fun _ => (follows_memberTail hty _).bind fun _ => follows_pure _
  · exact (follows_object hexpr).bind fun _ => follows_path.bind fun _ =>
      follows_expect.bind fun _ => (follows_exprs hexpr).bind fun _ =>
      follows_expect.bind fun _ => hty.bind fun _ => follows_pure _
  · exact (follows_constructTail hty hexpr).bind fun _ => follows_pure _
  · exact hty.bind fun _ => (follows_exprs hexpr).bind fun _ => follows_pure _
  · exact hty.bind fun _ => (follows_exprs hexpr).bind fun _ => follows_pure _
  · exact (follows_constructForm hty hexpr).bind fun _ => (Follows.manyForms hbinding).bind fun _ =>
      follows_pure _
  · exact (follows_constructForm hty hexpr).bind fun _ => (follows_elements hexpr).bind fun _ =>
      follows_pure _
  · exact follows_expectIdent.bind fun _ => hty.bind fun _ => follows_pure _
  · exact (follows_still fun _ => rfl).bind fun _ => follows_skipToClose.bind fun _ => follows_pure _

theorem follows_declareTy (hty : Follows C nowhere ty ty') (n : Node) :
    Follows C nowhere (Text.declareTy ty n) (Text.declareTy ty' n) := by
  refine follows_eat.bind fun _ => .ite (fun _ => ?_) fun _ => follows_pure _
  refine (follows_still fun _ => rfl).bind fun _ => hty.bind fun t => ?_
  cases n.withTy? t with
  | some n => exact follows_pure _
  | none => exact (follows_still fun _ => rfl).bind fun _ => follows_pure _

/-! ## Sources -/

theorem follows_freeDecl (hty : Follows C nowhere ty ty') :
    Follows C (fun l _ => l = .free) (Text.freeDecl ty) (Text.freeDecl ty') :=
  follows_expect.first fun _ => follows_expectIdent.bind fun _ =>
    follows_expect.bind fun _ => hty.bind fun _ => (follows_still fun _ => rfl).bind fun _ =>
    .ite (fun _ => follows_still fun _ => rfl) fun _ => (follows_still fun _ => rfl).bind fun _ =>
    follows_still fun _ => rfl

/-- If nothing of a field could be read, the token in its place is taken. -/
theorem follows_closureField (hexpr : Follows C goesOn expr expr') (closure : String)
    (fields : List (String × Value)) :
    Follows C (fun l _ => l ≠ .rbrace ∧ l ≠ .eof) (Text.closureField expr closure fields)
      (Text.closureField expr' closure fields) := by
  refine follows_expectIdent.bind fun _ => follows_expect.bind fun _ =>
    (follows_value hexpr).bind fun _ => .reporting fun _ => ?_
  -- if all of this took nothing, the token at hand is still the first one: a comma, or one that is taken now
  refine .eating ((follows_still fun _ => rfl).bind fun _ => follows_pure _) ?_
  refine Follows.look (fun _ => rfl) fun closing => .ite (fun _ => ?_) fun hnot => ?_
  · exact ((follows_still fun _ => rfl).bind fun _ => (follows_still fun _ => rfl).bind fun _ =>
      follows_advance.first fun _ => follows_pure _).mono (fun _ h => h.1) fun _ _ _ h => h.2
  · refine follows_return fun w hw h => hnot ?_
    rw [← hw.2]
    exact congrArg not (beq_eq_false_iff_ne.2 h.1)

theorem follows_closureDecl (hexpr : Follows C goesOn expr expr') :
    Follows C (fun l _ => l = .closure) (Text.closureDecl expr) (Text.closureDecl expr') := by
  refine follows_expect.first fun _ => follows_expectIdent.bind fun found =>
    follows_expect.bind fun _ => Follows.bind (Follows.loop (fun fields => ?_) []) fun _ =>
    follows_expect.bind fun _ => (follows_still fun _ => rfl).bind fun _ =>
    .ite (fun _ => follows_still fun _ => rfl) fun _ => (follows_still fun _ => rfl).bind fun _ =>
    follows_still fun _ => rfl
  refine Follows.returning (P := always) ?_ fun _ _ _ => trivial
  refine (follows_closureField hexpr found.1 fields).mono (fun _ h => h.1) fun w _ h _ => ?_
  simpa using h.2

theorem follows_decl (hty : Follows C nowhere ty ty') (hexpr : Follows C goesOn expr expr') :
    Follows C (fun l _ => l = .closure ∨ l = .free) (Text.decl ty expr) (Text.decl ty' expr') := by
  refine Follows.look (fun _ => rfl) fun closure => .ite (fun hclosure => ?_) fun hfree => ?_
  · refine (follows_closureDecl hexpr).mono (fun _ h => h.1) fun w _ h _ => ?_
    exact eq_of_beq (h.2.trans hclosure)
  · refine (follows_freeDecl hty).mono (fun _ h => h.1) fun w _ h hl => hl.resolve_left fun heq => ?_
    exact hfree (h.2 ▸ beq_iff_eq.2 heq)

theorem follows_file (hty : Follows C nowhere ty ty') (hexpr : Follows C goesOn expr expr') :
    Follows C nowhere (Text.file ty expr) (Text.file ty' expr') := by
  refine Follows.bind (Follows.many ((follows_decl hty hexpr).mono (fun _ h => h.1) fun w _ h _ => ?_))
    fun _ => hexpr.bind fun _ => (follows_still fun _ => rfl).bind fun _ => .ite (fun _ => ?_) fun _ => ?_
  · simpa using h.2
  · exact (follows_still fun _ => rfl).bind fun _ => (follows_still fun _ => rfl).bind fun _ =>
      follows_pure _
  · exact follows_pure _

end Parts

/-! ## Calls -/

/-- A call has begun: not more tokens are left than before it, and than `n + 1`. -/
structure Track.Begun (n depth : Nat) (w : Track) : Prop where
  nesting : w.nesting = depth
  left : w.reader.tokens.length ≤ n + 1
  began : ∀ left ∈ w.began, w.reader.tokens.length ≤ left

/-- A call may be made: fewer tokens are left than where the innermost open call began, and at most `n`. -/
structure Track.MayCall (n depth : Nat) (w : Track) : Prop where
  nesting : w.nesting = depth
  left : w.reader.tokens.length ≤ n
  began : ∀ left ∈ w.began, w.reader.tokens.length < left

instance (n depth : Nat) : Lasting (Track.Begun n depth) where
  lasts h hs := ⟨h.nesting, hs.length_le.trans h.left, fun k hk => hs.length_le.trans (h.began k hk)⟩

instance (n depth : Nat) : Lasting (Track.MayCall n depth) where
  lasts h hs :=
    ⟨h.nesting, hs.length_le.trans h.left, fun k hk => Nat.lt_of_le_of_lt hs.length_le (h.began k hk)⟩

theorem Track.MayCall.within {m n depth : Nat} {w : Track} (h : w.MayCall n depth)
    (hm : w.reader.tokens.length ≤ m) : w.MayCall m depth := ⟨h.nesting, hm, h.began⟩

section Calls

variable {n depth : Nat} {C : Track → Prop} {P : Lexeme → α → Prop} {x deep : Tracked α} {y : Parser α}

/-- With its first token taken, a call is ready for calls of its own. -/
theorem Follows.enter {f : α → Tracked β} {g : α → Parser β} (hC : ∀ w, C w → Track.Begun n depth w)
    (hx : Follows C always x y) (hf : ∀ a, Follows (Track.MayCall n depth) nowhere (f a) (g a)) :
    Follows C always (x >>= f) (y >>= g) := by
  refine hx.chain hf (fun w a s hw _ hmoves => ?_) fun _ _ _ _ _ => .inl trivial
  have hfresh := hC w hw
  have hlt := hmoves trivial
  exact ⟨hfresh.nesting, Nat.le_of_lt_succ (Nat.lt_of_lt_of_le hlt hfresh.left),
    fun k hk => Nat.lt_of_lt_of_le hlt (hfresh.began k hk)⟩

theorem Follows.call {p : Lexeme → Prop} (hC : ∀ w, C w → w.MayCall (n + 1) depth ∧ p w.reader.lexeme)
    (hx : Follows (fun w => w.Begun n depth ∧ p w.reader.lexeme) P x y) :
    Follows C P (Tracked.call x) y := by
  intro w hw hCw
  obtain ⟨hready, hp⟩ := hC w hCw
  have hbegan : (w.began.all fun left => decide (w.reader.tokens.length < left)) = true := by
    cases hopen : w.began with
    | none => rfl
    | some left => exact decide_eq_true (hready.began left hopen)
  have hat := hx { w with began := some w.reader.tokens.length } ⟨hw.suffix, hw.ends⟩
    ⟨⟨hready.nesting, hready.left, fun _ hleft => Nat.le_of_eq (Option.some.inj hleft)⟩, hp⟩
  refine ⟨?_, hat.onward, hat.moves⟩
  rw [Tracked.call, if_pos hbegan, hat.run]

theorem Follows.nested
    (h : Follows (Track.Begun n (depth + 1)) P (if maxNesting < depth + 1 then deep else x) y) :
    Follows (Track.Begun n depth) P (Tracked.nested deep x) y := by
  rintro w hw hfresh
  have hat := h { w with nesting := w.nesting + 1 } ⟨hw.suffix, hw.ends⟩
    ⟨congrArg (· + 1) hfresh.nesting, hfresh.left, hfresh.began⟩
  refine ⟨?_, hat.onward, hat.moves⟩
  rw [Tracked.nested, hfresh.nesting]
  rw [hfresh.nesting] at hat
  rw [hat.run, ← hfresh.nesting]
  rfl

variable {ty : Tracked Ty} {ty' : Parser Ty} {binding : Tracked (Binding Expr)}
  {binding' : Parser (Binding Expr)} {expr : Tracked Expr} {expr' : Parser Expr}

theorem follows_tyBody (hty : Follows (Track.MayCall n depth) nowhere ty ty') :
    Follows (Track.Begun n depth) nowhere (Text.tyBody ty) (Text.tyBody ty') := by
  refine .peek fun l => ?_
  have htake : l ≠ .eof → Follows (fun w => w.Begun n depth ∧ w.reader.lexeme = l) always
      Text.advance Text.advance := fun hl => follows_advance.mono (fun _ h => h) fun w _ h _ => h.2 ▸ hl
  cases l with
  | lbracket =>
    exact .plain <| .enter (fun _ h => h.1) (htake (by decide)) fun _ => hty.bind fun _ =>
      follows_expect.bind fun _ => follows_pure _
  | ident name =>
    refine .plain <| .enter (fun _ h => h.1) (htake (by simp)) fun _ => ?_
    cases Ty.builtin? name with
    | some t => exact follows_pure _
    | none =>
      refine (follows_still fun _ => rfl).bind fun _ => .ite (fun _ => ?_) fun _ => ?_
      · exact follows_advance.bind fun _ => (follows_tyParams hty).bind fun _ =>
          follows_expect.bind fun _ => follows_expect.bind fun _ => hty.bind fun _ => follows_pure _
      · refine (follows_still fun _ => rfl).bind fun _ => .ite (fun _ => ?_) fun _ => follows_pure _
        exact follows_advance.bind fun _ => hty.bind fun _ => follows_expect.bind fun _ => follows_pure _
  | _ => exact (follows_unexpected _ _ _ _).plain

theorem follows_bindingBody (h : CallsFollow (Track.MayCall n depth) ty ty' binding binding' expr expr') :
    Follows (fun w => Track.Begun n depth w ∧ w.reader.lexeme = .lparen) always
      (Text.bindingBody ty binding expr) (Text.bindingBody ty' binding' expr') := by
  refine .enter (fun _ hw => hw.1) follows_expect.here fun _ =>
    follows_eat.bind fun _ => .ite (fun _ => ?_) fun _ => ?_
  · exact (follows_memberRef h.ty).bind fun _ => h.expr.bind fun _ => follows_expect.bind fun _ =>
      follows_pure _
  · have hrest := fun b : Binding Expr =>
      (follows_expect (C := Track.MayCall n depth) (l := .rparen)).bind fun _ => follows_pure b
    refine follows_expectIdent.bind fun found => (follows_memberRef h.ty).bind fun member => ?_
    simp only
    split
    · exact (Follows.manyForms h.binding).bind fun _ => hrest _
    · exact (follows_elements h.expr).bind fun _ => hrest _
    · exact (follows_still fun _ => rfl).bind fun _ => hrest _

theorem follows_form (h : CallsFollow (Track.MayCall n depth) ty ty' binding binding' expr expr') :
    Follows (fun w => Track.Begun n depth w ∧ w.reader.lexeme = .lparen) always (Text.form ty binding expr)
      (Text.form ty' binding' expr') := by
  refine .enter (fun _ hw => hw.1) follows_expect.here fun _ => (follows_still fun _ => rfl).bind fun l => ?_
  cases l with
  | ident head =>
    refine (follows_still fun _ => rfl).bind fun _ => follows_advance.bind fun _ =>
      (follows_formBody h head _).bind fun n => (follows_declareTy h.ty n).bind fun n =>
      (follows_still fun _ => rfl).bind fun _ => .ite (fun _ => ?_) fun _ => ?_
    · exact (follows_still fun _ => rfl).bind fun _ => (follows_still fun _ => rfl).bind fun _ =>
        follows_skipToClose.bind fun _ => follows_eat.bind fun _ => follows_pure _
    · exact follows_eat.bind fun _ => follows_pure _
  | _ =>
    exact (follows_still fun _ => rfl).bind fun _ => follows_skipToClose.bind fun _ =>
      follows_eat.bind fun _ => follows_pure _

theorem follows_exprNode (h : CallsFollow (Track.MayCall n depth) ty ty' binding binding' expr expr') :
    Follows (Track.Begun n depth) goesOn (Text.exprNode ty binding expr)
      (Text.exprNode ty' binding' expr') := by
  refine .peek fun l => ?_
  have hmono : ∀ {x : Tracked Node} {y : Parser Node},
      Follows (Track.Begun n depth) (fun l _ => l ≠ .eof) x y →
      Follows (fun w => Track.Begun n depth w ∧ w.reader.lexeme = l) goesOn x y := by
    refine fun h => h.mono (fun _ h => h.1) fun w _ _ hgoesOn heof => ?_
    rw [heof] at hgoesOn
    cases hgoesOn
  have htake := fun a : Node => hmono (follows_advance.first fun _ => follows_pure a)
  cases l with
  | integer a => exact htake _
  | float a => exact htake _
  | str a => exact htake _
  | true => exact htake _
  | false => exact htake _
  | null => exact htake _
  | ident name =>
    exact hmono <| (follows_still fun _ => rfl).bind fun _ => follows_advance.first fun _ =>
      follows_resolveName _ _
  | lparen => exact (follows_form h).mono (fun _ hw => hw) fun _ _ _ _ => trivial
  | _ => exact follows_unexpected _ _ _ _

theorem follows_exprBody (h : CallsFollow (Track.MayCall n depth) ty ty' binding binding' expr expr') :
    Follows (Track.Begun n depth) goesOn (Text.exprBody ty binding expr)
      (Text.exprBody ty' binding' expr') :=
  (follows_exprNode h).first fun _ => follows_still fun _ => rfl

theorem follows_tooDeep : Follows (Track.Begun n depth) goesOn Text.tooDeep Text.tooDeep :=
  (follows_still fun _ => rfl).bind fun _ => follows_skipForm.first fun _ => follows_still fun _ => rfl

end Calls

/-! ## Whole runs -/

theorem follows_of_nothing_left {C : Track → Prop} {P : Lexeme → α → Prop} {x : Tracked α} {y : Parser α}
    (h : ∀ w, C w → w.reader.tokens.length ≤ 0) : Follows C P x y := fun w hw hCw =>
  absurd (List.length_eq_zero_iff.1 (Nat.le_zero.1 (h w hCw))) hw.ne_nil

/-- A reader that is bounded by the number of tokens that are left. -/
theorem Follows.bounded {C : Track → Prop} {P : Lexeme → α → Prop} {x : Tracked α} {reader : Nat → Parser α}
    (h : ∀ k, Follows (fun w => C w ∧ w.reader.tokens.length ≤ k) P x (reader k)) :
    Follows C P x (do reader (← get).tokens.length) := by
  intro w hw hCw
  obtain ⟨hrun, honward, hmoves⟩ := h w.reader.tokens.length w hw ⟨hCw, Nat.le_refl _⟩
  exact ⟨hrun, honward, hmoves⟩

/-- The calls follow the bounded readers, where at most `n` tokens are left and `depth` expressions are open. -/
structure CallsEnd (n depth : Nat) (calls : Text.Calls) : Prop where
  ty : ∀ k, Follows (fun w => Track.MayCall n depth w ∧ w.reader.tokens.length ≤ k) nowhere calls.ty
    (tyNested k)
  binding : ∀ k, Follows (fun w => (Track.MayCall n depth w ∧ w.reader.lexeme = .lparen) ∧
    w.reader.tokens.length ≤ k) always calls.binding (bindingNested (expr (maxNesting - depth)) k)
  expr : Follows (Track.MayCall n depth) goesOn calls.expr (expr (maxNesting - depth))

namespace CallsEnd

variable {n depth k : Nat} {calls : Text.Calls}

theorem nothing_left : CallsEnd 0 depth calls where
  ty _ := follows_of_nothing_left fun _ h => h.1.left
  binding _ := follows_of_nothing_left fun _ h => h.1.1.left
  expr := follows_of_nothing_left fun _ h => h.left

theorem follow (h : CallsEnd n depth calls) : CallsFollow (Track.MayCall n depth) calls.ty Parser.ty
    calls.binding (Parser.binding (Parser.expr (maxNesting - depth))) calls.expr
    (Parser.expr (maxNesting - depth)) := ⟨.bounded h.ty, .bounded h.binding, h.expr⟩

theorem ty_body (h : CallsEnd n depth calls) (hk : n ≤ k) :
    Follows (Track.Begun n depth) nowhere (Text.tyBody calls.ty) (tyNested (k + 1)) := by
  rw [← Text.direct_ty]
  exact follows_tyBody ((h.ty k).under fun _ hw => ⟨hw, hw.left.trans hk⟩)

theorem binding_body (h : CallsEnd n depth calls) (hk : n ≤ k) :
    Follows (fun w => w.Begun n depth ∧ w.reader.lexeme = .lparen) always
      (Text.bindingBody calls.ty calls.binding calls.expr)
      (bindingNested (Parser.expr (maxNesting - depth)) (k + 1)) := by
  rw [← Text.direct_binding]
  exact follows_bindingBody ⟨h.follow.ty, (h.binding k).under fun _ hw => ⟨hw, hw.1.left.trans hk⟩, h.expr⟩

theorem expr_body (h : CallsEnd n (depth + 1) calls) (hdepth : depth < maxNesting) :
    Follows (Track.Begun n (depth + 1)) goesOn (Text.exprBody calls.ty calls.binding calls.expr)
      (Parser.expr (maxNesting - depth)) := by
  rw [show maxNesting - depth = maxNesting - (depth + 1) + 1 by omega, ← Text.direct_expr]
  exact follows_exprBody h.follow

end CallsEnd

/-- All calls follow, since each has fewer tokens left than the call around it. -/
theorem follows_callsWithin {n depth calls : Nat} (hn : n ≤ calls) (hdepth : depth ≤ maxNesting) :
    CallsEnd n depth (Text.callsWithin calls) := by
  induction calls generalizing n depth with
  | zero =>
    cases Nat.le_zero.1 hn
    exact .nothing_left
  | succ calls ih =>
    cases n with
    | zero => exact .nothing_left
    | succ n =>
      have hn : n ≤ calls := Nat.le_of_succ_le_succ hn
      have hmin : ∀ k, CallsEnd (min n k) depth (Text.callsWithin calls) := fun k =>
        ih ((Nat.min_le_left n k).trans hn) hdepth
      refine ⟨fun k => ?_, fun k => ?_, ?_⟩
      · cases k with
        | zero => exact follows_of_nothing_left fun _ h => h.2
        | succ k =>
          refine .call (p := fun _ => True) (n := min n k) (fun w h => ⟨h.1.within ?_, trivial⟩)
            (((hmin k).ty_body (Nat.min_le_right n k)).under fun _ h => h.1)
          have hleft := h.1.left
          omega
      · cases k with
        | zero => exact follows_of_nothing_left fun _ h => h.2
        | succ k =>
          refine .call (p := (· = .lparen)) (n := min n k) (fun w h => ⟨h.1.1.within ?_, h.1.2⟩)
            ((hmin k).binding_body (Nat.min_le_right n k))
          have hleft := h.1.1.left
          omega
      · refine .call (p := fun _ => True) (fun w h => ⟨h, trivial⟩)
          (Follows.under (Follows.nested ?_) fun _ h => h.1)
        by_cases hdeep : maxNesting < depth + 1
        · rw [if_pos hdeep, show maxNesting - depth = 0 by omega, ← Text.direct_tooDeep]
          exact follows_tooDeep
        · rw [if_neg hdeep]
          exact (ih hn (by omega)).expr_body (by omega)

/-- The reading of a source ends, on every list of tokens that ends in the end of file. The text of the
readers, with no bound on its loops and cut off only after more nested calls than there are tokens, does not
stop anywhere: no token is looked at behind the last one, no round of a loop but its last leaves the tokens as
they were, no call is made inside another without a token taken in between, and no more expressions are left
than were entered. It reads what `file` reads. At the end its position is that of the token at hand, below
the number of tokens, and no expression is open. -/
theorem fileWithin_ends (tokens : List Token) (supply : Supply) (calls : Nat)
    (hcalls : tokens.length ≤ calls) (hends : ∃ t, tokens.getLast? = some t ∧ t.lexeme = .eof) :
    ∃ e final, Text.fileWithin calls { reader := { tokens, supply }, source := tokens } = .ok (e, final) ∧
      file { tokens, supply } = (e, final.reader) ∧ final.reader.tokens = tokens.drop final.position ∧
      final.position < tokens.length ∧ final.nesting = 0 ∧ final.began = none := by
  have hall : CallsEnd tokens.length 0 (Text.callsWithin calls) :=
    follows_callsWithin hcalls (Nat.zero_le _)
  have hfile : Follows (Track.MayCall tokens.length 0) nowhere (Text.fileWithin calls) file := by
    rw [← Text.direct_file]
    exact follows_file hall.follow.ty hall.expr
  have hintact : Track.Intact { reader := { tokens, supply }, source := tokens } :=
    ⟨List.suffix_refl _, hends⟩
  have hrun := hfile _ hintact ⟨rfl, Nat.le_refl _, fun _ h => by cases h⟩
  have hfinal := hintact.onward hrun.onward
  exact ⟨_, _, hrun.run, rfl, List.suffix_iff_eq_drop.1 hfinal.suffix, hfinal.position_lt, rfl, rfl⟩

/-- A closure with no name before its brace and the end of file among its fields, then a form that nothing
closes, with a type in place of a constructor. -/
def unclosed : List Token :=
  [.closure, .lbrace, .ident "limit", .eof, .lparen, .ident "tree", .lbracket, .rparen, .comma, .rbrace,
    .lparen, .ident "init", .lbracket, .ident "Int", .lparen, .ident "bind", .colon, .lparen, .eof].map
    fun l => ⟨l, ⟨0, 0⟩⟩

theorem fileWithin_ends_on_unclosed :
    ∃ e final, Text.fileWithin 19 { reader := { tokens := unclosed, supply := {} }, source := unclosed } =
        .ok (e, final) ∧
      file { tokens := unclosed, supply := {} } = (e, final.reader) ∧
      final.reader.tokens = unclosed.drop final.position ∧ final.position < 19 ∧
      final.nesting = 0 ∧ final.began = none :=
  fileWithin_ends unclosed {} 19 (by decide) ⟨⟨.eof, ⟨0, 0⟩⟩, rfl, rfl⟩

end ExprTree.Parser
