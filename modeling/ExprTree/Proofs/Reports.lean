import ExprTree.Proofs.Legible
import ExprTree.Proofs.Reading

/-!
# Readers that report nothing

A reader never fails; where the tokens are not what it needs it reports that and makes something up.
So what a reader gives can be relied on only if it reports nothing. `Sound P s x Q` says this of the
reader `x` in the state `s`: it never takes a report back, and if it makes none, `Q` holds of what it
gives and of the state behind it. `P` collects what is known from the readers before.

There is a rule for each elementary reader, in the form in which it stands before the rest of a
reader, and one for loops. What a reader may do to the state in any case is the relation `Leads`.
-/

namespace ExprTree

namespace Parser

variable {α β : Type}

/-! ## Readers and their reports -/

/-- What holds of the states before and after every reader inside an expression. -/
structure Leads (s s' : ParseState) : Prop where
  faults : s.faults.size ≤ s'.faults.size
  scopes : s'.scopes = s.scopes
  closures : s'.closures = s.closures
  supply : s.supply.next ≤ s'.supply.next
  tokens : s'.tokens <:+ s.tokens
  more : s.tokens ≠ [] → s'.tokens ≠ []

theorem Leads.refl (s : ParseState) : Leads s s :=
  ⟨Nat.le_refl _, rfl, rfl, Nat.le_refl _, List.suffix_refl _, id⟩

theorem Leads.trans {s₁ s₂ s₃ : ParseState} (h : Leads s₁ s₂) (h' : Leads s₂ s₃) : Leads s₁ s₃ where
  faults := Nat.le_trans h.faults h'.faults
  scopes := h'.scopes.trans h.scopes
  closures := h'.closures.trans h.closures
  supply := Nat.le_trans h.supply h'.supply
  tokens := h'.tokens.trans h.tokens
  more := h'.more ∘ h.more

/-- What is left of tokens that end in the end of file ends in it too. -/
theorem ends_of_suffix {tokens rest : List Token} (hends : ∃ t, tokens.getLast? = some t ∧ t.lexeme = .eof)
    (hrest : rest <:+ tokens) (hmore : rest ≠ []) : ∃ t, rest.getLast? = some t ∧ t.lexeme = .eof := by
  obtain ⟨t, ht, heof⟩ := hends
  obtain ⟨taken, htaken⟩ := hrest
  rw [← htaken, List.getLast?_append_of_ne_nil _ hmore] at ht
  exact ⟨t, ht, heof⟩

/-- Any token but the end of file can be taken. -/
theorem length_next_lt {s : ParseState} (hends : ∃ t, s.tokens.getLast? = some t ∧ t.lexeme = .eof)
    (h : s.lexeme ≠ .eof) : s.next.tokens.length < s.tokens.length := by
  obtain ⟨t, ht, heof⟩ := hends
  unfold ParseState.lexeme at h
  unfold ParseState.next
  match htokens : s.tokens with
  | [] => simp [htokens] at ht
  | [u] =>
    rw [htokens] at h ht
    cases ht
    exact absurd heof h
  | _ :: u :: rest => simp

/-- The tree can be written at every place, also in the closures that it refers to. -/
def AllLegible (e : Expr) : Prop := e.Everywhere fun a => a.node.Legible

/-- All names are identifiers, the end of file comes last, the types in scope are readable, and the declared
closures hold trees that can be written. -/
structure Proper (s : ParseState) : Prop where
  words : ∀ t ∈ s.tokens, ∀ name, t.lexeme = .ident name → isWord name = true
  ends : ∃ t, s.tokens.getLast? = some t ∧ t.lexeme = .eof
  scopes : ∀ b ∈ s.scopes, b.2.ty.isReadable = true
  closures : ∀ b ∈ s.closures, b.2.name = b.1 ∧ isWord b.1 = true ∧ ∀ t ∈ b.2.trees, AllLegible t

theorem Proper.leads {s s' : ParseState} (h : Proper s) (hs : Leads s s') : Proper s' where
  words t ht := h.words t (hs.tokens.subset ht)
  ends := by
    refine ends_of_suffix h.ends hs.tokens (hs.more fun hnil => ?_)
    obtain ⟨t, ht, -⟩ := h.ends
    simp [hnil] at ht
  scopes := by
    rw [hs.scopes]
    exact h.scopes
  closures := by
    rw [hs.closures]
    exact h.closures

theorem Proper.word {s : ParseState} (h : Proper s) {name : String} (hs : s.lexeme = .ident name) :
    isWord name = true := by
  unfold ParseState.lexeme at hs
  split at hs
  · next t tokens htokens => exact h.words t (by simp [htokens]) name hs
  · cases hs

/-- The reader never takes a report back, and if it makes none, its result and the state behind it
satisfy `Q`. -/
def Sound (P : Prop) (s : ParseState) (x : Parser α) (Q : α → ParseState → Prop) : Prop :=
  Leads s (x s).2 ∧ (Proper s → P → (x s).2.faults.size = s.faults.size → Q (x s).1 (x s).2)

section Rules

variable {P : Prop} {s : ParseState} {Q : α → ParseState → Prop} {R : β → ParseState → Prop}

theorem sound_pure {a : α} (h : Proper s → P → Q a s) : Sound P s (pure a) Q :=
  ⟨.refl s, fun hs hP _ => h hs hP⟩

theorem Sound.bind {x : Parser α} {f : α → Parser β} (hx : Sound P s x Q)
    (hf : ∀ a s', Leads s s' → Sound (P ∧ Q a s') s' (f a) R) : Sound P s (x >>= f) R := by
  obtain ⟨hleads, hQ⟩ := hx
  obtain ⟨hleads', hR⟩ := hf (x s).1 (x s).2 hleads
  refine ⟨hleads.trans hleads', fun hs hP hfaults => ?_⟩
  -- no report in all, so none in either part
  have hfirst : (x s).2.faults.size = s.faults.size := by
    have h₁ := hleads.faults
    have h₂ : _ ≤ ((x >>= f) s).2.faults.size := hleads'.faults
    omega
  exact hR (hs.leads hleads) ⟨hP, hQ hs hP hfirst⟩ (hfaults.trans hfirst.symm)

theorem Sound.mono {P' : Prop} {Q' : α → ParseState → Prop} {x : Parser α} (hx : Sound P s x Q)
    (hP : P' → P) (hQ : ∀ a s', Proper s → P' → Leads s s' → Q a s' → Q' a s') : Sound P' s x Q' :=
  ⟨hx.1, fun hs hP' hfaults => hQ _ _ hs hP' hx.1 (hx.2 hs (hP hP') hfaults)⟩

/-- A reader whose result does not matter. -/
theorem Sound.skip {x : Parser α} {f : α → Parser β} (hx : ∀ s, Leads s (x s).2)
    (hf : ∀ a s', Leads s s' → Sound P s' (f a) R) : Sound P s (x >>= f) R := by
  have hskip : Sound P s x fun _ _ => True := ⟨hx s, fun _ _ _ => trivial⟩
  exact hskip.bind fun a s' hs => (hf a s' hs).mono And.left fun _ _ _ _ _ h => h

/-- What comes behind a report need only go on. -/
theorem sound_report {d : Diagnostic} {f : Unit → Parser β}
    (hf : ∀ s', Leads s s' → Sound False s' (f ()) R) : Sound P s (report d >>= f) R := by
  have hreport : Sound P s (report d) fun _ _ => False := by
    have hsize : (report d s).2.faults.size = s.faults.size + 1 := Array.size_push d
    refine ⟨⟨by omega, rfl, rfl, Nat.le_refl _, List.suffix_refl _, id⟩, fun _ _ hfaults => ?_⟩
    omega
  exact hreport.bind fun _ s' hs => (hf s' hs).mono And.right fun _ _ _ _ _ h => h

theorem sound_reportHere {message : String} {help : Option String} {f : Unit → Parser β}
    (hf : ∀ s', Leads s s' → Sound False s' (f ()) R) :
    Sound P s (reportHere message help >>= f) R :=
  sound_report hf

theorem sound_get {f : ParseState → Parser β} (hf : Sound P s (f s) R) :
    Sound P s (get >>= f) R := hf

theorem sound_peek {f : Lexeme → Parser β} (hf : Sound P s (f s.lexeme) R) :
    Sound P s (peek >>= f) R := hf

theorem sound_peekSpan {f : Span → Parser β} (hf : ∀ span, Sound P s (f span) R) :
    Sound P s (peekSpan >>= f) R := hf s.span

theorem sound_at? {l : Lexeme} {f : Bool → Parser β} (hf : ∀ b, Sound P s (f b) R) :
    Sound P s (at? l >>= f) R := hf (s.lexeme == l)

theorem sound_at?_here {l : Lexeme} {f : Bool → Parser β} (hf : Sound P s (f (s.lexeme == l)) R) :
    Sound P s (at? l >>= f) R := hf

theorem sound_closure? {name : String} {f : Option (Closure Value) → Parser β}
    (hf : Sound P s (f (s.closures.lookup name)) R) : Sound P s (closure? name >>= f) R := hf

theorem leads_advance (s : ParseState) : Leads s (advance s).2 := by
  show Leads s s.next
  unfold ParseState.next
  split
  · next t u tokens htokens =>
    refine ⟨Nat.le_refl _, rfl, rfl, Nat.le_refl _, ?_, fun _ => List.cons_ne_nil _ _⟩
    rw [htokens]
    exact List.suffix_cons _ _
  · exact .refl s

theorem sound_advance {f : Unit → Parser β} (hf : ∀ s', Leads s s' → Sound P s' (f ()) R) :
    Sound P s (advance >>= f) R :=
  .skip leads_advance fun _ => hf

theorem sound_eat {l : Lexeme} {f : Bool → Parser β}
    (hf : ∀ b s', Leads s s' → Sound P s' (f b) R) : Sound P s (eat l >>= f) R := by
  rw [eat, bind_assoc]
  refine sound_at? fun b => ?_
  cases b with
  | true =>
    simp only [reduceIte, bind_assoc]
    exact sound_advance fun s' hs => hf true s' hs
  | false => exact hf false s (.refl s)

theorem sound_expect {l : Lexeme} {f : Span → Parser β}
    (hf : ∀ span s', Leads s s' → Sound P s' (f span) R) : Sound P s (expect l >>= f) R := by
  rw [expect, bind_assoc]
  refine sound_peekSpan fun span => ?_
  rw [bind_assoc]
  refine sound_at? fun b => ?_
  cases b with
  | true =>
    simp only [reduceIte, bind_assoc]
    exact sound_advance fun s' hs => hf span s' hs
  | false =>
    simp only [Bool.false_eq_true, reduceIte, bind_assoc]
    refine sound_peek (sound_reportHere fun s' hs => ?_)
    exact (hf span s' hs).mono False.elim fun _ _ _ h => h.elim

theorem sound_expectIdent {f : String × Span → Parser β}
    (hf : ∀ name span s', Leads s s' → Sound (P ∧ isWord name = true) s' (f (name, span)) R) :
    Sound P s (expectIdent >>= f) R := by
  rw [expectIdent, bind_assoc]
  refine sound_peekSpan fun span => ?_
  rw [bind_assoc]
  refine sound_peek ?_
  split
  · next name hname =>
    rw [bind_assoc]
    have hadvance : Sound P s advance fun _ _ => isWord name = true :=
      ⟨leads_advance s, fun hs _ _ => hs.word hname⟩
    exact hadvance.bind fun _ s' hs => hf name span s' hs
  · rw [bind_assoc]
    refine sound_reportHere fun s' hs => ?_
    exact (hf missingName span s' hs).mono False.elim fun _ _ _ h => h.elim

theorem Sound.iterate {I : β → ParseState → Prop} {more : Lexeme → Bool}
    {step : β → Parser (β × Bool)} {acc : β}
    (hstep : ∀ acc s', Leads s s' → more s'.lexeme = true →
      Sound (P ∧ I acc s') s' (step acc) fun r s'' => I r.1 s'')
    (hI : Proper s → P → I acc s) : Sound P s (Parser.iterate more step acc) I := by
  -- a step from a state that was reached without a report
  have hgo : ∀ acc s', more s'.lexeme = true → (Leads s s' ∧
      (Proper s → P → s'.faults.size = s.faults.size → I acc s')) → (Leads s (step acc s').2 ∧
      (Proper s → P → (step acc s').2.faults.size = s.faults.size →
        I (step acc s').1.1 (step acc s').2)) := by
    rintro acc s' hmore ⟨hleads, hacc⟩
    obtain ⟨hleads', hnext⟩ := hstep acc s' hleads hmore
    refine ⟨hleads.trans hleads', fun hs hP hfaults => ?_⟩
    have hfirst : s'.faults.size = s.faults.size := by
      have h₁ := hleads.faults
      have h₂ := hleads'.faults
      omega
    exact hnext (hs.leads hleads) ⟨hP, hacc hs hP hfirst⟩ (hfaults.trans hfirst.symm)
  have hloop : ∀ acc s', (Leads s s' ∧
      (Proper s → P → s'.faults.size = s.faults.size → I acc s')) →
      (Leads s (Parser.iterate more step acc s').2 ∧
        (Proper s → P → (Parser.iterate more step acc s').2.faults.size = s.faults.size →
          I (Parser.iterate more step acc s').1 (Parser.iterate more step acc s').2)) := by
    intro acc s'
    fun_induction Parser.iterate more step acc s' with
    | case1 acc s' hmore r _ _ ih => exact fun h => ih (hgo acc s' hmore h)
    | case2 acc s' hmore r _ _ => exact hgo acc s' hmore
    | case3 acc s' hmore r _ => exact hgo acc s' hmore
    | case4 acc s' _ => exact fun h => h
  exact hloop acc s ⟨.refl s, fun hs hP _ => hI hs hP⟩

theorem Sound.many {J : List α → ParseState → Prop} {more : Lexeme → Bool} {item : Parser α}
    (hitem : ∀ as s', Leads s s' → more s'.lexeme = true →
      Sound (P ∧ J as s') s' item fun a s'' => J (as ++ [a]) s'')
    (hJ : Proper s → P → J [] s) : Sound P s (Parser.many more item) J := by
  refine Sound.bind (Q := fun acc s' => J acc.reverse s')
    (Sound.iterate (fun acc s' hs hmore => ?_) hJ) fun acc s' _ => sound_pure fun _ h => h.2
  refine (hitem acc.reverse s' hs hmore).bind fun a s'' _ => sound_pure fun _ h => ?_
  rw [List.reverse_cons]
  exact h.2

end Rules

theorem leads_skipToClose (s : ParseState) : Leads s (skipToClose s).2 := by
  have hsound : Sound True s skipToClose fun _ _ => True := by
    refine Sound.bind (Q := fun _ _ => True) (Sound.iterate (fun depth s' _ _ => ?_) fun _ _ => trivial)
      fun _ _ _ => sound_pure fun _ _ => trivial
    refine sound_peek ?_
    split
    · exact sound_advance fun _ _ => sound_pure fun _ _ => trivial
    · split
      · exact sound_pure fun _ _ => trivial
      · exact sound_advance fun _ _ => sound_pure fun _ _ => trivial
    · exact sound_advance fun _ _ => sound_pure fun _ _ => trivial
  exact hsound.1

theorem leads_skipForm (s : ParseState) : Leads s (skipForm s).2 := by
  have hsound : Sound True s skipForm fun _ _ => True := by
    refine sound_eat fun opened s' _ => ?_
    split
    · exact Sound.skip leads_skipToClose fun _ _ _ => sound_eat fun _ _ _ => sound_pure fun _ _ => trivial
    · refine sound_peek ?_
      split
      · exact ⟨leads_advance s', fun _ _ _ => trivial⟩
      · exact sound_pure fun _ _ => trivial
  exact hsound.1

/-! ## Types and references -/

section References

variable {P : Prop} {s : ParseState}

theorem sound_tyParams {item : Parser Ty}
    (hitem : ∀ {P : Prop} {s : ParseState}, Sound P s item fun t _ => t.isReadable = true) :
    Sound P s (tyParams item) fun ts _ => Ty.areReadable ts = true := by
  have happend : ∀ {ts : List Ty} {t : Ty}, Ty.areReadable ts = true → t.isReadable = true →
      Ty.areReadable (ts ++ [t]) = true := by
    intro ts t hts ht
    induction ts with
    | nil => simp [Ty.areReadable, ht]
    | cons u ts ih =>
      rw [Ty.areReadable, Bool.and_eq_true] at hts
      simp [Ty.areReadable, hts.1, ih hts.2]
  refine Sound.bind (Q := fun acc _ => Ty.areReadable acc.reverse = true)
    (Sound.iterate (fun acc s' _ _ => ?_) fun _ _ => rfl) fun _ _ _ => sound_pure fun _ h => h.2
  refine hitem.bind fun t s₁ _ => sound_eat fun more s₂ _ => sound_pure fun _ h => ?_
  rw [List.reverse_cons]
  exact happend h.1.2 h.2

theorem sound_tyNested (nesting : Nat) :
    Sound P s (tyNested nesting) fun t _ => t.isReadable = true := by
  induction nesting generalizing P s with
  | zero => exact sound_pure fun _ _ => rfl
  | succ nesting ih =>
    refine sound_peek ?_
    split
    · refine sound_advance fun s₁ _ => ih.bind fun t s₂ _ => sound_expect fun _ s₃ _ => ?_
      exact sound_pure fun _ h => h.2
    · next name hname =>
      have hword : Sound P s advance fun _ _ => isWord name = true :=
        ⟨leads_advance s, fun hs _ _ => hs.word hname⟩
      refine hword.bind fun _ s₁ _ => ?_
      split
      · next t ht => 
        refine sound_pure fun _ _ => ?_
        unfold Ty.builtin? at ht
        split at ht <;> cases ht <;> rfl
      · next hbuiltin =>
        refine sound_at? fun paren => ?_
        split
        · refine sound_advance fun s₂ _ => (sound_tyParams ih).bind fun ts s₃ _ => ?_
          refine sound_expect fun _ s₄ _ => sound_expect fun _ s₅ _ => ih.bind fun t s₆ _ => ?_
          refine sound_pure fun _ h => ?_
          rw [Ty.isReadable, Bool.and_eq_true]
          exact ⟨h.1.2, h.2⟩
        · refine sound_at? fun less => ?_
          split
          · refine sound_advance fun s₂ _ => ih.bind fun t s₃ _ => sound_expect fun _ s₄ _ => ?_
            exact sound_pure fun _ h => h.2
          · refine sound_pure fun _ h => ?_
            rw [Ty.isReadable, Bool.and_eq_true, Option.isNone_iff_eq_none]
            exact ⟨h.2, hbuiltin⟩
    · refine sound_reportHere fun s₁ _ => ?_
      split
      · exact sound_advance fun s₂ _ => sound_pure fun _ h => h.elim
      · exact sound_pure fun _ h => h.elim

theorem sound_ty : Sound P s ty fun t _ => t.isReadable = true :=
  sound_get (sound_tyNested _)

theorem sound_path : Sound P s path fun p _ => isWord p.1 = true ∧ isWord p.2 = true := by
  refine sound_expectIdent fun owner _ s₁ _ => sound_expect fun _ s₂ _ => ?_
  exact sound_expectIdent fun name _ s₃ _ => sound_pure fun _ h => ⟨h.1.2, h.2⟩

theorem sound_memberTail (kind : MemberKind) :
    Sound P s (memberTail kind) fun m _ => m.isReadable = true := by
  refine sound_path.bind fun path s₁ _ => sound_ty.bind fun t s₂ _ => sound_closure? ?_
  refine sound_pure fun _ h => Member.isReadable_iff.2 ⟨?_, h.1.2.2, h.2⟩
  split <;> exact h.1.2.1

theorem sound_memberRef : Sound P s memberRef fun m _ => m.isReadable = true := by
  have hrest : ∀ {P : Prop} {s : ParseState} (kind : MemberKind), Sound P s (do
      let member ← memberTail kind
      let _ ← expect .rparen
      return member) fun m _ => m.isReadable = true := fun kind =>
    (sound_memberTail kind).bind fun m s₁ _ => sound_expect fun _ s₂ _ => sound_pure fun _ h => h.2
  refine sound_expect fun _ s₁ _ => sound_expectIdent fun word _ s₂ _ => ?_
  simp only
  split
  · exact hrest _
  · exact hrest _
  · exact sound_report fun s₃ _ => hrest _

theorem sound_members : Sound P s (manyForms memberRef) fun ms _ => ∀ m ∈ ms, m.isReadable = true := by
  refine Sound.many (fun ms s₁ _ _ => ?_) (by simp)
  refine sound_memberRef.mono (fun h => h) fun m s₂ _ h _ hm => ?_
  intro m' hm'
  rcases List.mem_append.1 hm' with hm' | hm'
  · exact h.2 m' hm'
  · rwa [List.mem_singleton.1 hm']

end References

end Parser

end ExprTree
