import ExprTree.Proofs.PrintedText
import ExprTree.Proofs.ReaderParts

/-!
# Reading given lexemes

`Takes scopes closures x ls next P` says what the reader `x` does where the lexemes `ls` lie ahead and
are followed by a lexeme that satisfies `next`: it takes exactly `ls`, reports nothing, leaves scopes
and closures as they are, and gives something that satisfies `P`. Most readers do not look at the
lexeme behind what they take; a reader of types does, since `Fn` and `Expr` are plain names unless a
parenthesis or `<` follows.

There is a lemma for each elementary reader, in the form in which it stands before the rest of a
reader, and one for loops. From these follow the lemmas for types and references.
-/

namespace ExprTree

namespace Parser

variable {α β : Type}

/-- Where `ls` and then a lexeme that satisfies `next` lie ahead, the reader takes `ls` without a
report, and gives something that satisfies `P`. -/
def Takes (scopes : List (String × Variable)) (closures : List (String × Closure Value))
    (x : Parser α) (ls : List Lexeme) (next : Lexeme → Prop) (P : α → Prop) : Prop :=
  ∀ s : ParseState, s.scopes = scopes → s.closures = closures → ∀ l rest, next l →
    s.tokens.map (·.lexeme) = ls ++ l :: rest →
    ∃ a tokens supply, x s = (a, { s with tokens := tokens, supply := supply }) ∧
      tokens.map (·.lexeme) = l :: rest ∧ P a

/-- No condition on the lexeme behind. -/
def Anything : Lexeme → Prop := fun _ => True

section Readers

variable {scopes : List (String × Variable)} {closures : List (String × Closure Value)}
  {ls ls' : List Lexeme} {next next' : Lexeme → Prop} {P : α → Prop} {Q : β → Prop}

theorem takes_pure {a : α} (h : P a) : Takes scopes closures (pure a) [] next P :=
  fun s _ _ _ _ _ hs => ⟨a, s.tokens, s.supply, rfl, hs, h⟩

theorem Takes.imp {P' : α → Prop} {x : Parser α} (h : Takes scopes closures x ls next P)
    (hP : ∀ a, P a → P' a) (hnext : ∀ l, next' l → next l) :
    Takes scopes closures x ls next' P' := by
  intro s hscopes hclosures l rest hl hs
  obtain ⟨a, tokens, supply, hrun, htokens, ha⟩ := h s hscopes hclosures l rest (hnext l hl) hs
  exact ⟨a, tokens, supply, hrun, htokens, hP a ha⟩

/-- Before lexemes that are read next, and the one behind them, lies the first of all of these. -/
theorem exists_ahead (ls : List Lexeme) (l : Lexeme) (rest : List Lexeme) :
    ∃ rest', ls ++ l :: rest = ls.head?.getD l :: rest' := by
  cases ls with
  | nil => exact ⟨rest, rfl⟩
  | cons l' ls => exact ⟨ls ++ l :: rest, rfl⟩

/-- One reader after the other; the lexeme behind the first is the first one of the second. -/
theorem Takes.bind {x : Parser α} {f : α → Parser β} (hx : Takes scopes closures x ls next P)
    (hf : ∀ a, P a → Takes scopes closures (f a) ls' next' Q)
    (hnext : ∀ l, next' l → next (ls'.head?.getD l)) :
    Takes scopes closures (x >>= f) (ls ++ ls') next' Q := by
  intro s hscopes hclosures l rest hl hs
  obtain ⟨rest', hsplit⟩ := exists_ahead ls' l rest
  rw [List.append_assoc, hsplit] at hs
  obtain ⟨a, tokens, supply, hrun, htokens, ha⟩ :=
    hx s hscopes hclosures _ rest' (hnext l hl) hs
  obtain ⟨b, tokens', supply', hrun', htokens', hb⟩ := hf a ha
    { s with tokens := tokens, supply := supply } hscopes hclosures l rest hl
    (htokens.trans hsplit.symm)
  refine ⟨b, tokens', supply', ?_, htokens', hb⟩
  show f (x s).1 (x s).2 = _
  rw [hrun, hrun']

/-- One reader after another that does not look at what lies behind. -/
theorem Takes.andThen {x : Parser α} {f : α → Parser β} (hx : Takes scopes closures x ls Anything P)
    (hf : ∀ a, P a → Takes scopes closures (f a) ls' next Q) :
    Takes scopes closures (x >>= f) (ls ++ ls') next Q :=
  hx.bind hf fun _ _ => trivial

/-- One reader after the other, where the second takes nothing. -/
theorem Takes.last {x : Parser α} {f : α → Parser β} (hx : Takes scopes closures x ls next P)
    (hf : ∀ a, P a → Takes scopes closures (f a) [] next' Q) (hnext : ∀ l, next' l → next l) :
    Takes scopes closures (x >>= f) ls next' Q := by
  have hbind := hx.bind hf hnext
  rwa [List.append_nil] at hbind

/-- Something is made of what a reader gives. -/
theorem Takes.thenPure {x : Parser α} {f : α → β} (hx : Takes scopes closures x ls next P)
    (hf : ∀ a, P a → Q (f a)) : Takes scopes closures (x >>= fun a => pure (f a)) ls next Q :=
  hx.last (fun a ha => takes_pure (hf a ha)) fun _ hl => hl

/-! ## Elementary readers -/

/-- The lexeme at hand when `ls` lies ahead. -/
theorem lexeme_of_ahead {s : ParseState} {l : Lexeme} {rest : List Lexeme}
    (h : s.tokens.map (·.lexeme) = ls ++ l :: rest) : s.lexeme = ls.head?.getD l := by
  unfold ParseState.lexeme
  split
  · next t tokens htokens =>
    rw [htokens] at h
    cases ls with
    | nil => exact (List.cons.inj h).1
    | cons l' ls => exact (List.cons.inj h).1
  · next htokens =>
    rw [htokens] at h
    cases ls <;> cases h

theorem next_of_ahead {s : ParseState} {l l' : Lexeme} {rest : List Lexeme}
    (h : s.tokens.map (·.lexeme) = l' :: ls ++ l :: rest) :
    ∃ tokens, s.next = { s with tokens := tokens } ∧
      tokens.map (·.lexeme) = ls ++ l :: rest := by
  unfold ParseState.next
  split
  · next t u tokens htokens =>
    rw [htokens] at h
    exact ⟨_, rfl, (List.cons.inj h).2⟩
  · next htokens =>
    match hs : s.tokens with
    | [] =>
      rw [hs] at h
      cases h
    | [t] =>
      rw [hs] at h
      have hnil := (List.cons.inj h).2
      simp at hnil
    | t :: u :: tokens => exact absurd hs (htokens t u tokens)

theorem takes_peek {f : Lexeme → Parser β} {l : Lexeme}
    (hf : Takes scopes closures (f l) (l :: ls) next Q) :
    Takes scopes closures (peek >>= f) (l :: ls) next Q := by
  intro s hscopes hclosures l' rest hl hs
  have hlexeme : s.lexeme = l := lexeme_of_ahead hs
  show ∃ a tokens supply, f s.lexeme s = _ ∧ _
  rw [hlexeme]
  exact hf s hscopes hclosures l' rest hl hs

theorem takes_peekSpan {f : Span → Parser β}
    (hf : ∀ span, Takes scopes closures (f span) ls next Q) :
    Takes scopes closures (peekSpan >>= f) ls next Q :=
  fun s => hf s.span s

theorem takes_advance {f : Unit → Parser β} {l : Lexeme}
    (hf : Takes scopes closures (f ()) ls next Q) :
    Takes scopes closures (advance >>= f) (l :: ls) next Q := by
  intro s hscopes hclosures l' rest hl hs
  obtain ⟨tokens, hnext, htokens⟩ := next_of_ahead hs
  show ∃ a tokens supply, f () s.next = _ ∧ _
  rw [hnext]
  exact hf { s with tokens := tokens } hscopes hclosures l' rest hl htokens

theorem takes_at? {f : Bool → Parser β} {l : Lexeme} {b : Bool}
    (hb : ∀ l', next l' → (ls.head?.getD l' == l) = b)
    (hf : Takes scopes closures (f b) ls next Q) :
    Takes scopes closures (at? l >>= f) ls next Q := by
  intro s hscopes hclosures l' rest hl hs
  show ∃ a tokens supply, f (s.lexeme == l) s = _ ∧ _
  rw [lexeme_of_ahead hs, hb l' hl]
  exact hf s hscopes hclosures l' rest hl hs

theorem takes_at?_any {f : Bool → Parser β} {l : Lexeme}
    (hf : ∀ b, Takes scopes closures (f b) ls next Q) :
    Takes scopes closures (at? l >>= f) ls next Q :=
  fun s => hf (s.lexeme == l) s

theorem takes_eat {f : Bool → Parser β} {l : Lexeme}
    (hf : Takes scopes closures (f true) ls next Q) :
    Takes scopes closures (eat l >>= f) (l :: ls) next Q := by
  rw [eat, bind_assoc]
  refine takes_at? (b := true) (fun _ _ => beq_self_eq_true l) ?_
  simp only [reduceIte, bind_assoc]
  exact takes_advance hf

theorem takes_eat_other {f : Bool → Parser β} {l : Lexeme}
    (hother : ∀ l', next l' → ls.head?.getD l' ≠ l)
    (hf : Takes scopes closures (f false) ls next Q) :
    Takes scopes closures (eat l >>= f) ls next Q := by
  rw [eat, bind_assoc]
  refine takes_at? (b := false) (fun l' hl => beq_eq_false_iff_ne.2 (hother l' hl)) ?_
  exact hf

theorem takes_expect {f : Span → Parser β} {l : Lexeme}
    (hf : ∀ span, Takes scopes closures (f span) ls next Q) :
    Takes scopes closures (expect l >>= f) (l :: ls) next Q := by
  rw [expect, bind_assoc]
  refine takes_peekSpan fun span => ?_
  rw [bind_assoc]
  refine takes_at? (b := true) (fun _ _ => beq_self_eq_true l) ?_
  simp only [reduceIte, bind_assoc]
  exact takes_advance (hf span)

theorem takes_expectIdent {f : String × Span → Parser β} {name : String}
    (hf : ∀ span, Takes scopes closures (f (name, span)) ls next Q) :
    Takes scopes closures (expectIdent >>= f) (.ident name :: ls) next Q := by
  rw [expectIdent, bind_assoc]
  refine takes_peekSpan fun span => ?_
  rw [bind_assoc]
  refine takes_peek ?_
  simp only [bind_assoc]
  exact takes_advance (hf span)

/-- The state can be asked for; it has what lies ahead. -/
theorem takes_get {f : ParseState → Parser β}
    (hf : ∀ s : ParseState, s.scopes = scopes → s.closures = closures →
      ls <+: s.tokens.map (·.lexeme) → ls.length ≤ s.tokens.length →
      Takes scopes closures (f s) ls next Q) :
    Takes scopes closures (get >>= f) ls next Q := by
  intro s hscopes hclosures l rest hl hs
  have hpre : ls <+: s.tokens.map (·.lexeme) := hs ▸ List.prefix_append ls (l :: rest)
  have hlength := hpre.length_le
  rw [List.length_map] at hlength
  exact hf s hscopes hclosures hpre hlength s hscopes hclosures l rest hl hs

theorem takes_closure? {f : Option (Closure Value) → Parser β} {name : String}
    (hf : Takes scopes closures (f (closures.lookup name)) ls next Q) :
    Takes scopes closures (closure? name >>= f) ls next Q := by
  intro s hscopes hclosures l rest hl hs
  subst hclosures
  exact hf s hscopes rfl l rest hl hs

theorem takes_alloc {n : Node} {P : Expr → Prop} (h : ∀ label, P (.mk label n)) :
    Takes scopes closures (draw n.alloc) [] next P :=
  fun s _ _ _ _ _ hs => ⟨_, _, _, rfl, hs, h s.supply.next⟩

theorem takes_allocVariable {f : Variable → Parser β} {name : String} {ty : Ty}
    (hf : ∀ id, Takes scopes closures (f ⟨id, name, ty⟩) ls next Q) :
    Takes scopes closures (draw (Variable.alloc name ty) >>= f) ls next Q := by
  intro s hscopes hclosures l rest hl hs
  exact hf s.supply.next { s with supply := ⟨s.supply.next + 1⟩ } hscopes hclosures l rest hl hs

/-! ## Loops -/

section Loops

variable {more : Lexeme → Bool} {step : β → Parser (β × Bool)} {acc : β} {l₀ : Lexeme}

theorem takes_iterate_stop (hstop : ∀ l, next l → more l = false) (h : Q acc) :
    Takes scopes closures (iterate more step acc) [] next Q := by
  intro s _ _ l rest hl hs
  have hmore : more s.lexeme = false := by
    rw [lexeme_of_ahead hs]
    exact hstop l hl
  refine ⟨acc, s.tokens, s.supply, ?_, hs, h⟩
  rw [iterate, hmore, if_neg Bool.false_ne_true]

/-- An item that ends the loop. -/
theorem takes_iterate_last (hmore : more l₀ = true)
    (hstep : Takes scopes closures (step acc) (l₀ :: ls) next fun r => Q r.1 ∧ r.2 = false) :
    Takes scopes closures (iterate more step acc) (l₀ :: ls) next Q := by
  intro s hscopes hclosures l rest hl hs
  have hmore : more s.lexeme = true := by
    rw [lexeme_of_ahead hs]
    exact hmore
  obtain ⟨⟨acc', go⟩, tokens, supply, hrun, htokens, hacc, rfl⟩ :=
    hstep s hscopes hclosures l rest hl hs
  refine ⟨acc', tokens, supply, ?_, htokens, hacc⟩
  rw [iterate, if_pos hmore, hrun]
  rfl

/-- An item takes at least the lexeme that starts it, so the loop may go on. -/
theorem length_lt_of_taken {tokens tokens' : List Token} {rest : List Lexeme}
    (h : tokens.map (·.lexeme) = l₀ :: ls ++ rest) (h' : tokens'.map (·.lexeme) = rest) :
    tokens'.length < tokens.length := by
  have hlength := congrArg List.length h
  have hlength' := congrArg List.length h'
  simp only [List.length_map, List.length_append, List.length_cons] at hlength hlength'
  omega

/-- An item, and then the loop goes on. -/
theorem takes_iterate_go (between : Lexeme → Prop) (hmore : more l₀ = true)
    (hstep : Takes scopes closures (step acc) (l₀ :: ls) between fun r =>
      Takes scopes closures (iterate more step r.1) ls' next' Q ∧ r.2 = true)
    (hnext : ∀ l, next' l → between (ls'.head?.getD l)) :
    Takes scopes closures (iterate more step acc) (l₀ :: ls ++ ls') next' Q := by
  intro s hscopes hclosures l rest hl hs
  obtain ⟨rest', hsplit⟩ := exists_ahead ls' l rest
  rw [List.append_assoc, hsplit] at hs
  have hmore : more s.lexeme = true := by
    rw [lexeme_of_ahead hs]
    exact hmore
  obtain ⟨⟨acc', go⟩, tokens, supply, hrun, htokens, hrest, rfl⟩ :=
    hstep s hscopes hclosures _ rest' (hnext l hl) hs
  have hshorter := length_lt_of_taken hs htokens
  obtain ⟨b, tokens', supply', hrun', htokens', hb⟩ := hrest
    { s with tokens := tokens, supply := supply } hscopes hclosures l rest hl
    (htokens.trans hsplit.symm)
  refine ⟨b, tokens', supply', ?_, htokens', hb⟩
  rw [iterate, if_pos hmore, hrun]
  simp only [reduceIte, if_pos hshorter, hrun']

end Loops

/-- A list of items, each of which starts with a lexeme that lets the loop go on. -/
theorem takes_many {γ : Type} {more : Lexeme → Bool} {item : Parser α} {R : γ → α → Prop}
    {cs : List γ} {lss : List (List Lexeme)}
    (hitems : List.Forall₂ (fun c ls => (∃ l ls', ls = l :: ls' ∧ more l = true) ∧
      Takes scopes closures item ls Anything (R c)) cs lss)
    (hstop : ∀ l, next l → more l = false) :
    Takes scopes closures (many more item) lss.flatten next (List.Forall₂ R cs) := by
  have hloop : ∀ done acc, List.Forall₂ R done (acc : List α).reverse →
      Takes scopes closures (iterate more (fun acc => do return ((← item) :: acc, true)) acc)
        lss.flatten next fun acc => List.Forall₂ R (done ++ cs) acc.reverse := by
    induction hitems with
    | nil =>
      intro done acc hacc
      rw [List.append_nil]
      exact takes_iterate_stop hstop hacc
    | @cons c ls cs lss hitem _ ih =>
      obtain ⟨⟨first, ls', rfl, hfirst⟩, htake⟩ := hitem
      intro done acc hacc
      refine takes_iterate_go Anything hfirst ?_ fun _ _ => trivial
      refine htake.thenPure fun a ha => ⟨?_, rfl⟩
      have hrest := ih (done ++ [c]) (a :: acc) (by
        rw [List.reverse_cons]
        exact List.rel_append hacc (.cons ha .nil))
      rwa [List.append_assoc, List.singleton_append] at hrest
  exact (hloop [] [] .nil).thenPure fun acc hacc => List.nil_append cs ▸ hacc

end Readers

/-! ## Types -/

end Parser

mutual

/-- Is `Fn` nowhere in the type a plain name? -/
def Ty.avoidsFn : Ty → Bool
  | .named name => name != "Fn"
  | .array t | .expr t => t.avoidsFn
  | .func params ret => Ty.avoidFn params && ret.avoidsFn
  | _ => true

/-- Is `Fn` nowhere in the types a plain name? -/
def Ty.avoidFn : List Ty → Bool
  | [] => true
  | t :: ts => t.avoidsFn && Ty.avoidFn ts

end

theorem Ty.head_lexemes (t : Ty) : ∃ l ls, t.lexemes = l :: ls ∧ Parser.endsForm l = false := by
  cases t <;> exact ⟨_, _, rfl, rfl⟩

namespace Parser

variable {scopes : List (String × Variable)} {closures : List (String × Closure Value)}

/-- The next lexeme does not continue a type. -/
def EndsTy (l : Lexeme) : Prop := l ≠ .less

theorem takes_builtin {name : String} {t : Ty} (nesting : Nat) (h : Ty.builtin? name = some t) :
    Takes scopes closures (tyNested (nesting + 1)) [.ident name] EndsTy (· = t) := by
  rw [tyNested]
  refine takes_peek ?_
  simp only [h]
  exact takes_advance (takes_pure rfl)

mutual

/-- The lexemes of a type are read as the type. -/
theorem takes_tyNested : ∀ {t : Ty} (nesting : Nat), t.isReadable = true → t.avoidsFn = true →
    t.lexemes.length ≤ nesting → Takes scopes closures (tyNested nesting) t.lexemes EndsTy (· = t)
  | t, 0, _, _, hlength => by
    obtain ⟨l, ls, hls, -⟩ := Ty.head_lexemes t
    rw [hls] at hlength
    cases hlength
  | .unit, n + 1, _, _, _ | .bool, n + 1, _, _, _ | .int, n + 1, _, _, _ | .float, n + 1, _, _, _
  | .str, n + 1, _, _, _ | .object, n + 1, _, _, _ => takes_builtin n rfl
  | .named name, n + 1, hreadable, havoids, _ => by
    rw [Ty.isReadable, Bool.and_eq_true, Option.isNone_iff_eq_none] at hreadable
    have hFn : (name == "Fn") = false := by simpa [Ty.avoidsFn] using havoids
    rw [tyNested]
    refine takes_peek (takes_advance ?_)
    simp only [hreadable.2, hFn, Bool.false_and, Bool.false_eq_true, reduceIte]
    refine takes_at?_any fun _ => ?_
    refine takes_at? (b := false) (fun l hl => beq_eq_false_iff_ne.2 hl) ?_
    simp only [Bool.and_false, Bool.false_eq_true, reduceIte]
    exact takes_pure rfl
  | .array t, n + 1, hreadable, havoids, hlength => by
    rw [Ty.isReadable] at hreadable
    rw [Ty.avoidsFn] at havoids
    have hlength : t.lexemes.length ≤ n := by
      simp only [Ty.lexemes, List.length_cons, List.length_append] at hlength
      omega
    rw [tyNested, Ty.lexemes]
    refine takes_peek (takes_advance ?_)
    refine (takes_tyNested n hreadable havoids hlength).bind ?_ fun _ _ => Lexeme.noConfusion
    rintro _ rfl
    exact takes_expect fun _ => takes_pure rfl
  | .func params ret, n + 1, hreadable, havoids, hlength => by
    rw [Ty.isReadable, Bool.and_eq_true] at hreadable
    rw [Ty.avoidsFn, Bool.and_eq_true] at havoids
    simp only [Ty.lexemes, List.length_cons, List.length_append] at hlength
    rw [tyNested, Ty.lexemes]
    refine takes_peek (takes_advance ?_)
    simp only [Ty.builtin?]
    refine takes_at? (b := true) (fun _ _ => rfl) (takes_advance ?_)
    refine (takes_tyParams n hreadable.1 havoids.1 (by omega)).bind ?_ fun _ _ => rfl
    rintro _ rfl
    refine takes_expect fun _ => takes_expect fun _ => ?_
    refine (takes_tyNested n hreadable.2 havoids.2 (by omega)).thenPure ?_
    rintro _ rfl
    rfl
  | .expr t, n + 1, hreadable, havoids, hlength => by
    rw [Ty.isReadable] at hreadable
    rw [Ty.avoidsFn] at havoids
    have hlength : t.lexemes.length ≤ n := by
      simp only [Ty.lexemes, List.length_cons, List.length_append] at hlength
      omega
    rw [tyNested, Ty.lexemes]
    refine takes_peek (takes_advance ?_)
    simp only [Ty.builtin?]
    refine takes_at?_any fun _ => ?_
    refine takes_at? (b := true) (fun _ _ => rfl) (takes_advance ?_)
    refine (takes_tyNested n hreadable havoids hlength).bind ?_ fun _ _ => Lexeme.noConfusion
    rintro _ rfl
    exact takes_expect fun _ => takes_pure rfl

theorem takes_tyParams {ts : List Ty} (nesting : Nat) (hreadable : Ty.areReadable ts = true)
    (havoid : Ty.avoidFn ts = true) (hlength : (Ty.lexemesOfParams ts).length ≤ nesting) :
    Takes scopes closures (tyParams (tyNested nesting)) (Ty.lexemesOfParams ts) (· = .rparen)
      (· = ts) := by
  refine (takes_tyParamsLoop nesting [] hreadable havoid hlength).thenPure ?_
  rintro _ rfl
  simp

theorem takes_tyParamsLoop : ∀ {ts : List Ty} (nesting : Nat) (acc : List Ty),
    Ty.areReadable ts = true → Ty.avoidFn ts = true → (Ty.lexemesOfParams ts).length ≤ nesting →
    Takes scopes closures (iterate (fun l => !endsForm l) (fun acc => do
      let param ← tyNested nesting
      let more ← eat .comma
      return (param :: acc, more)) acc) (Ty.lexemesOfParams ts) (· = .rparen)
      (· = ts.reverse ++ acc)
  | [], _, acc, _, _, _ => by
    refine takes_iterate_stop ?_ rfl
    rintro _ rfl
    rfl
  | [t], nesting, acc, hreadable, havoid, hlength => by
    rw [Ty.areReadable, Bool.and_eq_true] at hreadable
    rw [Ty.avoidFn, Bool.and_eq_true] at havoid
    obtain ⟨l, ls, hls, hfirst⟩ := Ty.head_lexemes t
    have hitem := takes_tyNested nesting hreadable.1 havoid.1 hlength
    rw [Ty.lexemesOfParams]
    rw [hls] at hitem ⊢
    refine takes_iterate_last (by rw [hfirst]; rfl) (hitem.last ?_ ?_)
    · rintro _ rfl
      refine takes_eat_other ?_ (takes_pure ⟨rfl, rfl⟩)
      rintro _ rfl
      exact Lexeme.noConfusion
    · rintro _ rfl
      exact Lexeme.noConfusion
  | t :: t' :: ts, nesting, acc, hreadable, havoid, hlength => by
    rw [Ty.areReadable, Bool.and_eq_true] at hreadable
    rw [Ty.avoidFn, Bool.and_eq_true] at havoid
    obtain ⟨l, ls, hls, hfirst⟩ := Ty.head_lexemes t
    rw [Ty.lexemesOfParams] at hlength ⊢
    · rw [List.length_append, List.length_cons] at hlength
      have hitem := takes_tyNested nesting hreadable.1 havoid.1 (by omega)
      have hrest := takes_tyParamsLoop nesting (t :: acc) hreadable.2 havoid.2 (by omega)
      rw [hls] at hitem ⊢
      have hsplit : l :: ls ++ .comma :: Ty.lexemesOfParams (t' :: ts) =
          l :: (ls ++ [.comma]) ++ Ty.lexemesOfParams (t' :: ts) := by simp
      rw [hsplit]
      refine takes_iterate_go Anything (by rw [hfirst]; rfl) (hitem.bind ?_ ?_)
        fun _ _ => trivial
      · rintro _ rfl
        refine takes_eat (takes_pure ⟨?_, rfl⟩)
        rwa [List.reverse_cons, List.append_assoc]
      · exact fun _ _ => Lexeme.noConfusion
    all_goals simp

end

/-- A readable type is read from its lexemes. -/
theorem takes_ty {t : Ty} (hreadable : t.isReadable = true) (havoids : t.avoidsFn = true) :
    Takes scopes closures ty t.lexemes EndsTy (· = t) :=
  takes_get fun _ _ _ _ hlength => takes_tyNested _ hreadable havoids hlength

/-! ## References -/

/-- The owner that a name in a path stands for. -/
def ownerIn (closures : List (String × Closure Value)) (name : String) : Owner :=
  if (closures.lookup name).isSome then .capture name else .type name

theorem takes_path (owner name : String) :
    Takes scopes closures path (pathLexemes owner name) Anything (· = (owner, name)) :=
  takes_expectIdent fun _ => takes_expect fun _ => takes_expectIdent fun _ => takes_pure rfl

theorem takes_memberTail {m : Member} (hreadable : m.ty.isReadable = true)
    (havoids : m.ty.avoidsFn = true) :
    Takes scopes closures (memberTail m.kind) (pathLexemes m.owner.name m.name ++ m.ty.lexemes)
      EndsTy (· = { m with owner := ownerIn closures m.owner.name }) := by
  refine (takes_path _ _).andThen ?_
  rintro _ rfl
  refine (takes_ty hreadable havoids).last ?_ fun _ hl => hl
  rintro _ rfl
  exact takes_closure? (takes_pure rfl)

theorem takes_memberRef {m : Member} (hreadable : m.ty.isReadable = true)
    (havoids : m.ty.avoidsFn = true) :
    Takes scopes closures memberRef m.lexemes Anything
      (· = { m with owner := ownerIn closures m.owner.name }) := by
  have hclose : ∀ member : Member, member = { m with owner := ownerIn closures m.owner.name } →
      Takes scopes closures (do
        let _ ← expect .rparen
        return member) [.rparen] Anything (· = { m with owner := ownerIn closures m.owner.name }) :=
    fun _ h => takes_expect fun _ => takes_pure h
  have hmember := (takes_memberTail hreadable havoids).bind hclose fun _ _ => Lexeme.noConfusion
  rw [memberRef, Member.lexemes]
  refine takes_expect fun _ => takes_expectIdent fun _ => ?_
  cases hkind : m.kind <;> rw [hkind] at hmember <;> exact hmember

end Parser

end ExprTree
