import ExprTree.Proofs.Reading

/-!
# Where readers report

Every report of a reader stands at the span of a token, or at a span that runs from one token to
another. So what holds of the spans of all tokens, and with two spans of the one around them, holds
of the spans of all reports. `Places P x Q` says that the reader `x` keeps this of the state, `P`
being what holds of the spans, and that `Q` holds of what it gives; the spans that readers hand on
to be reported later are given with `P`.
-/

namespace ExprTree

namespace Parser

variable {α β : Type}

/-- A property of spans that goes over to the span around two spans. -/
structure SpanProperty (P : Span → Prop) : Prop where
  origin : P ⟨0, 0⟩
  join : ∀ a b, P a → P b → P (a.join b)

/-- The property holds of the spans of the tokens and of the reports. -/
structure Placed (P : Span → Prop) (s : ParseState) : Prop where
  tokens : ∀ t ∈ s.tokens, P t.span
  faults : ∀ d ∈ s.faults, P d.span

/-- The reader keeps the property of the spans, and its result satisfies `Q`. -/
def Places (P : Span → Prop) (x : Parser α) (Q : α → Prop) : Prop :=
  ∀ s, Placed P s → Placed P (x s).2 ∧ Q (x s).1

/-- The reader keeps the property of the spans. -/
abbrev Keeps (P : Span → Prop) (x : Parser α) : Prop := Places P x fun _ => True

/-! ## Elementary readers -/

section Rules

variable {P : Span → Prop} {Q : α → Prop} {R : β → Prop}

theorem places_pure {a : α} (h : Q a) : Places P (pure a) Q := fun _ hs => ⟨hs, h⟩

theorem keeps_pure (a : α) : Keeps P (pure a) := places_pure trivial

theorem Places.bind {x : Parser α} {f : α → Parser β} (hx : Places P x Q)
    (hf : ∀ a, Q a → Places P (f a) R) : Places P (x >>= f) R := by
  intro s hs
  obtain ⟨hs', ha⟩ := hx s hs
  exact hf (x s).1 ha (x s).2 hs'

/-- A reader whose result carries no span. -/
theorem Places.after {x : Parser α} {f : α → Parser β} (hx : Keeps P x)
    (hf : ∀ a, Places P (f a) R) : Places P (x >>= f) R := hx.bind fun a _ => hf a

theorem Places.forget {x : Parser α} (hx : Places P x Q) : Keeps P x := fun s hs => ⟨(hx s hs).1, trivial⟩

/-- A reader that leaves the tokens and the reports alone. -/
theorem keeps_of_eq {x : Parser α} (h : ∀ s, (x s).2.tokens = s.tokens ∧ (x s).2.faults = s.faults) :
    Keeps P x := by
  intro s hs
  obtain ⟨htokens, hfaults⟩ := h s
  exact ⟨⟨htokens ▸ hs.tokens, hfaults ▸ hs.faults⟩, trivial⟩

theorem keeps_get : Keeps P (get : Parser ParseState) := keeps_of_eq fun _ => ⟨rfl, rfl⟩

theorem keeps_peek : Keeps P peek := keeps_of_eq fun _ => ⟨rfl, rfl⟩

theorem keeps_at? (l : Lexeme) : Keeps P (at? l) := keeps_of_eq fun _ => ⟨rfl, rfl⟩

theorem keeps_closure? (name : String) : Keeps P (closure? name) := keeps_of_eq fun _ => ⟨rfl, rfl⟩

theorem keeps_draw (f : Fresh α) : Keeps P (draw f) := keeps_of_eq fun _ => ⟨rfl, rfl⟩

theorem places_peekSpan (hP : SpanProperty P) : Places P peekSpan P := by
  refine fun s hs => ⟨hs, ?_⟩
  show P s.span
  unfold ParseState.span
  split
  · next t _ htokens => exact hs.tokens t (by simp [htokens])
  · exact hP.origin

theorem keeps_advance : Keeps P advance := by
  refine fun s hs => ⟨?_, trivial⟩
  show Placed P s.next
  unfold ParseState.next
  split
  · next htokens => exact ⟨fun t ht => hs.tokens t (htokens ▸ List.mem_cons_of_mem _ ht), hs.faults⟩
  · exact hs

theorem keeps_report {d : Diagnostic} (hd : P d.span) : Keeps P (report d) := by
  refine fun s hs => ⟨⟨hs.tokens, fun d' hd' => ?_⟩, trivial⟩
  rcases Array.mem_push.1 hd' with hd' | rfl
  · exact hs.faults d' hd'
  · exact hd

theorem keeps_reportHere (hP : SpanProperty P) (message : String) (help : Option String) :
    Keeps P (reportHere message help) :=
  (places_peekSpan hP).bind fun _ hspan => keeps_report hspan

/-- A step is taken or not, and reading goes on alike. -/
theorem Places.perhaps {c : Prop} [Decidable c] {x : Parser Unit} {f : Unit → Parser β} (hx : Keeps P x)
    (hf : ∀ u, Places P (f u) R) : Places P (if c then x >>= f else f ()) R := by
  split
  · exact .after hx hf
  · exact hf ()

theorem keeps_eat (l : Lexeme) : Keeps P (eat l) := by
  refine .after (keeps_at? l) fun here => ?_
  split
  · exact .after keeps_advance fun _ => keeps_pure _
  · exact keeps_pure _

theorem places_expect (hP : SpanProperty P) (l : Lexeme) : Places P (expect l) P := by
  refine (places_peekSpan hP).bind fun span hspan => .after (keeps_at? l) fun here => ?_
  split
  · exact .after keeps_advance fun _ => places_pure hspan
  · exact .after keeps_peek fun _ => .after (keeps_reportHere hP _ _) fun _ => places_pure hspan

theorem keeps_expect (hP : SpanProperty P) (l : Lexeme) : Keeps P (expect l) := (places_expect hP l).forget

theorem places_expectIdent (hP : SpanProperty P) : Places P expectIdent fun found => P found.2 := by
  refine (places_peekSpan hP).bind fun span hspan => .after keeps_peek fun l => ?_
  split
  · exact .after keeps_advance fun _ => places_pure hspan
  · exact .after (keeps_reportHere hP _ _) fun _ => places_pure hspan

theorem keeps_expectIdent (hP : SpanProperty P) : Keeps P expectIdent := (places_expectIdent hP).forget

theorem Keeps.iterate {more : Lexeme → Bool} {step : β → Parser (β × Bool)} (hstep : ∀ b, Keeps P (step b))
    (b : β) : Keeps P (iterate more step b) := fun s hs =>
  ⟨iterate_invariant (I := fun _ s => Placed P s) (fun b s hs => (hstep b s hs).1) b s hs, trivial⟩

theorem Keeps.many {more : Lexeme → Bool} {item : Parser α} (hitem : Keeps P item) : Keeps P (many more item) :=
  .after (Keeps.iterate (fun _ => .after hitem fun _ => keeps_pure _) []) fun _ => keeps_pure _

theorem keeps_skipToClose : Keeps P skipToClose := by
  refine .after (Keeps.iterate (fun depth => .after keeps_peek fun l => ?_) 0) fun _ => keeps_pure _
  split
  · exact .after keeps_advance fun _ => keeps_pure _
  · split
    · exact keeps_pure _
    · exact .after keeps_advance fun _ => keeps_pure _
  · exact .after keeps_advance fun _ => keeps_pure _

theorem keeps_skipForm : Keeps P skipForm := by
  refine .after (keeps_eat .lparen) fun opened => ?_
  split
  · exact .after keeps_skipToClose fun _ => .after (keeps_eat _) fun _ => keeps_pure _
  · refine .after keeps_peek fun l => ?_
    split
    · exact keeps_advance
    · exact keeps_pure _

end Rules

/-! ## Types and references -/

section Parts

variable {P : Span → Prop} (hP : SpanProperty P)

include hP

omit hP in
theorem keeps_tyParams {item : Parser Ty} (hitem : Keeps P item) : Keeps P (tyParams item) :=
  .after (Keeps.iterate (fun _ => .after hitem fun _ => .after (keeps_eat _) fun _ => keeps_pure _) [])
    fun _ => keeps_pure _

theorem keeps_tyNested (nesting : Nat) : Keeps P (tyNested nesting) := by
  induction nesting with
  | zero => exact keeps_pure _
  | succ nesting ih =>
    refine .after keeps_peek fun l => ?_
    split
    · exact .after keeps_advance fun _ => .after ih fun _ => .after (keeps_expect hP _) fun _ => keeps_pure _
    · refine .after keeps_advance fun _ => ?_
      split
      · exact keeps_pure _
      · refine .after (keeps_at? _) fun here => ?_
        split
        · exact .after keeps_advance fun _ => .after (keeps_tyParams ih) fun _ =>
            .after (keeps_expect hP _) fun _ => .after (keeps_expect hP _) fun _ => .after ih fun _ =>
              keeps_pure _
        · refine .after (keeps_at? _) fun here => ?_
          split
          · exact .after keeps_advance fun _ => .after ih fun _ => .after (keeps_expect hP _) fun _ =>
              keeps_pure _
          · exact keeps_pure _
    · exact .after (keeps_reportHere hP _ _) fun _ => .perhaps keeps_advance fun _ => keeps_pure _

theorem keeps_ty : Keeps P ty := .after keeps_get fun _ => keeps_tyNested hP _

theorem keeps_path : Keeps P path :=
  .after (keeps_expectIdent hP) fun _ => .after (keeps_expect hP _) fun _ =>
    .after (keeps_expectIdent hP) fun _ => keeps_pure _

theorem keeps_memberTail (kind : MemberKind) : Keeps P (memberTail kind) :=
  .after (keeps_path hP) fun _ => .after (keeps_ty hP) fun _ => .after (keeps_closure? _) fun _ => keeps_pure _

theorem keeps_memberRef : Keeps P memberRef := by
  refine .after (keeps_expect hP _) fun _ => (places_expectIdent hP).bind fun found hfound => ?_
  have hrest := fun kind => (Places.after (keeps_memberTail hP kind) fun member =>
    .after (keeps_expect hP .rparen) fun _ => keeps_pure member)
  simp only
  split
  · exact .after (keeps_pure _) hrest
  · exact .after (keeps_pure _) hrest
  · exact .after (keeps_report hfound) fun _ => .after (keeps_pure _) hrest

omit hP in
theorem keeps_resolveName (name : String) {span : Span} (hspan : P span) : Keeps P (resolveName name span) := by
  refine .after keeps_get fun s => ?_
  split
  · exact keeps_pure _
  · refine .after (keeps_closure? name) fun found => ?_
    split
    · exact keeps_pure _
    · exact .after (keeps_report hspan) fun _ => keeps_pure _

/-! ## Parts of forms -/

variable {expr : Parser Expr} (hexpr : Keeps P expr)

include hexpr

theorem keeps_value : Keeps P (value expr) := by
  have hliteral := fun v : Value => (Places.after (P := P) keeps_advance fun _ => keeps_pure v)
  refine .after keeps_peek fun l => ?_
  cases l with
  | integer n => exact hliteral (.int n)
  | float x => exact hliteral (.float x)
  | str s => exact hliteral (.str s)
  | true => exact hliteral (.bool true)
  | false => exact hliteral (.bool false)
  | null => exact hliteral .null
  | ident name =>
    refine (places_peekSpan hP).bind fun span hspan => .after keeps_advance fun _ =>
      .after (keeps_closure? name) fun found => ?_
    split
    · exact keeps_pure _
    · exact .after (keeps_report hspan) fun _ => keeps_pure _
  | _ =>
    refine .after keeps_get fun s => ?_
    split
    · exact .after keeps_advance fun _ => .after keeps_advance fun _ => .after hexpr fun _ =>
        .after (keeps_expect hP _) fun _ => keeps_pure _
    · exact .after (keeps_reportHere hP _ _) fun _ => .after keeps_skipForm fun _ => keeps_pure _

omit hP in
theorem keeps_exprs : Keeps P (exprs expr) := hexpr.many

omit hP in
theorem keeps_object : Keeps P (object expr) := by
  refine .after (keeps_eat _) fun absent => ?_
  split
  · exact keeps_pure _
  · exact .after hexpr fun _ => keeps_pure _

theorem keeps_lambda : Keeps P (lambda expr) := by
  refine .after (keeps_expect hP _) fun _ => .after (Keeps.iterate (fun acc => ?_) []) fun params =>
    .after (keeps_expect hP _) fun _ => .after keeps_get fun _ =>
      .after (keeps_of_eq fun _ => ⟨rfl, rfl⟩) fun _ => .after hexpr fun _ =>
        .after (keeps_of_eq fun _ => ⟨rfl, rfl⟩) fun _ => keeps_pure _
  exact .after keeps_advance fun _ => (places_expectIdent hP).bind fun found hfound =>
    .after (keeps_ty hP) fun ty => .after (keeps_expect hP _) fun _ =>
      .perhaps (keeps_report hfound) fun _ => .after (keeps_draw _) fun _ => keeps_pure _

theorem keeps_constructTail : Keeps P (constructTail expr) :=
  .after (keeps_ty hP) fun _ => .after (keeps_expect hP _) fun _ => .after (keeps_exprs hexpr) fun _ =>
    .after (keeps_expect hP _) fun _ => .after (keeps_memberRef hP).many fun _ => keeps_pure _

theorem keeps_constructForm : Keeps P (constructForm expr) :=
  .after (keeps_expect hP _) fun _ => (places_expectIdent hP).bind fun _ hfound =>
    .perhaps (keeps_report hfound) fun _ => .after (keeps_constructTail hP hexpr) fun _ =>
      .after (keeps_expect hP _) fun _ => keeps_pure _

theorem keeps_element : Keeps P (element expr) :=
  .after (keeps_expect hP _) fun _ => (places_expectIdent hP).bind fun _ hfound =>
    .perhaps (keeps_report hfound) fun _ => .after (keeps_path hP) fun _ =>
      .after (keeps_exprs hexpr) fun _ => .after (keeps_expect hP _) fun _ => keeps_pure _

theorem keeps_bindingNested (nesting : Nat) : Keeps P (bindingNested expr nesting) := by
  induction nesting with
  | zero => exact keeps_pure _
  | succ nesting ih =>
    refine (places_expect hP _).bind fun opening hopening => .after (keeps_eat _) fun assigned => ?_
    split
    · exact .after (keeps_memberRef hP) fun _ => .after hexpr fun _ => .after (keeps_expect hP _) fun _ =>
        keeps_pure _
    · refine (places_expectIdent hP).bind fun found hfound => .after (keeps_memberRef hP) fun member => ?_
      have hrest := fun binding : Binding Expr =>
        (Places.after (keeps_expect hP .rparen) fun _ => keeps_pure binding)
      simp only
      split
      · exact .after ih.many fun _ => .after (keeps_pure _) hrest
      · exact .after (keeps_element hP hexpr).many fun _ => .after (keeps_pure _) hrest
      · exact .after (keeps_report (hP.join _ _ hopening hfound)) fun _ => .after (keeps_pure _) hrest

theorem keeps_binding : Keeps P (binding expr) := .after keeps_get fun _ => keeps_bindingNested hP hexpr _

/-! ## Forms and expressions -/

theorem keeps_formBody (head : String) {span : Span} (hspan : P span) : Keeps P (formBody expr head span) := by
  have hmembers := fun kind => (Places.after (keeps_object hexpr) fun object =>
    .after (keeps_memberTail hP kind) fun member => keeps_pure (Node.memberAccess object member))
  have hcall := fun f : Expr → List Expr → Node => (Places.after hexpr fun target =>
    .after (keeps_exprs hexpr) fun args => keeps_pure (f target args))
  have harray := fun kind => (Places.after (keeps_ty hP) fun elem =>
    .after (keeps_exprs hexpr) fun items => keeps_pure (Node.newArray kind elem items))
  -- one case for each head of a form, in the order of the definition
  unfold formBody
  split
  · refine .after hexpr fun _ => ?_
    split
    · exact .after (keeps_ty hP) fun _ => keeps_pure _
    · exact keeps_pure _
  split
  · exact .after hexpr fun _ => .after hexpr fun _ => keeps_pure _
  split
  · exact .after hexpr fun _ => .after (keeps_ty hP) fun _ => keeps_pure _
  · exact .after hexpr fun _ => .after hexpr fun _ => .after hexpr fun _ => keeps_pure _
  · exact .after (keeps_value hP hexpr) fun _ => .after (keeps_ty hP) fun _ => keeps_pure _
  · exact .after hexpr fun _ => keeps_pure _
  · exact keeps_lambda hP hexpr
  · exact hcall Node.invokeOf
  · exact hcall Node.invokeMarked
  · exact .after hexpr fun _ => keeps_pure _
  · exact .after hexpr fun _ => keeps_pure _
  · exact hmembers .field
  · exact hmembers .property
  · exact .after (keeps_object hexpr) fun _ => .after (keeps_path hP) fun _ =>
      .after (keeps_expect hP _) fun _ => .after (keeps_exprs hexpr) fun _ =>
        .after (keeps_expect hP _) fun _ => .after (keeps_ty hP) fun _ => keeps_pure _
  · exact .after (keeps_constructTail hP hexpr) fun _ => keeps_pure _
  · exact harray .elements
  · exact harray .bounds
  · exact .after (keeps_constructForm hP hexpr) fun _ =>
      .after (keeps_binding hP hexpr).many fun _ => keeps_pure _
  · exact .after (keeps_constructForm hP hexpr) fun _ =>
      .after (keeps_element hP hexpr).many fun _ => keeps_pure _
  · exact .after (keeps_expectIdent hP) fun _ => .after (keeps_ty hP) fun _ => keeps_pure _
  · exact .after (keeps_report hspan) fun _ => .after keeps_skipToClose fun _ => keeps_pure _

omit hexpr in
theorem keeps_declareTy (n : Node) : Keeps P (declareTy n) := by
  refine .after (keeps_eat _) fun declared => ?_
  split
  · refine (places_peekSpan hP).bind fun span hspan => .after (keeps_ty hP) fun ty => ?_
    split
    · exact keeps_pure _
    · exact .after (keeps_report hspan) fun _ => keeps_pure _
  · exact keeps_pure _

theorem keeps_form : Keeps P (form expr) := by
  refine (places_expect hP _).bind fun opening hopening => .after keeps_peek fun l => ?_
  split
  · refine (places_peekSpan hP).bind fun span hspan => .after keeps_advance fun _ =>
      .after (keeps_formBody hP hexpr _ (hP.join _ _ hopening hspan)) fun n =>
        .after (keeps_declareTy hP n) fun n => .after (keeps_at? _) fun closed => ?_
    have hrest := Places.after (P := P) (keeps_eat .rparen) fun _ => keeps_pure n
    simp only
    split
    · exact .after keeps_peek fun _ => .after (keeps_reportHere hP _ _) fun _ =>
        .after keeps_skipToClose fun _ => hrest
    · exact hrest
  · exact .after (keeps_reportHere hP _ _) fun _ => .after keeps_skipToClose fun _ =>
      .after (keeps_eat _) fun _ => keeps_pure _

theorem keeps_exprNode : Keeps P (exprNode expr) := by
  have hliteral := fun n : Node => (Places.after (P := P) keeps_advance fun _ => keeps_pure n)
  refine .after keeps_peek fun l => ?_
  cases l with
  | integer n => exact hliteral (.int n)
  | float x => exact hliteral (.float x)
  | str s => exact hliteral (.str s)
  | true => exact hliteral (.bool true)
  | false => exact hliteral (.bool false)
  | null => exact hliteral .null
  | ident name =>
    exact (places_peekSpan hP).bind fun span hspan => .after keeps_advance fun _ => keeps_resolveName name hspan
  | lparen => exact keeps_form hP hexpr
  | _ => exact .after (keeps_reportHere hP _ _) fun _ => .perhaps keeps_advance fun _ => keeps_pure _

omit hexpr in
theorem keeps_expr (levels : Nat) : Keeps P (Parser.expr levels) := by
  induction levels with
  | zero => exact .after (keeps_reportHere hP _ _) fun _ => .after keeps_skipForm fun _ => keeps_draw _
  | succ levels ih => exact .after (keeps_exprNode hP ih) fun _ => keeps_draw _

end Parts

/-! ## Sources -/

section Sources

variable {P : Span → Prop} (hP : SpanProperty P)

include hP

theorem keeps_freeDecl : Keeps P freeDecl := by
  refine .after (keeps_expect hP _) fun _ => (places_expectIdent hP).bind fun found hfound =>
    .after (keeps_expect hP _) fun _ => .after (keeps_ty hP) fun _ => .after keeps_get fun _ => ?_
  split
  · exact keeps_report hfound
  · exact .after (keeps_draw _) fun _ => keeps_of_eq fun _ => ⟨rfl, rfl⟩

theorem keeps_closureField (closure : String) (fields : List (String × Value)) :
    Keeps P (closureField closure fields) := by
  refine (places_expectIdent hP).bind fun _ hfound => .after (keeps_expect hP _) fun _ =>
    .after (keeps_value hP (keeps_expr hP _)) fun _ => .perhaps (keeps_report hfound) fun _ =>
      .after (keeps_eat _) fun _ => .after (keeps_at? _) fun _ => ?_
  simp only
  split
  · exact .after keeps_peek fun _ => .after (keeps_reportHere hP _ _) fun _ => .after keeps_advance fun _ =>
      keeps_pure _
  · exact keeps_pure _

theorem keeps_closureDecl : Keeps P closureDecl := by
  refine .after (keeps_expect hP _) fun _ => (places_expectIdent hP).bind fun found hfound =>
    .after (keeps_expect hP _) fun _ =>
      .after (Keeps.iterate (fun _ => .after (keeps_closureField hP _ _) fun _ => keeps_pure _) []) fun _ =>
        .after (keeps_expect hP _) fun _ => .after (keeps_closure? _) fun _ => ?_
  split
  · exact keeps_report hfound
  · exact .after (keeps_draw _) fun _ => keeps_of_eq fun _ => ⟨rfl, rfl⟩

theorem keeps_decl : Keeps P decl := by
  refine .after (keeps_at? _) fun closure => ?_
  split
  · exact keeps_closureDecl hP
  · exact keeps_freeDecl hP

theorem keeps_file : Keeps P file := by
  refine .after (keeps_decl hP).many fun _ => .after (keeps_expr hP _) fun e =>
    .after (keeps_at? _) fun last => ?_
  simp only
  split
  · exact .after keeps_peek fun _ => .after (keeps_reportHere hP _ _) fun _ => keeps_pure _
  · exact keeps_pure _

/-- What holds of the spans of all tokens holds of the spans of all reports on them. -/
theorem forall_reports_of_tokens {tokens : List Token} (htokens : ∀ t ∈ tokens, P t.span) {supply : Supply}
    {ds : List Diagnostic} (h : parseTokens tokens supply = .error ds) : ∀ d ∈ ds, P d.span := by
  have hstart : Placed P { tokens, supply } := ⟨htokens, by simp⟩
  have hend := (keeps_file hP _ hstart).1
  have hrun : parseTokens tokens supply =
      if (file { tokens, supply }).2.faults.isEmpty
      then .ok ((file { tokens, supply }).1, (file { tokens, supply }).2.supply)
      else .error (file { tokens, supply }).2.faults.toList := rfl
  rw [hrun] at h
  split at h
  · cases h
  · cases h
    exact fun d hd => hend.faults d (Array.mem_toList_iff.1 hd)

end Sources

end Parser

end ExprTree
