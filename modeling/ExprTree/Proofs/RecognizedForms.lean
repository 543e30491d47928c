import ExprTree.Proofs.RecognizedParts

/-!
# Forms and expressions are recognized

The reader of a form looks at its first word: an operator on one or on two operands, or one of the other
words. `formAt_iff` says the same of the grammar, and no word is of two kinds, so each branch of the reader
is compared with the one production that starts with its word (`recognizes_formBody`).

`readsExpr` closes the circle by induction on the levels through which expressions may nest: what nests in
a form is one level lower.
-/

namespace ExprTree

open Grammar

namespace Grammar

variable (E : Phrase Expr)

/-- The operand of an operator on one operand, and the target type of a conversion. -/
def UnaryTail (op : UnaryOp) : Phrase Node := fun Γ p n q =>
  (op.takesType = true ∧ ∃ e p₁, E Γ p e p₁ ∧ ∃ t p₂, TyAt p₁ t p₂ ∧ n = .unary op e t none ∧ q = p₂) ∨
  (op.takesType = false ∧ ∃ e p₁, E Γ p e p₁ ∧ n = .unaryOf op e ∧ q = p₁)

/-- The operands of an operator on two operands. -/
def BinaryTail (op : BinaryOp) : Phrase Node := fun Γ p n q =>
  ∃ left p₁, E Γ p left p₁ ∧ ∃ right p₂, E Γ p₁ right p₂ ∧ n = .binaryOf op left right ∧ q = p₂

/-- What stands in a form behind its first word, if that is no operator. -/
def KeywordTail : String → Phrase Node
  | "is" => fun Γ p n q => ∃ e p₁, E Γ p e p₁ ∧ ∃ t p₂, TyAt p₁ t p₂ ∧ n = .typeIs e t ∧ q = p₂
  | "if" => fun Γ p n q => ∃ test p₁, E Γ p test p₁ ∧ ∃ ifTrue p₂, E Γ p₁ ifTrue p₂ ∧
      ∃ ifFalse p₃, E Γ p₂ ifFalse p₃ ∧ n = .conditionalOf test ifTrue ifFalse ∧ q = p₃
  | "const" => fun Γ p n q => ∃ v p₁, ValueAt E Γ p v p₁ ∧ ∃ t p₂, TyAt p₁ t p₂ ∧
      n = .constant v t ∧ q = p₂
  | "tree" => fun Γ p n q => ∃ t p₁, E Γ p t p₁ ∧ n = .tree t ∧ q = p₁
  | "lambda" => Parser.LambdaTail E
  | "invoke" => fun Γ p n q => ∃ target p₁, E Γ p target p₁ ∧ ∃ args p₂, Many (E Γ) p₁ args p₂ ∧
      n = .invokeOf target args ∧ q = p₂
  | "invoke!" => fun Γ p n q => ∃ target p₁, E Γ p target p₁ ∧ ∃ args p₂, Many (E Γ) p₁ args p₂ ∧
      n = .invokeMarked target args ∧ q = p₂
  | "expandable" => fun Γ p n q => ∃ t p₁, E Γ p t p₁ ∧ n = .expandableOf t ∧ q = p₁
  | "compile" => fun Γ p n q => ∃ t p₁, E Γ p t p₁ ∧ n = .compileOf t ∧ q = p₁
  | "field" => fun Γ p n q => ∃ object p₁, ObjectAt E Γ p object p₁ ∧
      ∃ m p₂, MemberAt .field Γ p₁ m p₂ ∧ n = .memberAccess object m ∧ q = p₂
  | "prop" => fun Γ p n q => ∃ object p₁, ObjectAt E Γ p object p₁ ∧
      ∃ m p₂, MemberAt .property Γ p₁ m p₂ ∧ n = .memberAccess object m ∧ q = p₂
  | "call" => fun Γ p n q => ∃ object p₁, ObjectAt E Γ p object p₁ ∧ ∃ path p₂, PathAt p₁ path p₂ ∧
      ∃ p₃, Word .lparen p₂ p₃ ∧ ∃ args p₄, Many (E Γ) p₃ args p₄ ∧ ∃ p₅, Word .rparen p₄ p₅ ∧
      ∃ ret p₆, TyAt p₅ ret p₆ ∧
      n = .call object { owner := path.1, name := path.2, isStatic := object.isNone, ret } args ∧ q = p₆
  | "new" => fun Γ p n q => ∃ c p₁, ConstructAt E Γ p c p₁ ∧ n = .construct c ∧ q = p₁
  | "array" => fun Γ p n q => ∃ t p₁, TyAt p t p₁ ∧ ∃ items p₂, Many (E Γ) p₁ items p₂ ∧
      n = .newArray .elements t items ∧ q = p₂
  | "array_bounds" => fun Γ p n q => ∃ t p₁, TyAt p t p₁ ∧ ∃ bounds p₂, Many (E Γ) p₁ bounds p₂ ∧
      n = .newArray .bounds t bounds ∧ q = p₂
  | "init" => fun Γ p n q => ∃ c p₁, ConstructFormAt E Γ p c p₁ ∧
      ∃ bs p₂, Many (BindingAt E Γ) p₁ bs p₂ ∧ n = .memberInit c bs ∧ q = p₂
  | "list_init" => fun Γ p n q => ∃ c p₁, ConstructFormAt E Γ p c p₁ ∧
      ∃ es p₂, Many (ElementAt E Γ) p₁ es p₂ ∧ n = .listInit c es ∧ q = p₂
  | "ext" => fun _ p n q => ∃ kind p₁, Word (.ident kind) p p₁ ∧ ∃ t p₂, TyAt p₁ t p₂ ∧
      n = .extension kind t ∧ q = p₂
  | _ => fun _ _ _ _ => False

variable {E} {Γ : Env} {p q : Point} {n : Node} {head : String}

theorem formAt_of_keyword (h : KeywordTail E head Γ p n q) :
    FormAt E Γ (p.before (.ident head)) n q := by
  unfold KeywordTail at h
  split at h
  · obtain ⟨e, _, h₁, t, _, h₂, rfl, rfl⟩ := h
    exact .typeIs (word_before _ _) h₁ h₂
  · obtain ⟨test, _, h₁, ifTrue, _, h₂, ifFalse, _, h₃, rfl, rfl⟩ := h
    exact .conditional (word_before _ _) h₁ h₂ h₃
  · obtain ⟨v, _, h₁, t, _, h₂, rfl, rfl⟩ := h
    exact .constant (word_before _ _) h₁ h₂
  · obtain ⟨t, _, h, rfl, rfl⟩ := h
    exact .tree (word_before _ _) h
  · obtain ⟨_, h₁, params, _, h₂, hnodup, _, h₃, body, h₄, rfl⟩ := h
    exact .lambda (word_before _ _) h₁ h₂ hnodup h₃ h₄
  · obtain ⟨target, _, h₁, args, _, h₂, rfl, rfl⟩ := h
    exact .invoke (word_before _ _) h₁ h₂
  · obtain ⟨target, _, h₁, args, _, h₂, rfl, rfl⟩ := h
    exact .invokeMarked (word_before _ _) h₁ h₂
  · obtain ⟨t, _, h, rfl, rfl⟩ := h
    exact .expandable (word_before _ _) h
  · obtain ⟨t, _, h, rfl, rfl⟩ := h
    exact .compile (word_before _ _) h
  · obtain ⟨object, _, h₁, m, _, h₂, rfl, rfl⟩ := h
    exact .memberAccess .field (word_before _ _) h₁ h₂
  · obtain ⟨object, _, h₁, m, _, h₂, rfl, rfl⟩ := h
    exact .memberAccess .property (word_before _ _) h₁ h₂
  · obtain ⟨object, _, h₁, ⟨owner, name⟩, _, h₂, _, h₃, args, _, h₄, _, h₅, ret, _, h₆, rfl, rfl⟩ := h
    exact .call (word_before _ _) h₁ h₂ h₃ h₄ h₅ h₆
  · obtain ⟨c, _, h, rfl, rfl⟩ := h
    exact .construct (word_before _ _) h
  · obtain ⟨t, _, h₁, items, _, h₂, rfl, rfl⟩ := h
    exact .array (word_before _ _) h₁ h₂
  · obtain ⟨t, _, h₁, items, _, h₂, rfl, rfl⟩ := h
    exact .arrayBounds (word_before _ _) h₁ h₂
  · obtain ⟨c, _, h₁, bs, _, h₂, rfl, rfl⟩ := h
    exact .memberInit (word_before _ _) h₁ h₂
  · obtain ⟨c, _, h₁, es, _, h₂, rfl, rfl⟩ := h
    exact .listInit (word_before _ _) h₁ h₂
  · obtain ⟨kind, _, h₁, t, _, h₂, rfl, rfl⟩ := h
    exact .extension (word_before _ _) h₁ h₂
  · exact h.elim

/-- A form by its first word. -/
theorem formAt_iff : FormAt E Γ (p.before (.ident head)) n q ↔
    (∃ op : UnaryOp, head = op.word ∧ UnaryTail E op Γ p n q) ∨
    (∃ op : BinaryOp, head = op.word ∧ BinaryTail E op Γ p n q) ∨ KeywordTail E head Γ p n q := by
  constructor
  · intro h
    have hfirst : ∀ {word : String} {p₁ : Point}, Word (.ident word) (p.before (.ident head)) p₁ →
        head = word ∧ p₁ = p := by
      intro word p₁ hword
      obtain ⟨heq, rfl⟩ := word_before_iff.1 hword
      cases heq
      exact ⟨rfl, rfl⟩
    cases h with
    | unary op htakes h h₁ =>
      obtain ⟨rfl, rfl⟩ := hfirst h
      exact .inl ⟨op, rfl, .inr ⟨htakes, _, _, h₁, rfl, rfl⟩⟩
    | conversion op htakes h h₁ h₂ =>
      obtain ⟨rfl, rfl⟩ := hfirst h
      exact .inl ⟨op, rfl, .inl ⟨htakes, _, _, h₁, _, _, h₂, rfl, rfl⟩⟩
    | binary op h h₁ h₂ =>
      obtain ⟨rfl, rfl⟩ := hfirst h
      exact .inr (.inl ⟨op, rfl, _, _, h₁, _, _, h₂, rfl, rfl⟩)
    | typeIs h h₁ h₂ | constant h h₁ h₂ | invoke h h₁ h₂ | invokeMarked h h₁ h₂ | array h h₁ h₂
    | arrayBounds h h₁ h₂ | memberInit h h₁ h₂ | listInit h h₁ h₂ | extension h h₁ h₂ =>
      obtain ⟨rfl, rfl⟩ := hfirst h
      exact .inr (.inr ⟨_, _, h₁, _, _, h₂, rfl, rfl⟩)
    | memberAccess kind h h₁ h₂ =>
      obtain ⟨rfl, rfl⟩ := hfirst h
      cases kind <;> exact .inr (.inr ⟨_, _, h₁, _, _, h₂, rfl, rfl⟩)
    | tree h h₁ | expandable h h₁ | compile h h₁ | construct h h₁ =>
      obtain ⟨rfl, rfl⟩ := hfirst h
      exact .inr (.inr ⟨_, _, h₁, rfl, rfl⟩)
    | conditional h h₁ h₂ h₃ =>
      obtain ⟨rfl, rfl⟩ := hfirst h
      exact .inr (.inr ⟨_, _, h₁, _, _, h₂, _, _, h₃, rfl, rfl⟩)
    | lambda h h₁ h₂ hnodup h₃ h₄ =>
      obtain ⟨rfl, rfl⟩ := hfirst h
      exact .inr (.inr ⟨_, h₁, _, _, h₂, hnodup, _, h₃, _, h₄, rfl⟩)
    | call h h₁ h₂ h₃ h₄ h₅ h₆ =>
      obtain ⟨rfl, rfl⟩ := hfirst h
      exact .inr (.inr ⟨_, _, h₁, _, _, h₂, _, h₃, _, _, h₄, _, h₅, _, _, h₆, rfl, rfl⟩)
  · rintro (⟨op, rfl, ⟨htakes, e, _, h₁, t, _, h₂, rfl, rfl⟩ | ⟨htakes, e, _, h₁, rfl, rfl⟩⟩ |
      ⟨op, rfl, left, _, h₁, right, _, h₂, rfl, rfl⟩ | h)
    · exact .conversion op htakes (word_before _ _) h₁ h₂
    · exact .unary op htakes (word_before _ _) h₁
    · exact .binary op (word_before _ _) h₁ h₂
    · exact formAt_of_keyword h

end Grammar

theorem UnaryOp.eq_word_of_ofWord? {word : String} {op : UnaryOp} (h : ofWord? word = some op) :
    word = op.word := by
  have hword := List.find?_some h
  exact (eq_of_beq hword).symm

theorem BinaryOp.eq_word_of_ofWord? {word : String} {op : BinaryOp} (h : ofWord? word = some op) :
    word = op.word := by
  have hword := List.find?_some h
  exact (eq_of_beq hword).symm

theorem UnaryOp.ne_binary_word (op : UnaryOp) (op' : BinaryOp) : op.word ≠ op'.word := by
  cases op <;> cases op' <;> decide

namespace Grammar

variable {E : Phrase Expr} {Γ : Env} {p q : Point} {n : Node}

theorem formAt_unary_iff (op : UnaryOp) :
    FormAt E Γ (p.before (.ident op.word)) n q ↔ UnaryTail E op Γ p n q := by
  rw [formAt_iff]
  constructor
  · rintro (⟨op', hword, h⟩ | ⟨op', hword, -⟩ | h)
    · have hop := congrArg UnaryOp.ofWord? hword
      rw [op.ofWord?_word, op'.ofWord?_word] at hop
      cases hop
      exact h
    · exact absurd hword (op.ne_binary_word op')
    · cases op <;> exact h.elim
  · exact fun h => .inl ⟨op, rfl, h⟩

theorem formAt_binary_iff (op : BinaryOp) :
    FormAt E Γ (p.before (.ident op.word)) n q ↔ BinaryTail E op Γ p n q := by
  rw [formAt_iff]
  constructor
  · rintro (⟨op', hword, -⟩ | ⟨op', hword, h⟩ | h)
    · exact absurd hword.symm (op'.ne_binary_word op)
    · have hop := congrArg BinaryOp.ofWord? hword
      rw [op.ofWord?_word, op'.ofWord?_word] at hop
      cases hop
      exact h
    · cases op <;> exact h.elim
  · exact fun h => .inr (.inl ⟨op, rfl, h⟩)

/-- If the first word is no operator. -/
theorem formAt_keyword_iff {head : String} (hunary : ∀ op, UnaryOp.ofWord? head = some op → False)
    (hbinary : ∀ op, BinaryOp.ofWord? head = some op → False) :
    FormAt E Γ (p.before (.ident head)) n q ↔ KeywordTail E head Γ p n q := by
  rw [formAt_iff]
  constructor
  · rintro (⟨op, rfl, -⟩ | ⟨op, rfl, -⟩ | h)
    · exact (hunary op op.ofWord?_word).elim
    · exact (hbinary op op.ofWord?_word).elim
    · exact h
  · exact fun h => .inr (.inr h)

end Grammar

namespace Parser

variable {reader : Parser Expr} {E : Phrase Expr} {F : Lexeme → Prop}

theorem recognizes_unary (hE : ReadsExpr reader E) (op : UnaryOp) :
    Recognizes False Anywhere F (do
      let operand ← reader
      if op.takesType then return Node.unary op operand (← ty) none else return Node.unaryOf op operand)
      (UnaryTail E op) := by
  cases htakes : op.takesType with
  | true =>
    refine Recognizes.congr (hE.recognizes.andThen fun e => recognizes_ty.andThen fun t =>
      recognizes_pure (Node.unary op e t none)) fun _ => ?_
    simp only [UnaryTail, htakes, true_and, Bool.true_eq_false, false_and, or_false]
  | false =>
    refine Recognizes.congr (hE.recognizes.andThen fun e => recognizes_pure (Node.unaryOf op e))
      fun _ => ?_
    simp only [UnaryTail, htakes, true_and, Bool.false_eq_true, false_and, false_or]

theorem recognizes_formBody (hE : ReadsExpr reader E) (head : String) (span : Span) :
    Recognizes False Anywhere EndsBody (formBody reader head span) fun Γ p =>
      FormAt E Γ (p.before (.ident head)) := by
  have helements : Recognizes False Anywhere EndsBody (manyForms (element reader)) fun Γ =>
      Many (ElementAt E Γ) :=
    recognizes_manyForms (recognizes_element hE) fun ⟨h, _, _, _, _⟩ => h.head
  have hbindings : Recognizes False Anywhere EndsBody (manyForms (binding reader)) fun Γ =>
      Many (BindingAt E Γ) :=
    recognizes_manyForms (recognizes_binding hE) fun h => by
      cases h with | assign h | nested h | elements h => exact h.head
  unfold formBody
  split
  · next op hop =>
    obtain rfl := UnaryOp.eq_word_of_ofWord? hop
    exact (recognizes_unary hE op).congr fun _ => (formAt_unary_iff op).symm
  · next hunary =>
    split
    · next op hop =>
      obtain rfl := BinaryOp.eq_word_of_ofWord? hop
      exact Recognizes.congr (hE.recognizes.andThen fun left => hE.recognizes.andThen fun right =>
        recognizes_pure (Node.binaryOf op left right)) fun _ => (formAt_binary_iff op).symm
    · next hbinary =>
      refine Recognizes.congr (M := False) (N := False) (R := KeywordTail E head) ?_ fun _ =>
        (formAt_keyword_iff hunary hbinary).symm
      split
      · exact (hE.recognizes.andThen fun e => recognizes_ty.andThen fun t => recognizes_pure _).still
      · exact (hE.recognizes.andThen fun test => hE.recognizes.andThen fun ifTrue =>
          hE.recognizes.andThen fun ifFalse =>
          recognizes_pure _).still
      · exact ((recognizes_value hE).andThen fun v => recognizes_ty.andThen fun t =>
          recognizes_pure _).still
      · exact (hE.recognizes.andThen fun t => recognizes_pure _).still
      · exact (recognizes_lambda hE).mono False.elim id fun _ => trivial
      · exact (hE.recognizes.andThen fun target => (recognizes_exprs hE).bind
          (fun args => recognizes_pure _) follow_here).still
      · exact (hE.recognizes.andThen fun target => (recognizes_exprs hE).bind
          (fun args => recognizes_pure _) follow_here).still
      · exact (hE.recognizes.andThen fun t => recognizes_pure _).still
      · exact (hE.recognizes.andThen fun t => recognizes_pure _).still
      · exact ((recognizes_object hE).andThen fun object =>
          (recognizes_memberTail .field).andThen fun m =>
          recognizes_pure _).still
      · exact ((recognizes_object hE).andThen fun object =>
          (recognizes_memberTail .property).andThen fun m =>
          recognizes_pure _).still
      · exact Recognizes.still ((recognizes_object hE).andThen fun object =>
          recognizes_path.andThen fun path =>
          recognizes_word fun _ => (recognizes_exprs hE).bind (fun args => recognizes_word fun _ =>
            recognizes_ty.andThen fun ret => recognizes_pure _) endsBody_of_word)
      · exact ((recognizes_constructTail hE).bind (fun c => recognizes_pure _) follow_here).still
      · exact (recognizes_ty.andThen fun t => (recognizes_exprs hE).bind
          (fun items => recognizes_pure _) follow_here).still
      · exact (recognizes_ty.andThen fun t => (recognizes_exprs hE).bind
          (fun bounds => recognizes_pure _) follow_here).still
      · exact ((recognizes_constructForm hE).andThen fun c =>
          hbindings.bind (fun bs => recognizes_pure _) follow_here).still
      · exact ((recognizes_constructForm hE).andThen fun c =>
          helements.bind (fun es => recognizes_pure _) follow_here).still
      · exact (recognizes_ident fun kind _ => recognizes_ty.andThen fun t => recognizes_pure _).still
      · refine Recognizes.congr (recognizes_report leads_skipToClose) fun _ => ⟨False.elim, fun h => ?_⟩
        simp only [KeywordTail] at h

/-! ## Expressions -/

theorem annotated_iff {t : Ty} {n n' : Node} : Annotated t n n' ↔ n.withTy? t = some n' := by
  constructor
  · intro h
    cases h with
    | marker hmarker => simp [Node.withTy?, hmarker]
    | _ => rfl
  · intro h
    unfold Node.withTy? at h
    split at h
    · cases h
      exact .unary
    · cases h
      exact .binary
    · cases h
      exact .conditional
    · cases h
      exact .lambda
    · cases h
      exact .invocation
    · split at h
      · next hmarker =>
        cases h
        obtain ⟨k, hk⟩ := Option.isSome_iff_exists.1 hmarker
        exact .marker hk
      · cases h
    · cases h

/-- A declared type, if there is one. -/
def DeclaredTail (n : Node) : Phrase Node := fun _ p n' q =>
  (∃ p₁, Word .colon p p₁ ∧ ∃ t, TyAt p₁ t q ∧ Annotated t n n') ∨ p.head ≠ .colon ∧ n' = n ∧ q = p

theorem recognizes_declareTy (n : Node) :
    Recognizes False Anywhere Anything (declareTy n) (DeclaredTail n) := by
  refine Recognizes.congr (recognizes_eat (recognizes_peekSpan fun span =>
    recognizes_ty.andThen (N := False)
    (S := fun t _ p n' q => Annotated t n n' ∧ q = p) fun t => ?_) (recognizes_pure n)) fun _ => ⟨?_, ?_⟩
  · split
    · next n' hn' =>
      refine Recognizes.congr (recognizes_pure n') fun _ => ?_
      rw [annotated_iff, hn', Option.some.injEq, eq_comm]
    · next hnone =>
      refine Recognizes.congr (recognizes_report .refl) fun _ => ?_
      rw [annotated_iff, hnone]
      simp
  · rintro (⟨_, h, t, _, ht, hn', rfl⟩ | h)
    · exact .inl ⟨_, h, t, ht, hn'⟩
    · exact .inr h
  · rintro (⟨_, h, t, ht, hn'⟩ | h)
    · exact .inl ⟨_, h, t, _, ht, hn', rfl⟩
    · exact .inr h

/-- The parenthesis that closes a form. -/
theorem recognizes_closing {n : Node} {message : Lexeme → String} :
    Recognizes False Anywhere Anything (do
      if !(← at? .rparen) then
        reportHere (message (← peek)) none
        skipToClose
      let _ ← eat .rparen
      return n) fun _ p a q => Word .rparen p q ∧ a = n := by
  have heat : Recognizes False Anywhere Anything (do
      let _ ← eat .rparen
      return n) fun _ p a q =>
        (∃ p₁, Word .rparen p p₁ ∧ a = n ∧ q = p₁) ∨ p.head ≠ .rparen ∧ a = n ∧ q = p :=
    recognizes_eat (recognizes_pure n) (recognizes_pure n)
  refine recognizes_at? fun b => ?_
  cases b with
  | true =>
    refine (heat.mono id And.left id).congr fun hC => ⟨?_, fun h => .inl ⟨_, h.1, h.2, rfl⟩⟩
    rintro (⟨_, h, rfl, rfl⟩ | ⟨h, -⟩)
    · exact ⟨h, rfl⟩
    · exact absurd (eq_of_beq hC.2) h
  | false =>
    refine Recognizes.congr (recognizes_peek fun l => recognizes_reportHere fun s => ?_) fun hC =>
      ⟨False.elim, fun h => ?_⟩
    · exact (leads_skipToClose s).trans (heat.leads _)
    · exact absurd h.1.head (ne_of_beq_false hC.2)

theorem ident_of_formAt {Γ : Env} {p q : Point} {n : Node} (h : FormAt E Γ p n q) :
    ∃ head, p.head = .ident head := by
  cases h with
  | unary op _ h | conversion op _ h | binary op h | typeIs h | conditional h | constant h | tree h | lambda h
  | invoke h | invokeMarked h | expandable h | compile h | memberAccess kind h | call h | construct h | array h
  | arrayBounds h | memberInit h | listInit h | extension h => exact ⟨_, h.head⟩

theorem recognizes_form (hE : ReadsExpr reader E) :
    Recognizes True Anywhere Anything (form reader) fun Γ p n q =>
      ∃ p₁, Word .lparen p p₁ ∧ ∃ p₂, DeclaredFormAt E Γ p₁ n p₂ ∧ Word .rparen p₂ q := by
  refine recognizes_word (N := True) fun opening => recognizes_peek fun l => ?_
  split
  · next head =>
    refine recognizes_peekSpan fun span => recognizes_advance_before (D := Anywhere) ?_
      (fun _ hC => hC.2)
      fun _ _ _ _ => trivial
    refine Recognizes.congr ((recognizes_formBody hE head _).bind
      (fun n => (recognizes_declareTy n).andThen fun n' =>
      recognizes_closing) ?_) fun _ => ⟨?_, ?_⟩
    · rintro n Γ p n' q ⟨_, _, ⟨_, h, -⟩ | ⟨-, rfl, rfl⟩, h', -⟩ -
      · exact .inl h.head
      · exact .inr h'.head
    · rintro ⟨n, _, hn, n', p₂, ⟨_, h, t, ht, hn'⟩ | ⟨-, rfl, rfl⟩, h', rfl⟩
      · exact ⟨_, .declared hn h ht hn', h'⟩
      · exact ⟨_, .plain hn, h'⟩
    · rintro ⟨p₂, hn | ⟨hn, h, ht, hn'⟩, h'⟩
      · exact ⟨_, _, hn, _, p₂, .inr ⟨by simp [h'.head], rfl, rfl⟩, h', rfl⟩
      · exact ⟨_, _, hn, _, p₂, .inl ⟨_, h, _, ht, hn'⟩, h', rfl⟩
  · next hident =>
    refine Recognizes.congr (recognizes_reportHere fun s => ?_) fun hC => ⟨False.elim, ?_⟩
    · have heat : Recognizes False Anywhere Anything (do
          let _ ← eat .rparen
          return placeholder) _ := recognizes_eat (recognizes_pure placeholder)
          (recognizes_pure placeholder)
      exact (leads_skipToClose s).trans (heat.leads _)
    · rintro ⟨_, h | ⟨h, -, -, -⟩, -⟩ <;> obtain ⟨head, hhead⟩ := ident_of_formAt h <;>
        exact hident head (hC.2.symm.trans hhead)

/-- What a name stands for. -/
def Resolved (name : String) (found : Option Variable) : Phrase Node := fun Γ p n q =>
  (∃ v, found = some v ∧ n = .variable v ∧ q = p) ∨
  found = none ∧ ∃ c, Γ.closures.lookup name = some c ∧ n = .closure c ∧ q = p

theorem recognizes_resolveName (name : String) (span : Span) :
    Recognizes False Anywhere F (resolveName name span) fun Γ =>
      Resolved name (Γ.scopes.lookup name) Γ := by
  refine recognizes_scopes (S := fun scopes => Resolved name (scopes.lookup name)) fun s => ?_
  generalize s.scopes.lookup name = found
  cases found with
  | some v =>
    refine Recognizes.congr (recognizes_pure (Node.variable v)) fun _ => ⟨fun h => .inl ⟨v, rfl, h⟩, ?_⟩
    rintro (⟨_, ⟨⟩, h⟩ | ⟨h, -⟩)
    · exact h
    · cases h
  | none =>
    refine Recognizes.congr recognizes_declared fun _ => ⟨fun h => .inr ⟨rfl, h⟩, ?_⟩
    rintro (⟨_, h, -⟩ | ⟨-, h⟩)
    · cases h
    · exact h

theorem nodeAt_literal_iff {Γ : Env} {p q : Point} {l : Lexeme} {v : Value} {t : Ty} {n : Node}
    (hl : Literal l v t)
    (hp : p.head = l) : NodeAt E Γ p n q ↔ n = .constant v t ∧ Word l p q := by
  constructor
  · intro h
    cases h with
    | literal hl' h =>
      obtain rfl := hp.symm.trans h.head
      obtain ⟨rfl, rfl⟩ := hl.eq hl'
      exact ⟨rfl, h⟩
    | var _ h | closure _ _ h | form h =>
      cases hp.symm.trans h.head
      cases hl
  · rintro ⟨rfl, h⟩
    exact .literal hl h

theorem recognizes_exprNode (hE : ReadsExpr reader E) :
    Recognizes True Anywhere Anything (exprNode reader) (NodeAt E) := by
  refine recognizes_peek fun l => ?_
  cases l with
  | integer n => exact recognizes_literal nofun (nodeAt_literal_iff (.integer n))
  | float x => exact recognizes_literal nofun (nodeAt_literal_iff (.float x))
  | str s => exact recognizes_literal nofun (nodeAt_literal_iff (.str s))
  | true => exact recognizes_literal nofun (nodeAt_literal_iff .true)
  | false => exact recognizes_literal nofun (nodeAt_literal_iff .false)
  | null => exact recognizes_literal nofun (nodeAt_literal_iff .null)
  | ident name =>
    refine recognizes_peekSpan fun span => Recognizes.congr
      (recognizes_advance (l := .ident name) (D := Anywhere) (recognizes_resolveName name span)
        (fun _ hC => hC.2) fun _ _ _ _ => trivial) fun hC => ⟨?_, fun h => ?_⟩
    · rintro ⟨_, h, ⟨v, hv, rfl, rfl⟩ | ⟨hnone, c, hc, rfl, rfl⟩⟩
      · exact .var hv h
      · exact .closure hnone hc h
    · cases h with
      | var hv h =>
        cases hC.2.symm.trans h.head
        exact ⟨_, h, .inl ⟨_, hv, rfl, rfl⟩⟩
      | closure hnone hc h =>
        cases hC.2.symm.trans h.head
        exact ⟨_, h, .inr ⟨hnone, _, hc, rfl, rfl⟩⟩
      | literal hl h => exact absurd (h.head.symm.trans hC.2) hl.not_ident
      | form h => cases hC.2.symm.trans h.head
  | lparen =>
    refine ((recognizes_form hE).mono id And.left id).congr fun hC => ⟨?_, fun h => ?_⟩
    · rintro ⟨_, h, _, hn, h'⟩
      exact .form h hn h'
    · cases h with
      | form h hn h' => exact ⟨_, h, _, hn, h'⟩
      | var _ h | closure _ _ h => cases hC.2.symm.trans h.head
      | literal hl h =>
        cases hC.2.symm.trans h.head
        cases hl
  | _ =>
    refine Recognizes.congr (recognizes_reportHere fun s => ?_) fun hC => ⟨False.elim, fun h => ?_⟩
    · split
      · exact leads_advance s
      · exact .refl s
    · exact absurd hC.2 ((startsExpr_of_node h).ne nofun nofun nofun)

/-- Expressions are recognized on every level. -/
theorem readsExpr (levels : Nat) : ReadsExpr (expr levels) (ExprAt levels) := by
  induction levels with
  | zero =>
    have hdraw : Recognizes False Anywhere Anything (draw placeholder.alloc) _ :=
      recognizes_draw fun supply => Nat.le_succ supply.next
    refine ⟨?_, False.elim⟩
    exact recognizes_reportHere fun s => (leads_skipForm s).trans (hdraw.leads _)
  | succ levels ih =>
    refine ⟨?_, ?_⟩
    · exact (recognizes_exprNode ih).andThen fun n =>
        recognizes_draw fun supply => Nat.le_succ supply.next
    · rintro Γ p e q ⟨n, _, hn, -⟩
      exact startsExpr_of_node hn

end Parser

end ExprTree
