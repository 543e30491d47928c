import Mathlib.Data.List.Nodup
import ExprTree.Proofs.Recognition

/-!
# The parts of forms are recognized

Types, references to members, and the parts of forms, for any reader that recognizes the expressions
nested in them (`ReadsExpr`). Types and bindings nest in themselves: their readers are bounded by the words
that are left, so the induction is on that bound, and each nested one starts behind a word at least
(`within_next`).

A list of expressions is recognized only if a word that ends the body of a form stands behind it
(`EndsBody`). The parameters of a lambda are read by a loop that also compares their names, and its body
with the parameters in scope.
-/

namespace ExprTree

open Grammar

namespace Grammar

theorem Literal.eq {l : Lexeme} {v v' : Value} {t t' : Ty} (h : Literal l v t) (h' : Literal l v' t') :
    v' = v ∧ t' = t := by
  cases h <;> cases h' <;> exact ⟨rfl, rfl⟩

theorem Literal.not_ident {l : Lexeme} {v : Value} {t : Ty} (h : Literal l v t) {name : String} :
    l ≠ .ident name := by
  rintro rfl
  cases h

theorem Drawn.name_eq {name : String} {t : Ty} {p q : Point} {v : Variable}
    (h : Drawn (Variable.alloc name t) p v q) : v.name = name := by
  cases h
  rfl

end Grammar

namespace Parser

variable {C : Point → Prop} {F : Lexeme → Prop}

/-! ## Types -/

theorem endsForm_of_tyAt {p q : Point} {t : Ty} (h : TyAt p t q) : endsForm p.head = false := by
  cases h with
  | builtin _ h | named _ h | array h | func h | expr h =>
    rw [h.head]
    rfl

/-- A parameter type and the comma behind it, if there is one. -/
def TyParam (acc : List Ty) : Phrase (List Ty × Bool) := fun _ p r q => ∃ t p₁, TyAt p t p₁ ∧
  ((∃ p₂, Word .comma p₁ p₂ ∧ r = (t :: acc, true) ∧ q = p₂) ∨
    p₁.head ≠ .comma ∧ r = (t :: acc, false) ∧ q = p₁)

theorem Loop.commaList {more : Lexeme → Bool} {Γ : Env} {p q : Point} {acc acc' : List Ty}
    (h : Loop more TyParam Γ p acc acc' q) : ∃ ts, acc' = ts.reverse ++ acc ∧ CommaList TyAt p ts q := by
  induction h with
  | stop _ => exact ⟨[], rfl, .nil⟩
  | last _ hlast =>
    obtain ⟨t, p₁, ht, ⟨_, _, heq, _⟩ | ⟨-, heq, rfl⟩⟩ := hlast
    · cases heq
    · cases heq
      exact ⟨[t], rfl, .last ht⟩
  | go _ hhere _ ih =>
    obtain ⟨t, p₁, ht, ⟨_, hcomma, heq, rfl⟩ | ⟨-, heq, -⟩⟩ := hhere
    · cases heq
      obtain ⟨ts, rfl, hts⟩ := ih
      exact ⟨t :: ts, by simp, .cons ht hcomma hts⟩
    · cases heq

theorem loop_of_commaList {Γ : Env} {p q : Point} {ts : List Ty} (h : CommaList TyAt p ts q)
    (hq : q.head = .rparen) (acc : List Ty) :
    Loop (fun l => !endsForm l) TyParam Γ p acc (ts.reverse ++ acc) q := by
  have hmore : ∀ {p q : Point} {t : Ty}, TyAt p t q → (!endsForm p.head) = true := fun h => by
    rw [endsForm_of_tyAt h]
    rfl
  induction h generalizing acc with
  | nil => exact .stop (by rw [hq]; rfl)
  | @last p q t ht => exact .last (hmore ht) ⟨t, q, ht, .inr ⟨by simp [hq], rfl, rfl⟩⟩
  | @cons p p₁ p₂ q t ts ht hcomma _ ih =>
    rw [List.reverse_cons, List.append_assoc, List.singleton_append]
    exact .go (hmore ht) ⟨t, p₁, ht, .inl ⟨p₂, hcomma, rfl, rfl⟩⟩ (ih hq (t :: acc))

theorem recognizes_tyParams {n : Nat} {item : Parser Ty}
    (hitem : Recognizes True (Within n) Anything item fun _ => TyAt) :
    Recognizes False (Within n) (· = .rparen) (tyParams item) fun _ => CommaList TyAt := by
  have hstep : ∀ acc, Recognizes True (Within n) Anything (do
      let param ← item
      let more ← eat .comma
      return (param :: acc, more)) (TyParam acc) := fun acc =>
    hitem.andThen fun t => recognizes_eat (recognizes_pure _) (recognizes_pure _)
  refine Recognizes.restate (G := Anything)
    ((recognizes_iterate (fun acc => (hstep acc).mono id And.left id) []).andThen fun acc =>
      recognizes_pure acc.reverse)
    (fun _ h => ?_) fun {_ p ts q} _ h hq => ⟨?_, trivial⟩
  · obtain ⟨acc, _, hloop, rfl, rfl⟩ := h
    obtain ⟨ts, rfl, hts⟩ := hloop.commaList
    simpa using hts
  · exact ⟨_, q, loop_of_commaList h hq [], by simp, rfl⟩

/-- `Fn(..) -> T` behind its first word. -/
def FuncTail (p : Point) (a : Ty) (q : Point) : Prop :=
  ∃ p₁, Word .lparen p p₁ ∧ ∃ ts p₂, CommaList TyAt p₁ ts p₂ ∧ ∃ p₃, Word .rparen p₂ p₃ ∧
    ∃ p₄, Word .arrow p₃ p₄ ∧ ∃ t p₅, TyAt p₄ t p₅ ∧ a = .func ts t ∧ q = p₅

/-- `Expr<T>` behind its first word. -/
def QuotedTail (p : Point) (a : Ty) (q : Point) : Prop :=
  ∃ p₁, Word .less p p₁ ∧ ∃ t p₂, TyAt p₁ t p₂ ∧ ∃ p₃, Word .greater p₂ p₃ ∧ a = .expr t ∧ q = p₃

/-- A type that starts with a name which is not that of a built-in type. -/
theorem tyAt_name_iff {name : String} {p q : Point} {a : Ty} (hname : Ty.builtin? name = none) :
    TyAt (p.before (.ident name)) a q ↔ name = "Fn" ∧ FuncTail p a q ∨ name = "Expr" ∧ QuotedTail p a q ∨
      a = .named name ∧ q = p ∧ (name = "Fn" → p.head ≠ .lparen) ∧ (name = "Expr" → p.head ≠ .less) := by
  constructor
  · intro h
    cases h with
    | builtin hbuiltin h =>
      cases (word_before_iff.1 h).1
      cases hname.symm.trans hbuiltin
    | named _ h hFn hExpr =>
      obtain ⟨heq, rfl⟩ := word_before_iff.1 h
      cases heq
      exact .inr (.inr ⟨rfl, rfl, hFn, hExpr⟩)
    | array h => cases (word_before_iff.1 h).1
    | func h h₁ h₂ h₃ h₄ h₅ =>
      obtain ⟨heq, rfl⟩ := word_before_iff.1 h
      cases heq
      exact .inl ⟨rfl, _, h₁, _, _, h₂, _, h₃, _, h₄, _, _, h₅, rfl, rfl⟩
    | expr h h₁ h₂ h₃ =>
      obtain ⟨heq, rfl⟩ := word_before_iff.1 h
      cases heq
      exact .inr (.inl ⟨rfl, _, h₁, _, _, h₂, _, h₃, rfl, rfl⟩)
  · rintro (⟨rfl, _, h₁, _, _, h₂, _, h₃, _, h₄, _, _, h₅, rfl, rfl⟩ |
      ⟨rfl, _, h₁, _, _, h₂, _, h₃, rfl, rfl⟩ | ⟨rfl, rfl, hFn, hExpr⟩)
    · exact .func (word_before _ _) h₁ h₂ h₃ h₄ h₅
    · exact .expr (word_before _ _) h₁ h₂ h₃
    · exact .named hname (word_before _ _) hFn hExpr

theorem recognizes_funcTail {n : Nat}
    (ih : Recognizes True (Within n) Anything (tyNested n) fun _ => TyAt) :
    Recognizes True (fun p => Within n p ∧ (p.head == .lparen) = true) Anything (do
      advance
      let params ← tyParams (tyNested n)
      let _ ← expect .rparen
      let _ ← expect .arrow
      let ret ← tyNested n
      return .func params ret) fun _ => FuncTail := by
  refine recognizes_advance (D := Within n) ((recognizes_tyParams ih).bind (fun ts =>
    recognizes_word fun _ => recognizes_word fun _ => ih.andThen fun t => recognizes_pure _) ?_)
    (fun _ hC => eq_of_beq hC.2) fun _ _ hC h => ?_
  · rintro _ _ _ _ _ ⟨_, h, -⟩ -
    exact h.head
  · exact Steady.steady hC.1 h.suffix

theorem recognizes_quotedTail {n : Nat}
    (ih : Recognizes True (Within n) Anything (tyNested n) fun _ => TyAt) :
    Recognizes True (fun p => Within n p ∧ (p.head == .less) = true) Anything (do
      advance
      let inner ← tyNested n
      let _ ← expect .greater
      return .expr inner) fun _ => QuotedTail :=
  recognizes_advance (D := Within n) (ih.andThen fun _ => recognizes_word fun _ => recognizes_pure _)
    (fun _ hC => eq_of_beq hC.2) fun _ _ hC h => Steady.steady hC.1 h.suffix

theorem tyAt_builtin_iff {name : String} {t a : Ty} {p q : Point} (ht : Ty.builtin? name = some t) :
    TyAt (p.before (.ident name)) a q ↔ a = t ∧ q = p := by
  constructor
  · intro h
    cases h with
    | builtin ht' h =>
      obtain ⟨hname, rfl⟩ := word_before_iff.1 h
      cases hname
      exact ⟨Option.some.inj (ht'.symm.trans ht), rfl⟩
    | named hnone h =>
      cases (word_before_iff.1 h).1
      cases hnone.symm.trans ht
    | array h => cases (word_before_iff.1 h).1
    | func h | expr h =>
      cases (word_before_iff.1 h).1
      cases ht
  · rintro ⟨rfl, rfl⟩
    exact .builtin ht (word_before _ _)

/-- Behind a name that is not that of a built-in type, what follows tells what the name is. -/
theorem recognizes_nameTail {n : Nat} {name : String} (hname : Ty.builtin? name = none)
    (ih : Recognizes True (Within n) Anything (tyNested n) fun _ => TyAt) :
    Recognizes False (Within n) Anything (do
      if name == "Fn" && (← at? .lparen) then
        advance
        let params ← tyParams (tyNested n)
        let _ ← expect .rparen
        let _ ← expect .arrow
        let ret ← tyNested n
        return .func params ret
      else if name == "Expr" && (← at? .less) then
        advance
        let inner ← tyNested n
        let _ ← expect .greater
        return .expr inner
      else return .named name) fun _ p => TyAt (p.before (.ident name)) := by
  refine recognizes_at? fun paren => ?_
  split
  · next hFn =>
    obtain ⟨rfl, rfl⟩ : name = "Fn" ∧ paren = true := by simpa using hFn
    refine (recognizes_funcTail ih).congr fun hC => ?_
    rw [tyAt_name_iff hname]
    refine ⟨fun h => .inl ⟨rfl, h⟩, ?_⟩
    rintro (⟨-, h⟩ | ⟨h, -⟩ | ⟨-, -, h, -⟩)
    · exact h
    · exact absurd h (by decide)
    · exact absurd (eq_of_beq hC.2) (h rfl)
  · next hFn =>
    refine recognizes_at? fun less => ?_
    split
    · next hExpr =>
      obtain ⟨rfl, rfl⟩ : name = "Expr" ∧ less = true := by simpa using hExpr
      refine ((recognizes_quotedTail ih).mono id (fun hC => ⟨hC.1.1, hC.2⟩) id).congr fun hC => ?_
      rw [tyAt_name_iff hname]
      refine ⟨fun h => .inr (.inl ⟨rfl, h⟩), ?_⟩
      rintro (⟨h, -⟩ | ⟨-, h⟩ | ⟨-, -, -, h⟩)
      · exact absurd h (by decide)
      · exact h
      · exact absurd (eq_of_beq hC.2) (h rfl)
    · next hExpr =>
      refine Recognizes.congr (recognizes_pure (Ty.named name)) fun {_ p _ _} hC => ?_
      have hparen : name = "Fn" → p.head ≠ .lparen := by
        rintro rfl hhead
        simp_all
      have hless : name = "Expr" → p.head ≠ .less := by
        rintro rfl hhead
        simp_all
      rw [tyAt_name_iff hname]
      constructor
      · rintro ⟨rfl, rfl⟩
        exact .inr (.inr ⟨rfl, rfl, hparen, hless⟩)
      · rintro (⟨rfl, _, h, -⟩ | ⟨rfl, _, h, -⟩ | ⟨rfl, rfl, -⟩)
        · exact absurd h.head (hparen rfl)
        · exact absurd h.head (hless rfl)
        · exact ⟨rfl, rfl⟩

theorem recognizes_tyNested (n : Nat) :
    Recognizes True (Within n) Anything (tyNested n) fun _ => TyAt := by
  induction n with
  | zero => exact recognizes_within_zero .refl
  | succ n ih =>
    rw [tyNested]
    refine recognizes_peek fun l => ?_
    split
    · refine Recognizes.congr (recognizes_advance (l := .lbracket) (D := Within n) (ih.andThen fun t =>
        recognizes_word fun _ => recognizes_pure _) (fun _ hC => hC.2) fun _ _ hC => within_next hC.1)
        fun hC => ⟨?_, fun h => ?_⟩
      · rintro ⟨p₁, h₁, t, p₂, h₂, _, h₃, rfl, rfl⟩
        exact .array h₁ h₂ h₃
      · cases h with
        | array h₁ h₂ h₃ => exact ⟨_, h₁, _, _, h₂, _, h₃, rfl, rfl⟩
        | builtin _ h | named _ h | func h | expr h => cases hC.2.symm.trans h.head
    · next name =>
      refine recognizes_advance_before (D := Within n) ?_ (fun _ hC => hC.2) fun _ _ hC =>
        within_next hC.1
      split
      · next t ht =>
        exact Recognizes.congr (recognizes_pure t) fun _ => (tyAt_builtin_iff ht).symm
      · next hname => exact recognizes_nameTail hname ih
    · next other hbracket hident =>
      refine Recognizes.congr (recognizes_reportHere fun s => ?_) fun hC => ⟨False.elim, fun h => ?_⟩
      · split
        · exact leads_advance s
        · exact .refl s
      · cases h with
        | builtin _ h | named _ h | func h | expr h => exact hident _ (hC.2.symm.trans h.head)
        | array h => exact hbracket (hC.2.symm.trans h.head)

theorem recognizes_ty : Recognizes True C Anything ty fun _ => TyAt :=
  recognizes_bounded recognizes_tyNested

/-! ## References -/

section References

variable [Steady C]

theorem recognizes_path : Recognizes True C Anything path fun _ => PathAt := by
  refine Recognizes.congr (recognizes_ident fun owner _ => recognizes_word fun _ =>
    recognizes_ident fun name _ =>
    recognizes_pure (owner, name)) fun _ => ⟨?_, ?_⟩
  · rintro ⟨owner, _, h₁, _, h₂, name, _, h₃, rfl, rfl⟩
    exact .mk h₁ h₂ h₃
  · rintro ⟨h₁, h₂, h₃⟩
    exact ⟨_, _, h₁, _, h₂, _, _, h₃, rfl, rfl⟩

theorem recognizes_memberTail (kind : MemberKind) :
    Recognizes True C Anything (memberTail kind) (MemberAt kind) := by
  refine Recognizes.congr (recognizes_path.andThen (S := fun path Γ p m q =>
    ∃ t p₁, TyAt p t p₁ ∧ m = ⟨Γ.owner path.1, path.2, kind, t⟩ ∧ q = p₁) fun path =>
      recognizes_ty.andThen fun t => recognizes_closure? fun c => recognizes_pure _) fun _ => ⟨?_, ?_⟩
  · rintro ⟨⟨owner, name⟩, _, h₁, t, _, h₂, rfl, rfl⟩
    exact .mk h₁ h₂
  · rintro ⟨h₁, h₂⟩
    exact ⟨_, _, h₁, _, _, h₂, rfl, rfl⟩

theorem recognizes_memberRef : Recognizes True C Anything memberRef MemberRefAt := by
  have hrest : ∀ kind : MemberKind, Recognizes True C Anything (do
      let member ← memberTail kind
      let _ ← expect .rparen
      return member) fun Γ p m q =>
        ∃ m' p₁, MemberAt kind Γ p m' p₁ ∧ ∃ p₂, Word .rparen p₁ p₂ ∧ m = m' ∧ q = p₂ :=
    fun kind => (recognizes_memberTail kind).andThen fun m => recognizes_word fun _ => recognizes_pure m
  refine Recognizes.congr (recognizes_word fun _ => recognizes_ident (N := False)
    (S := fun word Γ p m q =>
    ∃ kind : MemberKind, word = kind.word ∧ ∃ m' p₁, MemberAt kind Γ p m' p₁ ∧
      ∃ p₂, Word .rparen p₁ p₂ ∧ m = m' ∧ q = p₂) fun word span => ?_) fun _ => ⟨?_, ?_⟩
  · simp only
    split
    · refine Recognizes.congr (hrest .field) fun _ => ⟨fun h => ⟨.field, rfl, h⟩, ?_⟩
      rintro ⟨_ | _, hword, h⟩
      · exact h
      · exact absurd hword (by decide)
    · refine Recognizes.congr (hrest .property) fun _ => ⟨fun h => ⟨.property, rfl, h⟩, ?_⟩
      rintro ⟨_ | _, hword, h⟩
      · exact absurd hword (by decide)
      · exact h
    · next hfield hprop =>
      refine Recognizes.congr (recognizes_report (hrest .property).leads) fun _ => ⟨False.elim, ?_⟩
      rintro ⟨_ | _, hword, h⟩
      · exact hfield hword
      · exact hprop hword
  · rintro ⟨_, h₁, _, _, h₂, kind, rfl, _, _, h₃, _, h₄, rfl, rfl⟩
    exact .mk kind h₁ h₂ h₃ h₄
  · rintro ⟨kind, h₁, h₂, h₃, h₄⟩
    exact ⟨_, h₁, _, _, h₂, kind, rfl, _, _, h₃, _, h₄, rfl, rfl⟩

end References

/-! ## Parts of forms -/

/-- The word behind the parts of a form. -/
def EndsBody (l : Lexeme) : Prop := l = .colon ∨ l = .rparen

theorem endsBody_of_word {p : Point} {P : Point → Prop} {Q : Prop}
    (h : ∃ p₁, Word .rparen p p₁ ∧ P p₁) (_ : Q) :
    EndsBody p.head := by
  obtain ⟨_, h, -⟩ := h
  exact .inr h.head

/-- The first word of an expression. -/
def StartsExpr (l : Lexeme) : Prop := l = .lparen ∨ (∃ name, l = .ident name) ∨ ∃ v t, Literal l v t

theorem startsExpr_of_node {E : Phrase Expr} {Γ : Env} {p q : Point} {n : Node} (h : NodeAt E Γ p n q) :
    StartsExpr p.head := by
  cases h with
  | literal hl h => exact .inr (.inr ⟨_, _, h.head.symm ▸ hl⟩)
  | var _ h | closure _ _ h => exact .inr (.inl ⟨_, h.head⟩)
  | form h => exact .inl h.head

/-- The reader of nested expressions recognizes them, and they start as expressions do. -/
structure ReadsExpr (reader : Parser Expr) (E : Phrase Expr) : Prop where
  recognizes : Recognizes True Anywhere Anything reader E
  starts : ∀ {Γ p e q}, E Γ p e q → StartsExpr p.head

theorem StartsExpr.ne {l l' : Lexeme} (h : StartsExpr l) (hparen : l' ≠ .lparen)
    (hident : ∀ name, l' ≠ .ident name)
    (hliteral : ∀ v t, ¬Literal l' v t) : l ≠ l' := by
  rintro rfl
  rcases h with h | ⟨name, h⟩ | ⟨v, t, h⟩
  · exact hparen h
  · exact hident name h
  · exact hliteral v t h

section Parts

variable {reader : Parser Expr} {E : Phrase Expr}

theorem recognizes_exprs (hE : ReadsExpr reader E) :
    Recognizes False C EndsBody (exprs reader) fun Γ => Many (E Γ) := by
  refine (recognizes_many hE.recognizes (fun {Γ p e q} h => ?_) fun l hl => ?_).anywhere
  · rcases hE.starts h with h | ⟨name, h⟩ | ⟨v, t, h⟩
    · simp [h, endsForm]
    · simp [h, endsForm]
    · generalize p.head = l at h
      cases h <;> rfl
  · rcases hl with rfl | rfl <;> rfl

theorem recognizes_manyForms {α : Type} [Steady C] {item : Parser α} {R : Phrase α}
    (hitem : Recognizes True C Anything item R) (hstart : ∀ {Γ p a q}, R Γ p a q → p.head = .lparen) :
    Recognizes False C EndsBody (manyForms item) fun Γ => Many (R Γ) :=
  recognizes_many hitem (fun h => by simp [hstart h]) fun l hl => by rcases hl with rfl | rfl <;> rfl

theorem recognizes_members [Steady C] :
    Recognizes False C EndsBody (manyForms memberRef) fun Γ => Many (MemberRefAt Γ) :=
  recognizes_manyForms recognizes_memberRef fun ⟨_, h, _, _, _⟩ => h.head

theorem recognizes_object (hE : ReadsExpr reader E) :
    Recognizes True Anywhere Anything (object reader) (ObjectAt E) := by
  refine Recognizes.congr (recognizes_eat (recognizes_pure none)
    (hE.recognizes.andThen fun e => recognizes_pure (some e))) fun _ => ⟨?_, ?_⟩
  · rintro (⟨_, h, rfl, rfl⟩ | ⟨-, e, _, h, rfl, rfl⟩)
    · exact .static h
    · exact .expr h
  · rintro (h | h)
    · exact .inl ⟨_, h, rfl, rfl⟩
    · exact .inr ⟨(hE.starts h).ne nofun nofun nofun, _, _, h, rfl, rfl⟩

theorem recognizes_constructTail (hE : ReadsExpr reader E) :
    Recognizes True Anywhere EndsBody (constructTail reader) (ConstructAt E) := by
  refine Recognizes.congr (recognizes_ty.andThen fun t => recognizes_word fun _ =>
    (recognizes_exprs hE).bind (fun args => recognizes_word fun _ => recognizes_members.bind
      (fun members => recognizes_pure _) ?_) ?_) fun _ => ⟨?_, ?_⟩
  · rintro _ _ _ _ _ ⟨-, rfl⟩ h
    exact h
  · exact endsBody_of_word
  · rintro ⟨t, _, h₁, _, h₂, args, _, h₃, _, h₄, members, _, h₅, rfl, rfl⟩
    exact .mk h₁ h₂ h₃ h₄ h₅
  · rintro ⟨h₁, h₂, h₃, h₄, h₅⟩
    exact ⟨_, _, h₁, _, h₂, _, _, h₃, _, h₄, _, _, h₅, rfl, rfl⟩

/-- A fixed first word. -/
theorem recognizes_fixed {α : Type} {N : Prop} {R : Phrase α} {tail : Parser α} {head word : String}
    {fault : Diagnostic} (htail : Recognizes N Anywhere F tail R) :
    Recognizes False Anywhere F (if head != word then (do report fault; tail) else tail) fun Γ p a q =>
      head = word ∧ R Γ p a q := by
  split
  · next hother =>
    refine Recognizes.congr (recognizes_report htail.leads) fun _ => ⟨False.elim, fun h => ?_⟩
    simp [h.1] at hother
  · next hsame =>
    obtain rfl : head = word := by simpa using hsame
    exact htail.congr fun _ => ⟨fun h => ⟨rfl, h⟩, And.right⟩

theorem recognizes_constructForm (hE : ReadsExpr reader E) :
    Recognizes True Anywhere Anything (constructForm reader) (ConstructFormAt E) := by
  refine Recognizes.congr (recognizes_word fun _ => recognizes_ident fun head span => recognizes_fixed
    ((recognizes_constructTail hE).bind (fun c => recognizes_word fun _ => recognizes_pure c)
      endsBody_of_word))
    fun _ => ⟨?_, ?_⟩
  · rintro ⟨_, h₁, _, _, h₂, rfl, c, _, h₃, _, h₄, rfl, rfl⟩
    exact .mk h₁ h₂ h₃ h₄
  · rintro ⟨h₁, h₂, h₃, h₄⟩
    exact ⟨_, h₁, _, _, h₂, rfl, _, _, h₃, _, h₄, rfl, rfl⟩

theorem recognizes_element (hE : ReadsExpr reader E) :
    Recognizes True Anywhere Anything (element reader) (ElementAt E) := by
  refine Recognizes.congr (recognizes_word fun _ => recognizes_ident fun head span => recognizes_fixed
    (recognizes_path.andThen fun path => (recognizes_exprs hE).bind
      (fun args => recognizes_word fun _ => recognizes_pure _) endsBody_of_word)) fun _ => ⟨?_, ?_⟩
  · rintro ⟨_, h₁, _, _, h₂, rfl, ⟨owner, name⟩, _, h₃, args, _, h₄, _, h₅, rfl, rfl⟩
    exact .mk h₁ h₂ h₃ h₄ h₅
  · rintro ⟨h₁, h₂, h₃, h₄, h₅⟩
    exact ⟨_, h₁, _, _, h₂, rfl, _, _, h₃, _, _, h₄, _, h₅, rfl, rfl⟩

/-- What stands in a binding behind its first word and its member. -/
def BindingTail (E : Phrase Expr) (head : String) (m : Member) : Phrase (Binding Expr) := fun Γ p b q =>
  (head = "bind" ∧ ∃ bs p₁, Many (BindingAt E Γ) p bs p₁ ∧
    ∃ p₂, Word .rparen p₁ p₂ ∧ b = .nested m bs ∧ q = p₂) ∨
  (head = "list" ∧ ∃ es p₁, Many (ElementAt E Γ) p es p₁ ∧
    ∃ p₂, Word .rparen p₁ p₂ ∧ b = .elements m es ∧ q = p₂)

theorem recognizes_bindingNested (hE : ReadsExpr reader E) (n : Nat) :
    Recognizes True (Within n) Anything (bindingNested reader n) (BindingAt E) := by
  induction n with
  | zero => exact recognizes_within_zero .refl
  | succ n ih =>
    rw [bindingNested]
    have hbindings : Recognizes False (Within n) EndsBody (manyForms (bindingNested reader n)) fun Γ =>
        Many (BindingAt E Γ) :=
      recognizes_manyForms ih fun h => by cases h with | assign h | nested h | elements h => exact h.head
    have helements : Recognizes False (Within n) EndsBody (manyForms (element reader)) fun Γ =>
        Many (ElementAt E Γ) :=
      recognizes_manyForms (recognizes_element hE).anywhere fun ⟨h, _, _, _, _⟩ => h.head
    refine Recognizes.congr (recognizes_expect (D := Within n) (fun opening => recognizes_eat
      (recognizes_memberRef.andThen fun m => hE.recognizes.anywhere.andThen fun e =>
      recognizes_word fun _ =>
        recognizes_pure (Binding.assign m e))
      (recognizes_ident fun head span => recognizes_memberRef.andThen (N := False)
      (S := BindingTail E head)
        fun m => ?_)) fun _ _ hC => within_next hC) fun _ => ⟨?_, ?_⟩
    · simp only
      split
      · refine Recognizes.congr (hbindings.bind (fun bs => recognizes_word fun _ =>
          recognizes_pure (Binding.nested m bs))
          endsBody_of_word) fun _ => ⟨fun h => .inl ⟨rfl, h⟩, ?_⟩
        rintro (⟨-, h⟩ | ⟨h, -⟩)
        · exact h
        · exact absurd h (by decide)
      · refine Recognizes.congr (helements.bind (fun es => recognizes_word fun _ =>
          recognizes_pure (Binding.elements m es))
          endsBody_of_word) fun _ => ⟨fun h => .inr ⟨rfl, h⟩, ?_⟩
        rintro (⟨h, -⟩ | ⟨-, h⟩)
        · exact absurd h (by decide)
        · exact h
      · next hbind hlist =>
        have hrest : ∀ s, Leads s ((do
            let _ ← expect .rparen
            return Binding.nested m []) s : Binding Expr × ParseState).2 :=
          (recognizes_word (C := Anywhere) (F := Anything) fun _ =>
            recognizes_pure (Binding.nested m [])).leads
        refine Recognizes.congr (recognizes_report hrest) fun _ => ⟨False.elim, ?_⟩
        rintro (⟨h, -⟩ | ⟨h, -⟩)
        · exact hbind h
        · exact hlist h
    · rintro ⟨_, h₁, ⟨_, h₂, m, _, h₃, e, _, h₄, _, h₅, rfl, rfl⟩ | ⟨-, _, _, h₂, m, _, h₃,
        ⟨rfl, bs, _, h₄, _, h₅, rfl, rfl⟩ | ⟨rfl, es, _, h₄, _, h₅, rfl, rfl⟩⟩⟩
      · exact .assign h₁ h₂ h₃ h₄ h₅
      · exact .nested h₁ h₂ h₃ h₄ h₅
      · exact .elements h₁ h₂ h₃ h₄ h₅
    · rintro (⟨h₁, h₂, h₃, h₄, h₅⟩ | ⟨h₁, h₂, h₃, h₄, h₅⟩ | ⟨h₁, h₂, h₃, h₄, h₅⟩)
      · exact ⟨_, h₁, .inl ⟨_, h₂, _, _, h₃, _, _, h₄, _, h₅, rfl, rfl⟩⟩
      · exact ⟨_, h₁, .inr ⟨by simp [h₂.head], _, _, h₂, _, _, h₃,
          .inl ⟨rfl, _, _, h₄, _, h₅, rfl, rfl⟩⟩⟩
      · exact ⟨_, h₁, .inr ⟨by simp [h₂.head], _, _, h₂, _, _, h₃,
          .inr ⟨rfl, _, _, h₄, _, h₅, rfl, rfl⟩⟩⟩

theorem recognizes_binding (hE : ReadsExpr reader E) :
    Recognizes True C Anything (binding reader) (BindingAt E) :=
  recognizes_bounded (recognizes_bindingNested hE)

theorem recognizes_literal {α : Type} {R : Phrase α} {l : Lexeme} {a : α} (hl : l ≠ .eof)
    (hR : ∀ {Γ p b q}, p.head = l → (R Γ p b q ↔ b = a ∧ Word l p q)) :
    Recognizes True (fun p => C p ∧ p.head = l) F (do
      advance
      return a) R := by
  have : IsWord l := ⟨hl⟩
  refine Recognizes.congr (recognizes_advance (D := Anywhere) (recognizes_pure a) (fun _ hC => hC.2)
    fun _ _ _ _ => trivial) fun hC => ?_
  rw [hR hC.2]
  constructor
  · rintro ⟨_, h, rfl, rfl⟩
    exact ⟨rfl, h⟩
  · rintro ⟨rfl, h⟩
    exact ⟨_, h, rfl, rfl⟩

theorem valueAt_literal_iff {Γ : Env} {p q : Point} {l : Lexeme} {v a : Value} {t : Ty}
    (hl : Literal l v t)
    (hp : p.head = l) : ValueAt E Γ p a q ↔ a = v ∧ Word l p q := by
  constructor
  · intro h
    cases h with
    | literal hl' h =>
      obtain rfl := hp.symm.trans h.head
      exact ⟨(hl.eq hl').1, h⟩
    | closure _ h | tree h =>
      cases hp.symm.trans h.head
      cases hl
  · rintro ⟨rfl, h⟩
    exact .literal hl h

/-- The name of a closure that was declared. -/
theorem recognizes_declared {α : Type} {name : String} {f : Closure Value → α} {fault : Diagnostic}
    {b : α} :
    Recognizes False C F (do
      match ← closure? name with
      | some c => return f c
      | none =>
        report fault
        return b) fun Γ p a q => ∃ c, Γ.closures.lookup name = some c ∧ a = f c ∧ q = p :=
  recognizes_closure? (S := fun found _ p a q => ∃ c, found = some c ∧ a = f c ∧ q = p) fun found => by
    cases found with
    | none =>
      exact Recognizes.congr (recognizes_report .refl) fun _ => ⟨False.elim, fun ⟨_, h, _⟩ => nomatch h⟩
    | some c =>
      refine Recognizes.congr (recognizes_pure (f c)) fun _ => ⟨fun h => ⟨c, rfl, h⟩, ?_⟩
      rintro ⟨_, ⟨⟩, h⟩
      exact h

/-- A tree in a constant, or nothing that could be a payload. -/
theorem recognizes_treeValue (hE : ReadsExpr reader E) {other : Lexeme} (hliteral : ∀ v t, ¬Literal other v t)
    (hident : ∀ name, other ≠ .ident name) :
    Recognizes True (fun p => C p ∧ p.head = other) Anything (treeValue reader other) (ValueAt E) := by
  refine recognizes_opens ?_ ?_
  · refine Recognizes.congr (recognizes_advance (l := .lparen) (D := fun p => p.head = .ident "tree")
      (recognizes_advance (l := .ident "tree") (D := Anywhere) (hE.recognizes.andThen fun t =>
        recognizes_word fun _ => recognizes_pure (Value.tree t)) (fun _ h => h) fun _ _ _ _ => trivial)
      (fun _ ⟨_, _, _, h, _⟩ => h.head) fun _ _ ⟨_, _, _, h, h'⟩ hword => ?_) fun hC =>
      ⟨?_, fun h => ?_⟩
    · rw [hword.next h]
      exact h'.head
    · rintro ⟨_, h₁, _, h₂, t, _, h₃, _, h₄, rfl, rfl⟩
      exact .tree h₁ h₂ h₃ h₄
    · obtain ⟨⟨-, hhead⟩, -⟩ := hC
      cases h with
      | tree h₁ h₂ h₃ h₄ => exact ⟨_, h₁, _, h₂, _, _, h₃, _, h₄, rfl, rfl⟩
      | closure _ h => exact absurd (hhead.symm.trans h.head) (hident _)
      | literal hl h => exact absurd (h.head.symm.trans hhead ▸ hl) (hliteral _ _)
  · refine Recognizes.congr (recognizes_reportHere leads_skipForm) fun hC => ⟨False.elim, fun h => ?_⟩
    obtain ⟨⟨-, hhead⟩, hopens⟩ := hC
    cases h with
    | tree h h' => exact hopens ⟨_, _, h, h'⟩
    | closure _ h => exact hident _ (hhead.symm.trans h.head)
    | literal hl h => exact hliteral _ _ (h.head.symm.trans hhead ▸ hl)

theorem recognizes_value (hE : ReadsExpr reader E) :
    Recognizes True Anywhere Anything (value reader) (ValueAt E) := by
  refine recognizes_peek fun l => ?_
  cases l with
  | integer n => exact recognizes_literal nofun (valueAt_literal_iff (.integer n))
  | float x => exact recognizes_literal nofun (valueAt_literal_iff (.float x))
  | str s => exact recognizes_literal nofun (valueAt_literal_iff (.str s))
  | true => exact recognizes_literal nofun (valueAt_literal_iff .true)
  | false => exact recognizes_literal nofun (valueAt_literal_iff .false)
  | null => exact recognizes_literal nofun (valueAt_literal_iff .null)
  | ident name =>
    refine recognizes_peekSpan fun span => Recognizes.congr
      (recognizes_advance (l := .ident name) (D := Anywhere) recognizes_declared (fun _ hC => hC.2)
        fun _ _ _ _ => trivial) fun hC => ⟨?_, fun h => ?_⟩
    · rintro ⟨_, h, c, hc, rfl, rfl⟩
      exact .closure hc h
    · cases h with
      | closure hc h =>
        cases hC.2.symm.trans h.head
        exact ⟨_, h, _, hc, rfl, rfl⟩
      | literal hl h => exact absurd (h.head.symm.trans hC.2) hl.not_ident
      | tree h => cases hC.2.symm.trans h.head
  | _ => exact recognizes_treeValue hE nofun nofun

/-! ## Lambdas -/

/-- A parameter whose name is none of those before. -/
def NewParam (acc : List Variable) : Phrase (List Variable × Bool) := fun _ p r q =>
  ∃ v, ParamAt p v q ∧ acc.any (·.name == v.name) = false ∧ r = (v :: acc, true)

theorem recognizes_newParam (acc : List Variable) :
    Recognizes True (fun p => C p ∧ (p.head == .lparen) = true) Anything (paramStep acc)
      (NewParam acc) := by
  have hrest : ∀ (name : String) (t : Ty), Recognizes False Anywhere Anything (do
      let v ← draw (Variable.alloc name t)
      return (v :: acc, true)) fun _ p r q =>
        ∃ v p₁, Drawn (Variable.alloc name t) p v p₁ ∧ r = (v :: acc, true) ∧ q = p₁ :=
    fun name t => Recognizes.andThen (recognizes_draw fun supply => Nat.le_succ supply.next)
      fun v => recognizes_pure _
  refine Recognizes.congr (recognizes_advance (l := .lparen) (D := Anywhere)
    (recognizes_ident fun name span =>
    recognizes_ty.andThen fun t => recognizes_word (N := False) (R := fun _ p r q =>
      acc.any (·.name == name) = false ∧
        ∃ v p₁, Drawn (Variable.alloc name t) p v p₁ ∧ r = (v :: acc, true) ∧ q = p₁)
      fun _ => ?_) (fun _ hC => eq_of_beq hC.2) fun _ _ _ _ => trivial) fun _ => ⟨?_, ?_⟩
  · simp only
    split
    · next htwice =>
      refine Recognizes.congr (recognizes_report (hrest name t).leads) fun _ => ⟨False.elim, fun h => ?_⟩
      rw [h.1] at htwice
      cases htwice
    · next honce =>
      exact (hrest name t).congr fun _ => ⟨fun h => ⟨Bool.eq_false_iff.2 honce, h⟩, And.right⟩
  · rintro ⟨_, h₁, name, _, h₂, t, _, h₃, _, h₄, hnew, v, _, h₅, rfl, rfl⟩
    exact ⟨v, .mk h₁ h₂ h₃ h₄ h₅, h₅.name_eq.symm ▸ hnew, rfl⟩
  · rintro ⟨v, ⟨h₁, h₂, h₃, h₄, h₅⟩, hnew, rfl⟩
    exact ⟨_, h₁, _, _, h₂, _, _, h₃, _, h₄, h₅.name_eq ▸ hnew, v, _, h₅, rfl, rfl⟩

/-- A new item has another name than those before it. -/
theorem nodup_map_cons {α : Type} {name : α → String} {a : α} {as : List α} :
    ((a :: as).map name).Nodup ↔ as.any (name · == name a) = false ∧ (as.map name).Nodup := by
  simp only [List.map_cons, List.nodup_cons, List.mem_map, List.any_eq_false, beq_iff_eq,
    not_exists, not_and]

theorem Loop.params {more : Lexeme → Bool} {Γ : Env} {p q : Point} {acc acc' : List Variable}
    (h : Loop more NewParam Γ p acc acc' q) (hacc : (acc.map (·.name)).Nodup) :
    ∃ vs, acc' = vs.reverse ++ acc ∧ Many ParamAt p vs q ∧ (acc'.map (·.name)).Nodup := by
  induction h with
  | stop _ => exact ⟨[], rfl, .nil, hacc⟩
  | last _ hlast =>
    obtain ⟨v, -, -, heq⟩ := hlast
    cases heq
  | go _ hhere _ ih =>
    obtain ⟨v, hv, hnew, heq⟩ := hhere
    cases heq
    obtain ⟨vs, rfl, hvs, hnodup⟩ := ih (nodup_map_cons.2 ⟨hnew, hacc⟩)
    exact ⟨v :: vs, by simp, .cons hv hvs, hnodup⟩

theorem loop_of_params (Γ : Env) {p q : Point} {vs acc : List Variable} (h : Many ParamAt p vs q)
    (hq : q.head ≠ .lparen) (hnodup : ((vs.reverse ++ acc).map (·.name)).Nodup) :
    Loop (· == .lparen) NewParam Γ p acc (vs.reverse ++ acc) q := by
  induction h generalizing acc with
  | nil => exact .stop (beq_eq_false_iff_ne.2 hq)
  | @cons p p₁ q v vs hv _ ih =>
    rw [List.reverse_cons, List.append_assoc, List.singleton_append] at hnodup ⊢
    have hhead : p.head = .lparen := by
      obtain ⟨h, -, -, -, -⟩ := hv
      exact h.head
    have hnew := hnodup.sublist ((List.sublist_append_right vs.reverse (v :: acc)).map (·.name))
    exact .go (beq_iff_eq.2 hhead) ⟨v, hv, (nodup_map_cons.1 hnew).1, rfl⟩ (ih hq hnodup)

/-- An expression is read with more variables in scope, which leave it again. -/
theorem recognizes_inScope {α : Type} (hE : ReadsExpr reader E) {f : Expr → α}
    (more : List (String × Variable)) :
    Recognizes False Anywhere Anything (do
      let outer := (← get).scopes
      modify fun s => { s with scopes := more ++ outer }
      let body ← reader
      modify fun s => { s with scopes := outer }
      return f body) fun Γ p a q =>
        ∃ body, E { Γ with scopes := more ++ Γ.scopes } p body q ∧ a = f body where
  leads s := by
    have h := hE.recognizes.leads { s with scopes := more ++ s.scopes }
    exact ⟨h.faults, rfl, h.closures, h.supply, h.tokens, h.more⟩
  moves := False.elim
  sound s hs _ hfaults :=
    ⟨_, hE.recognizes.sound { s with scopes := more ++ s.scopes } hs trivial hfaults, rfl⟩
  complete := by
    rintro s _ q hs - ⟨body, hbody, rfl⟩ -
    obtain ⟨s', hrun, hpoint, hfaults⟩ :=
      hE.recognizes.complete { s with scopes := more ++ s.scopes } body q hs trivial hbody trivial
    refine ⟨{ s' with scopes := s.scopes }, ?_, hpoint, hfaults⟩
    show (f (reader { s with scopes := more ++ s.scopes }).1,
      { (reader { s with scopes := more ++ s.scopes }).2 with scopes := s.scopes }) = _
    rw [hrun]

/-- A lambda behind its first word. -/
def LambdaTail (E : Phrase Expr) : Phrase Node := fun Γ p n q => ∃ p₁, Word .lparen p p₁ ∧
  ∃ params p₂, Many ParamAt p₁ params p₂ ∧ (params.map (·.name)).Nodup ∧ ∃ p₃, Word .rparen p₂ p₃ ∧
    ∃ body, E (Γ.under params) p₃ body q ∧ n = .lambdaOf params body

theorem recognizes_lambda (hE : ReadsExpr reader E) :
    Recognizes True Anywhere Anything (lambda reader) (LambdaTail E) := by
  refine Recognizes.congr
    (recognizes_word fun _ => (recognizes_iterate recognizes_newParam []).andThen fun params =>
    recognizes_word fun _ => recognizes_inScope hE _) fun {Γ _ _ _} _ => ⟨?_, ?_⟩
  · rintro ⟨_, h₁, acc, _, hloop, _, h₃, body, h₄, rfl⟩
    obtain ⟨params, rfl, h₂, hnodup⟩ := hloop.params List.nodup_nil
    rw [List.append_nil] at h₄ hnodup ⊢
    rw [List.map_reverse, List.nodup_reverse] at hnodup
    exact ⟨_, h₁, params, _, h₂, hnodup, _, h₃, body, h₄, by rw [List.reverse_reverse]⟩
  · rintro ⟨_, h₁, params, _, h₂, hnodup, _, h₃, body, h₄, rfl⟩
    have hnodup' : ((params.reverse ++ []).map Variable.name).Nodup := by
      rwa [List.append_nil, List.map_reverse, List.nodup_reverse]
    have hloop := loop_of_params Γ h₂ (by simp [h₃.head]) hnodup'
    rw [List.append_nil] at hloop
    exact ⟨_, h₁, _, _, hloop, _, h₃, body, h₄, by rw [List.reverse_reverse]⟩

end Parts

end Parser

end ExprTree
