import ExprTree.Proofs.Legible
import ExprTree.Proofs.Recasting
import ExprTree.Proofs.Taking

/-!
# Reading the parts of printed expressions

`Rereads` says that the document of an expression spells lexemes which a reader takes as the same
expression up to identities. Given that of the expressions in them, this module shows it of payloads,
of forms with the type declared at their end, of constructor calls and of initializers.

What is read again is compared with what was printed under two recastings: `Recasting.printed` gives a
variable the name that it is printed as, and `Recasting.called` keeps its own.
-/

namespace ExprTree

/-! ## Trees up to identities -/

/-- What counts as equal when a tree is read again: the owners of members, and the identities of
closures in the tree that is printed and in the one that is read. -/
structure Likening where
  owner : Owner → Owner
  printed : Nat → Nat
  read : Nat → Nat

/-- Each variable becomes the name that it is printed as. -/
def Recasting.printed (ns : Names) (like : Likening) : Recasting where
  var v := ⟨0, ns.name v, v.ty⟩
  closure := like.printed
  owner := like.owner

/-- Each variable becomes its own name. -/
def Recasting.called (like : Likening) : Recasting where
  var v := ⟨0, v.name, v.ty⟩
  closure := like.read
  owner := like.owner

theorem Expr.ty_recast {r : Recasting} {e : Expr} (h : ∀ v ∈ e.node.own, (r.var v).ty = v.ty) :
    (e.recast r).ty = e.ty := by
  obtain ⟨l, n⟩ := e
  cases n with
  | «variable» v => exact h v (List.mem_singleton_self v)
  | construct c | memberInit c _ | listInit c _ => obtain ⟨t, as, ms⟩ := c; rfl
  | _ => rfl

theorem map_eq_of_forall₂ {α β γ : Type} {f : β → γ} {g : α → γ} {as : List α} {bs : List β}
    (h : List.Forall₂ (fun a b => f b = g a) as bs) : bs.map f = as.map g := by
  induction h with
  | nil => rfl
  | cons hab _ ih => rw [List.map_cons, List.map_cons, hab, ih]

theorem exists_of_mem_right {α β : Type} {R : α → β → Prop} {as : List α} {bs : List β} {b : β}
    (h : List.Forall₂ R as bs) (hb : b ∈ bs) : ∃ a ∈ as, R a b := by
  induction h with
  | nil => cases hb
  | @cons a b' as bs hab _ ih =>
    rcases List.mem_cons.1 hb with rfl | hb
    · exact ⟨a, List.mem_cons_self, hab⟩
    · obtain ⟨a', ha', hab'⟩ := ih hb
      exact ⟨a', List.mem_cons_of_mem _ ha', hab'⟩

theorem exists_of_mem_left {α β : Type} {R : α → β → Prop} {as : List α} {bs : List β} {a : α}
    (h : List.Forall₂ R as bs) (ha : a ∈ as) : ∃ b ∈ bs, R a b :=
  exists_of_mem_right h.flip ha

theorem Expr.recastList_eq {r r' : Recasting} {es es' : List Expr}
    (h : List.Forall₂ (fun e e' : Expr => e'.recast r' = e.recast r) es es') :
    Expr.recastList r' es' = Expr.recastList r es := by
  induction h with
  | nil => rfl
  | cons he _ ih => rw [Expr.recastList, Expr.recastList, he, ih]

theorem Expr.recastElements_eq {r r' : Recasting} {es es' : List (ElementInit Expr)}
    (h : List.Forall₂ (fun i i' : ElementInit Expr => i'.addMethod = i.addMethod ∧
      Expr.recastList r' i'.args = Expr.recastList r i.args) es es') :
    Expr.recastElements r' es' = Expr.recastElements r es := by
  induction h with
  | nil => rfl
  | @cons i i' _ _ hi _ ih =>
    obtain ⟨m, as⟩ := i
    obtain ⟨m', as'⟩ := i'
    obtain ⟨rfl, has⟩ := hi
    rw [Expr.recastElements, Expr.recastElements, ih]
    exact congrArg (fun as => ElementInit.mk _ as :: _) has

theorem Expr.recastBindings_eq {r r' : Recasting} {bs bs' : List (Binding Expr)}
    (h : List.Forall₂ (fun b b' => Expr.recastBinding r' b' = Expr.recastBinding r b) bs bs') :
    Expr.recastBindings r' bs' = Expr.recastBindings r bs := by
  induction h with
  | nil => rfl
  | cons hb _ ih => rw [Expr.recastBindings, Expr.recastBindings, hb, ih]

namespace Printer

theorem exprs_eq_map (ns : Names) (es : List Expr) : exprs ns es = es.map (expr ns) := by
  induction es with
  | nil => rfl
  | cons e es ih => rw [exprs, ih, List.map_cons]

theorem elements_eq_map (ns : Names) (es : List (ElementInit Expr)) : elements ns es =
    es.map fun i => .headed "add" (.text i.addMethod.path :: exprs ns i.args) 2 := by
  induction es with
  | nil => rfl
  | cons i es ih => rw [elements, ih, List.map_cons]

theorem bindings_eq_map (ns : Names) (bs : List (Binding Expr)) :
    bindings ns bs = bs.map (binding ns) := by
  induction bs with
  | nil => rfl
  | cons b bs ih => rw [bindings, ih, List.map_cons]

end Printer

/-- The lexeme of a payload that is written as a single one. -/
def Value.lexeme? : Value → Option Lexeme
  | .null => some .null
  | .bool b => some (if b then .true else .false)
  | .int n => some (.integer n)
  | .float x => some (.float x)
  | .str s => some (.str s)
  | .closure c => some (.ident c.name)
  | .tree _ => none

/-- Does the lexeme open an expression? -/
def Lexeme.opensExpr (l : Lexeme) : Bool :=
  !Parser.endsForm l && l != .colon && !([.static, .less, .closure, .free].contains l)

theorem opensExpr_iff {l : Lexeme} : l.opensExpr = true ↔
    (!Parser.endsForm l && l != .colon) = true ∧ l ∉ [.static, .less, .closure, .free] := by
  rw [Lexeme.opensExpr, Bool.and_eq_true, Bool.not_eq_true', List.contains_eq_mem, decide_eq_false_iff_not]

namespace Parser

section Parts

variable (ns : Names) (like : Likening) (scopes : List (String × Variable))
  (closures : List (String × Closure Value)) (reader : Parser Expr)

/-- The document of the expression spells lexemes that the reader takes as an expression, the same
up to identities. -/
def Rereads (e : Expr) : Prop :=
  ∃ l ls, (Printer.expr ns e).Spelled (l :: ls) ∧ l.opensExpr = true ∧
    Takes scopes closures reader (l :: ls) Anything
      fun e' => e'.recast (.called like) = e.recast (.printed ns like)

variable {ns like scopes closures reader}

/-- The type of what is read again. -/
theorem ty_eq_of_recast {e e' : Expr}
    (h : e'.recast (.called like) = e.recast (.printed ns like)) : e'.ty = e.ty := by
  rw [← Expr.ty_recast (e := e') (r := .called like) fun _ _ => rfl, h, Expr.ty_recast fun _ _ => rfl]

/-- A list of items that are each spelled and taken; what opens an item lets the loop go on. -/
theorem takes_items {α γ : Type} {opens : Lexeme → Bool} (more : Lexeme → Bool)
    (next : Lexeme → Prop) {item : Parser α} {doc : γ → Doc} {R : γ → α → Prop} {cs : List γ}
    (h : ∀ c ∈ cs, ∃ l ls, (doc c).Spelled (l :: ls) ∧ opens l = true ∧
      Takes scopes closures item (l :: ls) Anything (R c))
    (hmore : ∀ l, opens l = true → more l = true) (hstop : ∀ l, next l → more l = false) :
    ∃ lss, List.Forall₂ Doc.Spelled (cs.map doc) lss ∧
      (∀ ls ∈ lss, ∃ l ls', ls = l :: ls' ∧ opens l = true) ∧
      Takes scopes closures (many more item) lss.flatten next (List.Forall₂ R cs) := by
  have hitems : ∃ lss, List.Forall₂ Doc.Spelled (cs.map doc) lss ∧
      (∀ ls ∈ lss, ∃ l ls', ls = l :: ls' ∧ opens l = true) ∧
      List.Forall₂ (fun c ls => (∃ l ls', ls = l :: ls' ∧ more l = true) ∧
        Takes scopes closures item ls Anything (R c)) cs lss := by
    induction cs with
    | nil => exact ⟨[], .nil, by simp, .nil⟩
    | cons c cs ih =>
      obtain ⟨l, ls, hspelled, hopens, htakes⟩ := h c List.mem_cons_self
      obtain ⟨lss, hrest, hopensRest, htakesRest⟩ := ih fun c hc => h c (List.mem_cons_of_mem _ hc)
      refine ⟨(l :: ls) :: lss, .cons hspelled hrest, ?_,
        .cons ⟨⟨l, ls, rfl, hmore l hopens⟩, htakes⟩ htakesRest⟩
      exact List.forall_mem_cons.2 ⟨⟨l, ls, rfl, hopens⟩, hopensRest⟩
  obtain ⟨lss, hspelled, hopens, htakes⟩ := hitems
  exact ⟨lss, hspelled, hopens, takes_many htakes hstop⟩

/-- Expressions are read as the same ones up to identities, and none starts with what could continue
a type. -/
theorem takes_exprs {es : List Expr} (h : ∀ e ∈ es, Rereads ns like scopes closures reader e) :
    ∃ lss, List.Forall₂ Doc.Spelled (Printer.exprs ns es) lss ∧
      (∀ l, EndsTy l → EndsTy (lss.flatten.head?.getD l)) ∧
      Takes scopes closures (exprs reader) lss.flatten (fun l => endsForm l = true ∨ l = .colon)
        fun es' => Expr.recastList (.called like) es' = Expr.recastList (.printed ns like) es := by
  obtain ⟨lss, hspelled, hopens, htakes⟩ := takes_items
    (fun l => !endsForm l && l != .colon) (fun l => endsForm l = true ∨ l = .colon) h
    (fun l hl => (opensExpr_iff.1 hl).1)
    (by
      rintro l (hl | rfl)
      · rw [hl]
        rfl
      · rfl)
  rw [Printer.exprs_eq_map]
  refine ⟨lss, hspelled, fun l hl => ?_,
    htakes.imp (fun es' hes' => Expr.recastList_eq hes') fun _ hl => hl⟩
  cases lss with
  | nil => exact hl
  | cons ls lss =>
    obtain ⟨l', ls', rfl, hl'⟩ := hopens ls List.mem_cons_self
    rintro rfl
    exact absurd hl' (by decide)

theorem takes_object {o : Option Expr}
    (h : ∀ e ∈ o.toList, Rereads ns like scopes closures reader e) :
    ∃ ls, (Printer.object ns o).Spelled ls ∧ Takes scopes closures (object reader) ls Anything
      fun o' => o'.isNone = o.isNone ∧
        Expr.recastOption (.called like) o' = Expr.recastOption (.printed ns like) o := by
  cases o with
  | none => exact ⟨[.static], Doc.spelled_text (Lexer.spells_name (by decide)),
      takes_eat (takes_pure ⟨rfl, rfl⟩)⟩
  | some e =>
    obtain ⟨l, ls, hspelled, hopens, htakes⟩ := h e (List.mem_singleton_self e)
    have hstatic : l ≠ .static := by
      rintro rfl
      exact absurd hopens (by decide)
    refine ⟨l :: ls, by rwa [Printer.object], takes_eat_other (fun _ _ => hstatic) ?_⟩
    refine htakes.thenPure fun e' he' => ⟨rfl, ?_⟩
    rw [Expr.recastOption, Expr.recastOption, he']

/-! ## Forms -/

theorem formBody_unary (op : UnaryOp) (span : Span) : formBody reader op.word span = (do
    let operand ← reader
    if op.takesType then return .unary op operand (← ty) none else return .unaryOf op operand) := by
  cases op <;> rfl

theorem formBody_binary (op : BinaryOp) (span : Span) : formBody reader op.word span = (do
    let left ← reader
    let right ← reader
    return .binaryOf op left right) := by
  cases op <;> rfl

/-- The lexeme stands behind the parts of a form: the form ends there, or its type follows. -/
def BehindParts (l : Lexeme) : Prop := l = .rparen ∨ l = .colon

theorem BehindParts.endsTy {l : Lexeme} (h : BehindParts l) : EndsTy l := by
  rcases h with rfl | rfl <;> exact Lexeme.noConfusion

theorem BehindParts.endsExprs {l : Lexeme} (h : BehindParts l) : endsForm l = true ∨ l = .colon :=
  h.imp (fun h => by rw [h]; rfl) id

theorem BehindParts.endsForms {l : Lexeme} (h : BehindParts l) : l ≠ .lparen := by
  rcases h with rfl | rfl <;> exact Lexeme.noConfusion

theorem takes_declareTy {n : Node} {Q : Node → Prop} {declared : Option Ty}
    (hnone : declared = none → Q n)
    (hsome : ∀ t ∈ declared, t.isReadable = true ∧ t.avoidsFn = true ∧
      ∃ n', n.withTy? t = some n' ∧ Q n') :
    Takes scopes closures (declareTy n) (Doc.declaredLexemes declared) (· = .rparen) Q := by
  cases declared with
  | none =>
    refine takes_eat_other ?_ (takes_pure (hnone rfl))
    rintro _ rfl
    exact Lexeme.noConfusion
  | some t =>
    obtain ⟨hreadable, havoids, n', hn', hQ⟩ := hsome t rfl
    refine takes_eat (takes_peekSpan fun _ => (takes_ty hreadable havoids).last ?_ ?_)
    · rintro _ rfl
      simp only [hn']
      exact takes_pure hQ
    · rintro _ rfl
      exact Lexeme.noConfusion

/-- A form is read part by part, and then the type declared at its end. -/
theorem takes_form {head : String} {ls : List Lexeme} {P Q : Node → Prop}
    (declared : Option Ty)
    (hbody : ∀ span, Takes scopes closures (formBody reader head span) ls BehindParts P)
    (hnone : declared = none → ∀ n, P n → Q n)
    (hsome : ∀ t ∈ declared, t.isReadable = true ∧ t.avoidsFn = true ∧
      ∀ n, P n → ∃ n', n.withTy? t = some n' ∧ Q n') :
    Takes scopes closures (exprNode reader)
      (.lparen :: .ident head :: (ls ++ Doc.declaredLexemes declared ++ [.rparen])) Anything Q := by
  refine takes_peek (takes_expect fun opening => takes_peek (takes_peekSpan fun span =>
    takes_advance ?_))
  rw [List.append_assoc]
  refine (hbody _).bind (fun n hn => ?_) ?_
  · refine (takes_declareTy (fun h => hnone h n hn) fun t ht => ?_).bind (fun n' hn' => ?_)
      fun _ _ => rfl
    · obtain ⟨hreadable, havoids, hwith⟩ := hsome t ht
      exact ⟨hreadable, havoids, hwith n hn⟩
    · refine takes_at? (b := true) (fun _ _ => rfl) ?_
      exact takes_eat (takes_pure hn')
  · intro _ _
    cases declared with
    | none => exact .inl rfl
    | some t => exact .inr rfl

/-- A form without a declared type. -/
theorem takes_plainForm {head : String} {ls : List Lexeme} {Q : Node → Prop}
    (hbody : ∀ span, Takes scopes closures (formBody reader head span) ls BehindParts Q) :
    Takes scopes closures (exprNode reader)
      (.lparen :: .ident head :: (ls ++ [.rparen])) Anything Q := by
  have hform := takes_form none (Q := Q) hbody (fun _ _ h => h) (by simp)
  rwa [Doc.declaredLexemes, List.append_nil] at hform

/-! ## Payloads -/

variable (ns like closures) in
/-- A closure of this name is declared, the same up to identities. -/
def Declared (c : Closure Value) : Prop :=
  ∃ c', closures.lookup c.name = some c' ∧
    (Value.closure c').recast (.called like) = (Value.closure c).recast (.printed ns like)

variable (ns like scopes closures reader) in
/-- What must hold of the parts of a payload for it to be read again. -/
structure PayloadRereads (v : Value) : Prop where
  float : ∀ x, v = .float x → x.readsBack = true
  closure : ∀ c, v = .closure c → isWord c.name = true ∧ scopes.lookup c.name = none ∧
    Declared ns like closures c
  tree : ∀ t, v = .tree t → Rereads ns like scopes closures reader t

theorem name_eq_of_recast {c c' : Closure Value}
    (h : (Value.closure c').recast (.called like) = (Value.closure c).recast (.printed ns like)) :
    c'.name = c.name := by
  obtain ⟨i, name, fs⟩ := c
  obtain ⟨i', name', fs'⟩ := c'
  simp only [Value.recast, Value.closure.injEq, Closure.mk.injEq] at h
  exact h.2.1

theorem spelled_value {v : Value} (h : PayloadRereads ns like scopes closures reader v) {l : Lexeme}
    (hl : v.lexeme? = some l) : (Printer.value ns v).Spelled [l] ∧ l.opensExpr = true := by
  cases v with
  | null => cases hl; exact ⟨Doc.spelled_text (Lexer.spells_name (by decide)), rfl⟩
  | bool b => 
    cases hl
    cases b <;> exact ⟨Doc.spelled_text (Lexer.spells_name (by decide)), rfl⟩
  | int n => cases hl; exact ⟨Doc.spelled_text (Lexer.spells_int n), rfl⟩
  | float x => cases hl; exact ⟨Doc.spelled_text (Lexer.spells_float (h.float x rfl)), rfl⟩
  | str s => cases hl; exact ⟨Doc.spelled_text (Lexer.spells_quote s), rfl⟩
  | closure c => cases hl; exact ⟨Doc.spelled_text (Lexer.spells_word (h.closure c rfl).1), rfl⟩
  | tree t => cases hl

theorem opensForm_of_ahead {s : ParseState} {head : String} {ls : List Lexeme}
    (h : .lparen :: .ident head :: ls <+: s.tokens.map (·.lexeme)) : s.opensForm head = true := by
  unfold ParseState.opensForm
  match hs : s.tokens with
  | [] => simp [hs] at h
  | [t] => simp [hs] at h
  | t :: u :: tokens =>
    rw [hs, List.map_cons, List.map_cons, List.cons_prefix_cons, List.cons_prefix_cons] at h
    simp [← h.1, ← h.2.1]

/-- A payload is read as the same one up to identities. -/
theorem takes_value {v : Value} (h : PayloadRereads ns like scopes closures reader v) :
    ∃ ls, (Printer.value ns v).Spelled ls ∧ Takes scopes closures (value reader) ls Anything
      fun v' => v'.recast (.called like) = v.recast (.printed ns like) := by
  cases v with
  | null => 
    exact ⟨_, (spelled_value h rfl).1, takes_peek (takes_advance (takes_pure rfl))⟩
  | bool b =>
    refine ⟨_, (spelled_value h rfl).1, ?_⟩
    cases b <;> exact takes_peek (takes_advance (takes_pure rfl))
  | int n | float x | str s =>
    exact ⟨_, (spelled_value h rfl).1, takes_peek (takes_advance (takes_pure rfl))⟩
  | closure c =>
    obtain ⟨-, -, c', hlookup, hc'⟩ := h.closure c rfl
    refine ⟨_, (spelled_value h rfl).1, takes_peek (takes_peekSpan fun _ =>
      takes_advance (takes_closure? ?_))⟩
    rw [hlookup]
    exact takes_pure hc'
  | tree t =>
    obtain ⟨l, ls, hspelled, -, htakes⟩ := h.tree t rfl
    have hdoc := Doc.spelled_headed (Lexer.spells_word (show isWord "tree" = true by decide))
      (.cons hspelled .nil) 1
    rw [List.flatten_cons, List.flatten_nil, List.append_nil] at hdoc
    refine ⟨_, hdoc, takes_peek (takes_get fun s _ _ hpre _ => ?_)⟩
    simp only [opensForm_of_ahead hpre, reduceIte]
    refine takes_advance (takes_advance (htakes.andThen fun t' ht' =>
      takes_expect fun _ => takes_pure ?_))
    rw [Value.recast, Value.recast, ht']

/-- A payload written bare is read as a constant of the type that it has by itself. -/
theorem takes_bare {v : Value} (h : PayloadRereads ns like scopes closures reader v) {t : Ty}
    (hbare : v.isBare t = true) :
    ∃ l ls, (Printer.value ns v).Spelled (l :: ls) ∧ l.opensExpr = true ∧
      Takes scopes closures (exprNode reader) (l :: ls) Anything fun n' =>
        n'.recast (.called like) = (Node.constant v t).recast (.printed ns like) := by
  unfold Value.isBare at hbare
  split at hbare
  · exact ⟨_, [], (spelled_value h rfl).1, rfl, takes_peek (takes_advance (takes_pure rfl))⟩
  · next b =>
    obtain ⟨hspelled, hopens⟩ := spelled_value h rfl
    refine ⟨_, [], hspelled, hopens, ?_⟩
    cases b <;> exact takes_peek (takes_advance (takes_pure rfl))
  · exact ⟨_, [], (spelled_value h rfl).1, rfl, takes_peek (takes_advance (takes_pure rfl))⟩
  · exact ⟨_, [], (spelled_value h rfl).1, rfl, takes_peek (takes_advance (takes_pure rfl))⟩
  · exact ⟨_, [], (spelled_value h rfl).1, rfl, takes_peek (takes_advance (takes_pure rfl))⟩
  · next c name =>
    obtain rfl := beq_iff_eq.1 hbare
    obtain ⟨-, hscopes, c', hlookup, hc'⟩ := h.closure c rfl
    refine ⟨_, [], (spelled_value h rfl).1, rfl, takes_peek (takes_peekSpan fun _ =>
      takes_advance (takes_get fun s hs _ _ _ => ?_))⟩
    simp only [hs, hscopes]
    refine takes_closure? ?_
    simp only [hlookup]
    refine takes_pure ?_
    rw [Node.closure, Node.recast, Node.recast, hc', name_eq_of_recast hc']
  · next t inner =>
    obtain rfl := beq_iff_eq.1 hbare
    obtain ⟨l, ls, hspelled, -, htakes⟩ := h.tree t rfl
    have hdoc := Doc.spelled_headed (Lexer.spells_word (show isWord "tree" = true by decide))
      (.cons hspelled .nil) 1
    rw [List.flatten_cons, List.flatten_nil, List.append_nil] at hdoc
    refine ⟨_, _, hdoc, rfl, takes_plainForm fun _ => ?_⟩
    refine (htakes.thenPure fun t' ht' => ?_).imp (fun _ h => h) fun _ _ => trivial
    rw [Node.tree, Node.recast, Node.recast, Value.recast, Value.recast, ht', ty_eq_of_recast ht']
  · cases hbare

/-! ## Constructor calls and initializers -/

theorem recast_ownerIn {m : Member} (h : like.owner (ownerIn closures m.owner.name) = like.owner m.owner) :
    ({ m with owner := ownerIn closures m.owner.name } : Member).recast (.called like) =
      m.recast (.printed ns like) := by
  simp only [Member.recast, Recasting.called, Recasting.printed, h]

variable (like closures) in
/-- The member is read again as the same up to the owner. -/
structure MemberRereads (m : Member) : Prop where
  readable : m.isReadable = true
  avoids : m.ty.avoidsFn = true
  owner : like.owner (ownerIn closures m.owner.name) = like.owner m.owner

variable (ns scopes) in
theorem takes_members {ms : List Member} (h : ∀ m ∈ ms, MemberRereads like closures m) :
    ∃ lss, List.Forall₂ Doc.Spelled (ms.map Member.doc) lss ∧
      Takes scopes closures (manyForms memberRef) lss.flatten (· ≠ .lparen)
        fun ms' => ms'.map (·.recast (.called like)) = ms.map (·.recast (.printed ns like)) := by
  have hitem : ∀ m ∈ ms, ∃ l ls, m.doc.Spelled (l :: ls) ∧ (l == .lparen) = true ∧
      Takes scopes closures memberRef (l :: ls) Anything
        fun m' => m'.recast (.called like) = m.recast (.printed ns like) := by
    intro m hm
    obtain ⟨hreadable, havoids, howner⟩ := h m hm
    refine ⟨_, _, Member.spelled_doc (Member.spellable hreadable), rfl, ?_⟩
    refine (takes_memberRef (Member.isReadable_iff.1 hreadable).2.2 havoids).imp ?_ fun _ hl => hl
    rintro _ rfl
    exact recast_ownerIn howner
  obtain ⟨lss, hspelled, -, htakes⟩ := takes_items (· == .lparen) (· ≠ .lparen) hitem
    (fun _ h => h) fun l hl => beq_eq_false_iff_ne.2 hl
  exact ⟨lss, hspelled, htakes.imp (fun ms' hms' => map_eq_of_forall₂ hms') fun _ hl => hl⟩

theorem takes_construct {c : Construct Expr} (hc : c.Legible) (havoids : c.ty.avoidsFn = true)
    (hmembers : ∀ m ∈ c.members.getD [], MemberRereads like closures m)
    (hargs : ∀ e ∈ c.args, Rereads ns like scopes closures reader e) :
    ∃ ls, (Printer.construct ns c).Spelled (.lparen :: .ident "new" :: (ls ++ [.rparen])) ∧
      Takes scopes closures (constructTail reader) ls (· ≠ .lparen) fun c' =>
        Expr.recastConstruct (.called like) c' = Expr.recastConstruct (.printed ns like) c := by
  obtain ⟨t, as, ms⟩ := c
  obtain ⟨htyped, hsome⟩ := hc
  obtain ⟨lss, hspelled, -, htakes⟩ := takes_exprs hargs
  obtain ⟨lss', hspelled', htakes'⟩ := takes_members ns scopes hmembers
  refine ⟨t.lexemes ++ (.lparen :: (lss.flatten ++ [.rparen]) ++ lss'.flatten), ?_, ?_⟩
  · have hdoc := Doc.spelled_headed (Lexer.spells_word (show isWord "new" = true by decide))
      (.cons (Doc.spelled_ty (Ty.spellable htyped)) (.cons (Doc.spelled_list hspelled) hspelled')) 2
    rwa [List.flatten_cons, List.flatten_cons] at hdoc
  · refine (takes_ty htyped havoids).bind ?_ fun _ _ => Lexeme.noConfusion
    rintro _ rfl
    rw [List.cons_append, List.append_assoc]
    refine takes_expect fun _ => htakes.bind (fun as' has' => takes_expect fun _ => ?_)
      fun _ _ => .inl rfl
    refine htakes'.thenPure fun ms' hms' => ?_
    have hmembers : (if ms'.isEmpty then none else some ms').map
        (fun ms => ms.map fun m => m.recast (.called like)) =
          ms.map fun ms => ms.map (·.recast (.printed ns like)) := by
      cases ms with
      | none =>
        rw [List.map_eq_nil_iff.1 hms']
        rfl
      | some ms =>
        cases ms' with
        | nil => exact absurd (congrArg some (List.map_eq_nil_iff.1 hms'.symm)) hsome
        | cons m' ms' => exact congrArg some hms'
    simp only [Expr.recastConstruct, has', hmembers]

theorem takes_elements {es : List (ElementInit Expr)} (hadd : ∀ i ∈ es, i.addMethod.IsAdd)
    (hargs : ∀ e ∈ es.flatMap (·.args), Rereads ns like scopes closures reader e) :
    ∃ lss, List.Forall₂ Doc.Spelled (Printer.elements ns es) lss ∧
      Takes scopes closures (manyForms (element reader)) lss.flatten (· ≠ .lparen) fun es' =>
        Expr.recastElements (.called like) es' = Expr.recastElements (.printed ns like) es := by
  have hitem : ∀ i ∈ es, ∃ l ls,
      (Doc.headed "add" (.text i.addMethod.path :: Printer.exprs ns i.args) 2).Spelled (l :: ls) ∧
      (l == .lparen) = true ∧ Takes scopes closures (element reader) (l :: ls) Anything
        fun i' => i'.addMethod = i.addMethod ∧
          Expr.recastList (.called like) i'.args = Expr.recastList (.printed ns like) i.args := by
    intro i hi
    have hmethod := hadd i hi
    obtain ⟨lss, hspelled, -, htakes⟩ := takes_exprs fun e he => hargs e (List.mem_flatMap.2 ⟨i, hi, he⟩)
    refine ⟨_, _, Doc.spelled_headed (Lexer.spells_word (show isWord "add" = true by decide))
      (.cons (Doc.spelled_text (spells_path hmethod.owner hmethod.name)) hspelled) 2, rfl, ?_⟩
    rw [List.flatten_cons, List.append_assoc]
    refine takes_expect fun _ => takes_expectIdent fun _ => (takes_path _ _).andThen ?_
    rintro _ rfl
    exact htakes.bind (fun as' has' => takes_expect fun _ => takes_pure ⟨hmethod.eq, has'⟩)
      fun _ _ => .inl rfl
  obtain ⟨lss, hspelled, -, htakes⟩ := takes_items (· == .lparen) (· ≠ .lparen) hitem
    (fun _ h => h) fun l hl => beq_eq_false_iff_ne.2 hl
  rw [Printer.elements_eq_map]
  exact ⟨lss, hspelled, htakes.imp (fun es' hes' => Expr.recastElements_eq hes') fun _ hl => hl⟩

variable (ns like scopes closures reader) in
/-- The lexemes are those of the binding, and they are read as the same one up to identities if as
many bindings may nest as there are lexemes. -/
structure BindingRereads (b : Binding Expr) (ls : List Lexeme) : Prop where
  spelled : (Printer.binding ns b).Spelled ls
  opens : ∃ l ls', ls = l :: ls' ∧ (l == .lparen) = true
  takes : ∀ nesting, ls.length ≤ nesting →
    Takes scopes closures (bindingNested reader nesting) ls Anything fun b' =>
      Expr.recastBinding (.called like) b' = Expr.recastBinding (.printed ns like) b

theorem takes_bindings_of_forall₂ {bs : List (Binding Expr)} {lss : List (List Lexeme)}
    (h : List.Forall₂ (BindingRereads ns like scopes closures reader) bs lss) :
    List.Forall₂ Doc.Spelled (Printer.bindings ns bs) lss ∧ ∀ nesting,
      lss.flatten.length ≤ nesting →
      Takes scopes closures (manyForms (bindingNested reader nesting)) lss.flatten (· ≠ .lparen)
        fun bs' =>
          Expr.recastBindings (.called like) bs' = Expr.recastBindings (.printed ns like) bs := by
  refine ⟨?_, fun nesting hlength => ?_⟩
  · rw [Printer.bindings_eq_map, List.forall₂_map_left_iff]
    exact h.imp fun b ls hb => hb.spelled
  · have hitems : List.Forall₂ (fun b ls => (∃ l ls', ls = l :: ls' ∧ (l == .lparen) = true) ∧
        Takes scopes closures (bindingNested reader nesting) ls Anything fun b' =>
          Expr.recastBinding (.called like) b' = Expr.recastBinding (.printed ns like) b) bs lss := by
      induction h with
      | nil => exact .nil
      | cons hb _ ih =>
        rw [List.flatten_cons, List.length_append] at hlength
        exact .cons ⟨hb.opens, hb.takes nesting (by omega)⟩ (ih (by omega))
    exact (takes_many hitems fun l hl => beq_eq_false_iff_ne.2 hl).imp
      (fun bs' hbs' => Expr.recastBindings_eq hbs') fun _ hl => hl

mutual

theorem exists_bindingRereads : ∀ {b : Binding Expr},
    (∀ m ∈ b.members, MemberRereads like closures m) → (∀ m ∈ b.addMethods, m.IsAdd) →
    (∀ e ∈ b.exprs, Rereads ns like scopes closures reader e) →
    ∃ ls, BindingRereads ns like scopes closures reader b ls
  | .assign m e, hmembers, _, hexprs => by
    obtain ⟨hreadable, havoids, howner⟩ := hmembers m (by simp [Binding.members])
    obtain ⟨l, ls, hspelled, -, htakes⟩ := hexprs e (by simp [Binding.exprs])
    have hequals : Lexer.Spells "=".toList [.equals] :=
      Lexer.spells_symbol rfl (by decide) Lexer.spells_nil
    refine ⟨_, Doc.spelled_headed hequals (.cons (Member.spelled_doc (Member.spellable hreadable))
      (.cons hspelled .nil)) 1, ⟨_, _, rfl, rfl⟩, ?_⟩
    rintro (_ | nesting) hlength
    · cases hlength
    · refine takes_expect fun _ => takes_eat ?_
      rw [List.flatten_cons, List.flatten_cons, List.flatten_nil, List.append_nil, List.append_assoc]
      refine (takes_memberRef (Member.isReadable_iff.1 hreadable).2.2 havoids).andThen ?_
      rintro _ rfl
      refine htakes.andThen fun e' he' => takes_expect fun _ => takes_pure ?_
      rw [Expr.recastBinding, Expr.recastBinding, he', recast_ownerIn howner]
  | .nested m bs, hmembers, hadd, hexprs => by
    simp only [Binding.members, List.mem_cons, forall_eq_or_imp] at hmembers
    rw [Binding.addMethods] at hadd
    rw [Binding.exprs] at hexprs
    obtain ⟨⟨hreadable, havoids, howner⟩, hmembers⟩ := hmembers
    obtain ⟨lss, hbs⟩ := exists_bindingsReread hmembers hadd hexprs
    obtain ⟨hspelled, htakes⟩ := takes_bindings_of_forall₂ hbs
    refine ⟨_, Doc.spelled_headed (Lexer.spells_word (show isWord "bind" = true by decide))
      (.cons (Member.spelled_doc (Member.spellable hreadable)) hspelled) 2, ⟨_, _, rfl, rfl⟩, ?_⟩
    rintro (_ | nesting) hlength
    · cases hlength
    · rw [List.flatten_cons, List.append_assoc] at hlength ⊢
      simp only [List.length_cons, List.length_append] at hlength
      refine takes_expect fun _ => takes_eat_other (fun _ _ => Lexeme.noConfusion)
        (takes_expectIdent fun _ => ?_)
      refine (takes_memberRef (Member.isReadable_iff.1 hreadable).2.2 havoids).andThen ?_
      rintro _ rfl
      refine (htakes nesting (by omega)).bind (fun bs' hbs' => takes_expect fun _ => takes_pure ?_)
        fun _ _ => Lexeme.noConfusion
      rw [Expr.recastBinding, Expr.recastBinding, hbs', recast_ownerIn howner]
  | .elements m es, hmembers, hadd, hexprs => by
    obtain ⟨hreadable, havoids, howner⟩ := hmembers m (by simp [Binding.members])
    rw [Binding.exprs] at hexprs
    obtain ⟨lss, hspelled, htakes⟩ := takes_elements
      (fun i hi => hadd i.addMethod (List.mem_map_of_mem hi)) hexprs
    refine ⟨_, Doc.spelled_headed (Lexer.spells_word (show isWord "list" = true by decide))
      (.cons (Member.spelled_doc (Member.spellable hreadable)) hspelled) 2, ⟨_, _, rfl, rfl⟩, ?_⟩
    rintro (_ | nesting) hlength
    · cases hlength
    · rw [List.flatten_cons, List.append_assoc]
      refine takes_expect fun _ => takes_eat_other (fun _ _ => Lexeme.noConfusion)
        (takes_expectIdent fun _ => ?_)
      refine (takes_memberRef (Member.isReadable_iff.1 hreadable).2.2 havoids).andThen ?_
      rintro _ rfl
      refine htakes.bind (fun es' hes' => takes_expect fun _ => takes_pure ?_)
        fun _ _ => Lexeme.noConfusion
      rw [Expr.recastBinding, Expr.recastBinding, hes', recast_ownerIn howner]

theorem exists_bindingsReread : ∀ {bs : List (Binding Expr)},
    (∀ m ∈ Binding.membersOfAll bs, MemberRereads like closures m) →
    (∀ m ∈ Binding.addMethodsOfAll bs, m.IsAdd) →
    (∀ e ∈ Binding.exprsOfAll bs, Rereads ns like scopes closures reader e) →
    ∃ lss, List.Forall₂ (BindingRereads ns like scopes closures reader) bs lss
  | [], _, _, _ => ⟨[], .nil⟩
  | b :: bs, hmembers, hadd, hexprs => by
    rw [Binding.membersOfAll] at hmembers
    rw [Binding.addMethodsOfAll] at hadd
    rw [Binding.exprsOfAll] at hexprs
    obtain ⟨ls, hb⟩ := exists_bindingRereads (b := b) (fun m hm => hmembers m (List.mem_append_left _ hm))
      (fun m hm => hadd m (List.mem_append_left _ hm)) fun e he => hexprs e (List.mem_append_left _ he)
    obtain ⟨lss, hbs⟩ := exists_bindingsReread
      (fun m (hm : m ∈ Binding.membersOfAll bs) => hmembers m (List.mem_append_right _ hm))
      (fun m hm => hadd m (List.mem_append_right _ hm)) fun e he => hexprs e (List.mem_append_right _ he)
    exact ⟨ls :: lss, .cons hb hbs⟩

end

/-- Bindings are read as the same ones up to identities. -/
theorem takes_bindings {bs : List (Binding Expr)}
    (hmembers : ∀ m ∈ Binding.membersOfAll bs, MemberRereads like closures m)
    (hadd : ∀ m ∈ Binding.addMethodsOfAll bs, m.IsAdd)
    (hexprs : ∀ e ∈ Binding.exprsOfAll bs, Rereads ns like scopes closures reader e) :
    ∃ lss, List.Forall₂ Doc.Spelled (Printer.bindings ns bs) lss ∧
      Takes scopes closures (manyForms (binding reader)) lss.flatten (· ≠ .lparen) fun bs' =>
        Expr.recastBindings (.called like) bs' = Expr.recastBindings (.printed ns like) bs := by
  obtain ⟨lss, hbs⟩ := exists_bindingsReread hmembers hadd hexprs
  have hitems : List.Forall₂ (fun b ls => (∃ l ls', ls = l :: ls' ∧ (l == .lparen) = true) ∧
      Takes scopes closures (binding reader) ls Anything fun b' =>
        Expr.recastBinding (.called like) b' = Expr.recastBinding (.printed ns like) b) bs lss :=
    hbs.imp fun b ls hb => ⟨hb.opens, takes_get fun _ _ _ _ hlength => hb.takes _ hlength⟩
  exact ⟨lss, (takes_bindings_of_forall₂ hbs).1,
    (takes_many hitems fun l hl => beq_eq_false_iff_ne.2 hl).imp
      (fun bs' hbs' => Expr.recastBindings_eq hbs') fun _ hl => hl⟩

end Parts

end Parser

end ExprTree
