import Mathlib.Data.List.Nodup
import ExprTree.Proofs.Reports

/-!
# Accepted sources

A source is accepted if nothing is reported. `accepted_of_parseTree` says what is then known of its
tree: it is legible, its expressions do not nest too deep, the identities of its parameters ascend in
the order in which they are written, so that no variable is bound twice, and it refers to closures that
are declared in the source, each before those whose fields refer to it (`Settled`).
-/

namespace ExprTree

namespace Parser

variable {α β : Type}

/-! ## What is known of expressions that were read without a report -/

/-- The identities of the variables ascend from `lo` to below `hi`. -/
structure Ascends (lo hi : Nat) (vs : List Variable) : Prop where
  sorted : vs.Pairwise fun v w => v.id < w.id
  lo_le : ∀ v ∈ vs, lo ≤ v.id
  lt_hi : ∀ v ∈ vs, v.id < hi

theorem ascends_nil (lo hi : Nat) : Ascends lo hi [] := ⟨.nil, by simp, by simp⟩

theorem Ascends.mono {lo hi lo' hi' : Nat} {vs : List Variable} (h : Ascends lo hi vs)
    (hlo : lo' ≤ lo) (hhi : hi ≤ hi') : Ascends lo' hi' vs where
  sorted := h.sorted
  lo_le v hv := Nat.le_trans hlo (h.lo_le v hv)
  lt_hi v hv := Nat.lt_of_lt_of_le (h.lt_hi v hv) hhi

theorem Ascends.append {lo mid hi : Nat} {vs ws : List Variable} (h : Ascends lo mid vs)
    (h' : Ascends mid hi ws) (hlo : lo ≤ mid) (hhi : mid ≤ hi) : Ascends lo hi (vs ++ ws) where
  sorted := List.pairwise_append.2 ⟨h.sorted, h'.sorted, fun v hv w hw =>
    Nat.lt_of_lt_of_le (h.lt_hi v hv) (h'.lo_le w hw)⟩
  lo_le v hv := (List.mem_append.1 hv).elim (h.lo_le v) fun hv => Nat.le_trans hlo (h'.lo_le v hv)
  lt_hi v hv := (List.mem_append.1 hv).elim (fun hv => Nat.lt_of_lt_of_le (h.lt_hi v hv) hhi) (h'.lt_hi v)

theorem Ascends.nodup {lo hi : Nat} {vs : List Variable} (h : Ascends lo hi vs) : vs.Nodup := by
  refine h.sorted.imp ?_
  rintro v _ hlt rfl
  exact Nat.lt_irrefl _ hlt

/-- Expressions that were read can be written, do not nest too deep, bind variables with identities
drawn from `lo` on and below `hi`, in order, and refer to declared closures. -/
structure AcceptedIn (levels : Nat) (closures : List (String × Closure Value)) (lo hi : Nat)
    (es : List Expr) : Prop where
  legible : ∀ e ∈ es, AllLegible e
  nesting : ∀ e ∈ es, e.nesting ≤ levels
  binders : Ascends lo hi (es.flatMap Expr.binders)
  references : ∀ e ∈ es, ∀ c ∈ e.references, closures.lookup c.name = some c

section AcceptedIn

variable {levels lo mid hi : Nat} {closures : List (String × Closure Value)} {es es' : List Expr}

theorem AcceptedIn.mono {lo' hi' : Nat} (h : AcceptedIn levels closures lo hi es) (hlo : lo' ≤ lo)
    (hhi : hi ≤ hi') : AcceptedIn levels closures lo' hi' es :=
  { h with binders := h.binders.mono hlo hhi }

theorem AcceptedIn.append (h : AcceptedIn levels closures lo mid es)
    (h' : AcceptedIn levels closures mid hi es') (hlo : lo ≤ mid) (hhi : mid ≤ hi) :
    AcceptedIn levels closures lo hi (es ++ es') where
  legible := List.forall_mem_append.2 ⟨h.legible, h'.legible⟩
  nesting := List.forall_mem_append.2 ⟨h.nesting, h'.nesting⟩
  binders := by
    rw [List.flatMap_append]
    exact h.binders.append h'.binders hlo hhi
  references := List.forall_mem_append.2 ⟨h.references, h'.references⟩

end AcceptedIn

/-- Expressions that were read between two states. -/
abbrev Accepted (levels : Nat) (s s' : ParseState) (es : List Expr) : Prop :=
  AcceptedIn levels s.closures s.supply.next s'.supply.next es

section Accepted

variable {levels : Nat} {s s₀ s₁ s₂ : ParseState} {es es' : List Expr}

theorem accepted_nil : Accepted levels s s₁ [] :=
  ⟨by simp, by simp, ascends_nil _ _, by simp⟩

theorem Accepted.between (h : Accepted levels s s₁ es) (hs₀ : Leads s₀ s) (hs₁ : Leads s₁ s₂) :
    Accepted levels s₀ s₂ es := by
  unfold Accepted
  rw [← hs₀.closures]
  exact h.mono hs₀.supply hs₁.supply

theorem Accepted.andThen (h : Accepted levels s s₁ es) (h' : Accepted levels s₁ s₂ es')
    (hs₁ : Leads s s₁) (hs₂ : Leads s₁ s₂) : Accepted levels s s₂ (es ++ es') := by
  unfold Accepted at h'
  rw [hs₁.closures] at h'
  exact h.append h' hs₁.supply hs₂.supply

/-- The same of what stands at one place. -/
structure NodeAccepted (levels : Nat) (s s' : ParseState) (n : Node) : Prop where
  legible : n.Legible
  inner_legible : ∀ e ∈ n.children ++ n.quoted, AllLegible e
  nesting : ∀ e ∈ n.children ++ n.quoted, e.nesting ≤ levels
  binders : Ascends s.supply.next s'.supply.next
    (n.params ++ (n.children ++ n.quoted).flatMap Expr.binders)
  references : ∀ c ∈ n.reference ++ (n.children ++ n.quoted).flatMap Expr.references,
    s.closures.lookup c.name = some c

theorem Accepted.node {n : Node} (h : Accepted levels s s₁ (n.children ++ n.quoted))
    (hlegible : n.Legible) (hparams : n.params = [])
    (hreference : ∀ c ∈ n.reference, s.closures.lookup c.name = some c) :
    NodeAccepted levels s s₁ n where
  legible := hlegible
  inner_legible := h.legible
  nesting := h.nesting
  binders := by
    rw [hparams, List.nil_append]
    exact h.binders
  references c hc := by
    rcases List.mem_append.1 hc with hc | hc
    · exact hreference c hc
    · obtain ⟨e, he, hc⟩ := List.mem_flatMap.1 hc
      exact h.references e he c hc

theorem NodeAccepted.mono {n : Node} (h : NodeAccepted levels s s₁ n) (hs₀ : Leads s₀ s)
    (hs₁ : Leads s₁ s₂) : NodeAccepted levels s₀ s₂ n :=
  { h with
    binders := h.binders.mono hs₀.supply hs₁.supply
    references := by
      rw [← hs₀.closures]
      exact h.references }

/-- A closure that was looked up is declared under its name. -/
theorem Proper.of_lookup (hs : Proper s) {name : String} {c : Closure Value}
    (h : s.closures.lookup name = some c) :
    c.name = name ∧ isWord name = true ∧ ∀ t ∈ c.trees, AllLegible t := by
  obtain ⟨l₁, l₂, hclosures, -⟩ := List.lookup_eq_some_iff.1 h
  have hmem : (name, c) ∈ s.closures := by
    rw [hclosures]
    exact List.mem_append_right _ List.mem_cons_self
  exact hs.closures _ hmem

theorem NodeAccepted.expr {n : Node} (h : NodeAccepted levels s s₁ n) (hs : Proper s) (label : Nat) :
    Accepted (levels + 1) s s₁ [.mk label n] where
  legible := by
    rintro _ ⟨⟩
    · refine Expr.everywhere_iff.2 ⟨h.legible, fun c hc => ?_⟩
      rcases List.mem_append.1 hc with hchild | hpayload
      · exact h.inner_legible c (List.mem_append_left _ hchild)
      · rcases Node.mem_payload.1 hpayload with hquoted | hcaptured
        · exact h.inner_legible c (List.mem_append_right _ hquoted)
        · -- the trees of a closure are known from its declaration
          obtain ⟨k, hk, hck⟩ := Node.mem_captured.1 hcaptured
          exact (hs.of_lookup (h.references k (List.mem_append_left _ hk))).2.2 c hck
    · contradiction
  nesting := by
    rintro _ ⟨⟩
    · exact Expr.nesting_le h.nesting
    · contradiction
  binders := by
    rw [List.flatMap_singleton, Expr.binders, Expr.gather_eq]
    exact h.binders
  references := by
    rintro _ ⟨⟩
    · intro c hc
      rw [Expr.references, Expr.gather_eq] at hc
      exact h.references c hc
    · contradiction

end Accepted

/-! ## Expressions -/

section Expressions

variable {P : Prop} {s : ParseState} {levels : Nat} {reader : Parser Expr}

/-- A reader of expressions that nest through the given number of levels. -/
def SoundExpr (levels : Nat) (reader : Parser Expr) : Prop :=
  ∀ {P : Prop} {s : ParseState}, Sound P s reader fun e s' => Accepted levels s s' [e]

theorem sound_exprs (hreader : SoundExpr levels reader) :
    Sound P s (exprs reader) fun es s' => Accepted levels s s' es := by
  have hmany : Sound P s (exprs reader) fun es s' => Leads s s' ∧ Accepted levels s s' es := by
    refine Sound.many (fun es s₁ hs₁ _ => ?_) fun _ _ => ⟨.refl s, accepted_nil⟩
    exact hreader.mono (fun h => h) fun e s₂ _ h hs₂ he => ⟨hs₁.trans hs₂, h.2.2.andThen he hs₁ hs₂⟩
  exact hmany.mono (fun h => h) fun _ _ _ _ _ h => h.2

theorem sound_object (hreader : SoundExpr levels reader) :
    Sound P s (object reader) fun o s' => Accepted levels s s' o.toList := by
  refine sound_eat fun static s₁ hs₁ => ?_
  split
  · exact sound_pure fun _ _ => accepted_nil
  · exact hreader.bind fun e s₂ _ => sound_pure fun _ h => h.2.between hs₁ (.refl _)

/-- The tree in a payload. -/
def quotedTree : Value → List Expr
  | .tree t => [t]
  | _ => []

/-- What is known of a payload that was read without a report. -/
structure ValueAccepted (levels : Nat) (s s' : ParseState) (v : Value) : Prop where
  tree : Accepted levels s s' (quotedTree v)
  closure : ∀ c, v = .closure c → s.closures.lookup c.name = some c ∧ isWord c.name = true

theorem sound_value (hreader : SoundExpr levels reader) :
    Sound P s (value reader) fun v s' => ValueAccepted levels s s' v := by
  have hliteral : ∀ v : Value, quotedTree v = [] → (∀ c, v ≠ .closure c) → Sound P s (do
      advance
      Pure.pure v) fun v s' => ValueAccepted levels s s' v := by
    refine fun v htree hclosure => sound_advance fun s₁ _ => sound_pure fun _ _ => ⟨?_, ?_⟩
    · rw [htree]
      exact accepted_nil
    · exact fun c hc => absurd hc (hclosure c)
  have hother : ∀ other : Lexeme, Sound P s (treeValue reader other) fun v s' =>
      ValueAccepted levels s s' v := by
    refine fun other => sound_get ?_
    split
    · refine sound_advance fun s₁ hs₁ => sound_advance fun s₂ hs₂ => hreader.bind fun t s₃ _ => ?_
      refine sound_expect fun _ s₄ hs₄ => sound_pure fun _ h => ⟨?_, by simp⟩
      exact h.2.between (hs₁.trans hs₂) hs₄
    · exact sound_reportHere fun _ _ => Sound.skip leads_skipForm fun _ _ _ =>
        sound_pure fun _ h => h.elim
  refine sound_peek ?_
  generalize s.lexeme = l
  cases l with
  | integer n => exact hliteral _ rfl (by simp)
  | float x => exact hliteral _ rfl (by simp)
  | str text => exact hliteral _ rfl (by simp)
  | true => exact hliteral _ rfl (by simp)
  | false => exact hliteral _ rfl (by simp)
  | null => exact hliteral _ rfl (by simp)
  | ident name =>
    refine sound_peekSpan fun span => sound_advance fun s₁ hs₁ => sound_closure? ?_
    split
    · next c hc =>
      refine sound_pure fun hs _ => ⟨accepted_nil, ?_⟩
      rintro _ ⟨⟩
      obtain ⟨rfl, hword, -⟩ := hs.of_lookup hc
      exact ⟨hs₁.closures ▸ hc, hword⟩
    · exact sound_report fun _ _ => sound_pure fun _ h => h.elim
  | _ => exact hother _

theorem sound_allocVariable (name : String) (t : Ty) :
    Sound P s (draw (Variable.alloc name t)) fun v s' =>
      v.id = s.supply.next ∧ v.ty = t ∧ s'.supply.next = s.supply.next + 1 :=
  ⟨⟨Nat.le_refl _, rfl, rfl, Nat.le_succ _, List.suffix_refl _, id⟩, fun _ _ _ => ⟨rfl, rfl, rfl⟩⟩

/-- The body of a lambda is read with more variables in scope, which leave it again. -/
theorem sound_inScope (hreader : SoundExpr levels reader) {f : Expr → Node}
    {more : List (String × Variable)} (hmore : P → ∀ b ∈ more, b.2.ty.isReadable = true) :
    Sound P s (do
      let outer := (← get).scopes
      modify fun s => { s with scopes := more ++ outer }
      let body ← reader
      modify fun s => { s with scopes := outer }
      return f body) fun n s' => ∃ body, n = f body ∧ Accepted levels s s' [body] := by
  let inner : ParseState := { s with scopes := more ++ s.scopes }
  obtain ⟨hleads, hbody⟩ := hreader (P := P) (s := inner)
  refine ⟨⟨hleads.faults, rfl, hleads.closures, hleads.supply, hleads.tokens, hleads.more⟩,
    fun hs hP hfaults => ?_⟩
  have hinner : Proper inner := by
    refine ⟨hs.words, hs.ends, fun b hb => ?_, hs.closures⟩
    exact (List.mem_append.1 hb).elim (hmore hP b) (hs.scopes b)
  have haccepted := hbody hinner hP hfaults
  exact ⟨_, rfl, haccepted.legible, haccepted.nesting, haccepted.binders, haccepted.references⟩

theorem sound_params : Sound P s (iterate (· == .lparen) paramStep []) fun params s' =>
    Ascends s.supply.next s'.supply.next params.reverse ∧ ∀ p ∈ params, p.ty.isReadable = true := by
  refine Sound.iterate (fun acc s₁ hs₁ _ => ?_) fun _ _ => ⟨ascends_nil _ _, by simp⟩
  refine sound_advance fun s₂ hs₂ => sound_expectIdent fun name span s₃ hs₃ => ?_
  refine sound_ty.bind fun t s₄ hs₄ => sound_expect fun _ s₅ hs₅ => ?_
  have hs₁₅ := ((hs₂.trans hs₃).trans hs₄).trans hs₅
  have hrest : ∀ {P' : Prop} {s₆ : ParseState}, Leads s₅ s₆ →
      (P' → (Ascends s.supply.next s₁.supply.next acc.reverse ∧ ∀ p ∈ acc, p.ty.isReadable = true) ∧
        t.isReadable = true) → Sound P' s₆ (do
        let v ← draw (Variable.alloc name t)
        return (v :: acc, true)) fun r s' => Ascends s.supply.next s'.supply.next r.1.reverse ∧
          ∀ p ∈ r.1, p.ty.isReadable = true := by
    intro P' s₆ hs₆ hP'
    refine (sound_allocVariable name t).bind fun v s₇ hs₇ => sound_pure fun _ h => ?_
    obtain ⟨h, hid, hty, hnext⟩ := h
    obtain ⟨⟨hacc, htys⟩, ht⟩ := hP' h
    have hlo := hs₁.supply
    have hle := (hs₁₅.trans hs₆).supply
    refine ⟨?_, List.forall_mem_cons.2 ⟨hty ▸ ht, htys⟩⟩
    rw [List.reverse_cons]
    refine hacc.append ⟨List.pairwise_singleton _ _, ?_, ?_⟩ hlo (by omega)
    · rintro _ ⟨⟩
      · omega
      · contradiction
    · rintro _ ⟨⟩
      · omega
      · contradiction
  simp only
  split
  · exact sound_report fun s₆ hs₆ => hrest hs₆ False.elim
  · exact hrest (.refl s₅) fun h => ⟨h.1.1.2, h.2⟩

theorem sound_lambda (hreader : SoundExpr levels reader) :
    Sound P s (lambda reader) fun n s' => NodeAccepted levels s s' n := by
  refine sound_expect fun _ s₁ hs₁ => sound_params.bind fun params s₂ hs₂ => ?_
  refine sound_expect fun _ s₃ hs₃ => ?_
  refine (sound_inScope hreader (f := .lambdaOf params.reverse) fun h b hb => ?_).mono (fun h => h)
    fun n s₄ _ h hs₄ hn => ?_
  · obtain ⟨p, hp, rfl⟩ := List.mem_map.1 hb
    exact h.2.2 p hp
  · obtain ⟨body, rfl, hbody⟩ := hn
    obtain ⟨-, hparams, htys⟩ := h
    have hbinders := hparams.append (hbody.binders.mono hs₃.supply (Nat.le_refl _)) hs₂.supply
      (hs₃.trans hs₄).supply
    rw [List.flatMap_singleton] at hbinders
    refine ⟨⟨⟨hparams.nodup, ?_, .inl rfl⟩, by simp [Node.lambdaOf, Node.members],
      by simp [Node.lambdaOf, Node.addMethods], by simp [Node.lambdaOf, Node.reference]⟩, ?_, ?_, ?_, ?_⟩
    · exact fun p hp => htys p (List.mem_reverse.1 hp)
    · exact hbody.legible
    · exact hbody.nesting
    · show Ascends _ _ (params.reverse ++ [body].flatMap Expr.binders)
      rw [List.flatMap_singleton]
      exact hbinders.mono hs₁.supply (Nat.le_refl _)
    · intro c hc
      obtain ⟨e, he, hc⟩ := List.mem_flatMap.1 hc
      rw [← (hs₁.trans (hs₂.trans hs₃)).closures]
      exact hbody.references e he c hc

/-! ## Constructor calls and initializers -/

/-- What is known of a constructor call that was read without a report. -/
structure ConstructAccepted (levels : Nat) (s s' : ParseState) (c : Construct Expr) : Prop where
  legible : c.Legible
  members : ∀ m ∈ c.members.getD [], m.isReadable = true
  args : Accepted levels s s' c.args

theorem sound_constructTail (hreader : SoundExpr levels reader) :
    Sound P s (constructTail reader) fun c s' => ConstructAccepted levels s s' c := by
  refine sound_ty.bind fun t s₁ hs₁ => sound_expect fun _ s₂ hs₂ => ?_
  refine (sound_exprs hreader).bind fun args s₃ _ => sound_expect fun _ s₄ hs₄ => ?_
  refine sound_members.bind fun ms s₅ hs₅ => sound_pure fun _ h => ?_
  obtain ⟨⟨⟨-, ht⟩, hargs⟩, hms⟩ := h
  refine ⟨⟨ht, ?_⟩, ?_, hargs.between (hs₁.trans hs₂) (hs₄.trans hs₅)⟩
  · cases ms <;> simp
  · cases ms with
    | nil => simp
    | cons m ms => exact hms

theorem sound_constructForm (hreader : SoundExpr levels reader) :
    Sound P s (constructForm reader) fun c s' => ConstructAccepted levels s s' c := by
  refine sound_expect fun _ s₁ hs₁ => sound_expectIdent fun head _ s₂ hs₂ => ?_
  have hrest : ∀ {P : Prop} {s₃ : ParseState}, Leads s₂ s₃ → Sound P s₃ (do
      let call ← constructTail reader
      let _ ← expect .rparen
      return call) fun c s' => ConstructAccepted levels s s' c := by
    intro P s₃ hs₃
    refine (sound_constructTail hreader).bind fun c s₄ _ => sound_expect fun _ s₅ hs₅ => ?_
    refine sound_pure fun _ h => ⟨h.2.legible, h.2.members, ?_⟩
    exact h.2.args.between ((hs₁.trans hs₂).trans hs₃) hs₅
  simp only
  split
  · exact sound_report fun s₃ hs₃ => hrest hs₃
  · exact hrest (.refl s₂)

theorem sound_element (hreader : SoundExpr levels reader) :
    Sound P s (element reader) fun i s' => i.addMethod.IsAdd ∧ Accepted levels s s' i.args := by
  refine sound_expect fun _ s₁ hs₁ => sound_expectIdent fun head _ s₂ hs₂ => ?_
  have hrest : ∀ {P : Prop} {s₃ : ParseState}, Leads s₂ s₃ → Sound P s₃ (do
      let p ← path
      let args ← exprs reader
      let _ ← expect .rparen
      return ({ addMethod := { owner := p.1, name := p.2, isStatic := false, ret := .unit }, args } :
        ElementInit Expr)) fun i s' => i.addMethod.IsAdd ∧ Accepted levels s s' i.args := by
    intro P s₃ hs₃
    refine sound_path.bind fun p s₄ hs₄ => (sound_exprs hreader).bind fun args s₅ _ => ?_
    refine sound_expect fun _ s₆ hs₆ => sound_pure fun _ h => ?_
    obtain ⟨⟨-, hp⟩, hargs⟩ := h
    exact ⟨⟨hp.1, hp.2, rfl, rfl, rfl⟩, hargs.between (((hs₁.trans hs₂).trans hs₃).trans hs₄) hs₆⟩
  simp only
  split
  · exact sound_report fun s₃ hs₃ => hrest hs₃
  · exact hrest (.refl s₂)

theorem sound_elements (hreader : SoundExpr levels reader) :
    Sound P s (manyForms (element reader)) fun es s' => (∀ i ∈ es, i.addMethod.IsAdd) ∧
      Accepted levels s s' (es.flatMap (·.args)) := by
  have hmany : Sound P s (manyForms (element reader)) fun es s' => Leads s s' ∧
      (∀ i ∈ es, i.addMethod.IsAdd) ∧ Accepted levels s s' (es.flatMap (·.args)) := by
    refine Sound.many (fun es s₁ hs₁ _ => ?_) fun _ _ => ⟨.refl s, by simp, accepted_nil⟩
    refine (sound_element hreader).mono (fun h => h) fun i s₂ _ h hs₂ hi => ⟨hs₁.trans hs₂, ?_, ?_⟩
    · exact List.forall_mem_append.2 ⟨h.2.2.1, List.forall_mem_singleton.2 hi.1⟩
    · rw [List.flatMap_append, List.flatMap_singleton]
      exact h.2.2.2.andThen hi.2 hs₁ hs₂
  exact hmany.mono (fun h => h) fun _ _ _ _ _ h => h.2

/-- What is known of bindings that were read without a report. -/
structure BindingsAccepted (levels : Nat) (s s' : ParseState) (bs : List (Binding Expr)) : Prop where
  members : ∀ m ∈ bs.flatMap Binding.members, m.isReadable = true
  addMethods : ∀ m ∈ bs.flatMap Binding.addMethods, m.IsAdd
  exprs : Accepted levels s s' (bs.flatMap Binding.exprs)

/-- Bindings one after the other, given how one is read whose opening parenthesis is at hand. -/
theorem sound_bindingsOf {item : Parser (Binding Expr)} (nesting : Nat)
    (hitem : ∀ {P : Prop} {s : ParseState}, s.lexeme = .lparen → (P → s.tokens.length ≤ nesting) →
      Sound P s item fun b s' => BindingsAccepted levels s s' [b])
    (hlength : P → s.tokens.length ≤ nesting) :
    Sound P s (manyForms item) fun bs s' => BindingsAccepted levels s s' bs := by
  have hmany : Sound P s (manyForms item) fun bs s' => Leads s s' ∧
      BindingsAccepted levels s s' bs := by
    refine Sound.many (fun bs s₁ hs₁ hmore => ?_)
      fun _ _ => ⟨.refl s, by simp, by simp, accepted_nil⟩
    refine (hitem (beq_iff_eq.1 hmore) fun h => ?_).mono (fun h => h) fun b s₂ _ h hs₂ hb => ?_
    · exact Nat.le_trans hs₁.tokens.length_le (hlength h.1)
    · refine ⟨hs₁.trans hs₂, ?_, ?_, ?_⟩ <;> rw [List.flatMap_append]
      · exact List.forall_mem_append.2 ⟨h.2.2.members, hb.members⟩
      · exact List.forall_mem_append.2 ⟨h.2.2.addMethods, hb.addMethods⟩
      · exact h.2.2.exprs.andThen hb.exprs hs₁ hs₂
  exact hmany.mono (fun h => h) fun _ _ _ _ _ h => h.2

/-- A binding whose opening parenthesis is at hand, if as many may nest as there are tokens. -/
theorem sound_bindingNested (hreader : SoundExpr levels reader) (nesting : Nat) :
    ∀ {P : Prop} {s : ParseState}, s.lexeme = .lparen → (P → s.tokens.length ≤ nesting) →
      Sound P s (bindingNested reader nesting) fun b s' => BindingsAccepted levels s s' [b] := by
  induction nesting with
  | zero =>
    intro P s hlexeme hlength
    refine sound_pure fun _ hP => ?_
    have hnil : s.tokens = [] := List.length_eq_zero_iff.1 (Nat.le_zero.1 (hlength hP))
    rw [ParseState.lexeme, hnil] at hlexeme
    cases hlexeme
  | succ nesting ih =>
    intro P s hlexeme hlength
    have hexpect : Sound P s (expect .lparen) fun _ s' => s'.tokens.length ≤ nesting := by
      have hadvance : Sound P s advance fun _ s' => s'.tokens.length ≤ nesting := by
        refine ⟨leads_advance s, fun hs hP _ => ?_⟩
        have hlt := length_next_lt hs.ends (by simp [hlexeme])
        have hle := hlength hP
        show s.next.tokens.length ≤ nesting
        omega
      have hfound : (s.lexeme == Lexeme.lparen) = true := by rw [hlexeme]; rfl
      refine sound_peekSpan fun span => ?_
      refine sound_at?_here ?_
      rw [hfound]
      exact hadvance.bind fun _ s₁ _ => sound_pure fun _ h => h.2
    refine hexpect.bind fun opening s₁ hs₁ => sound_eat fun equals s₂ hs₂ => ?_
    have hs₀₂ := hs₁.trans hs₂
    split
    · refine sound_memberRef.bind fun m s₃ hs₃ => hreader.bind fun e s₄ _ => ?_
      refine sound_expect fun _ s₅ hs₅ => sound_pure fun _ h => ?_
      obtain ⟨⟨-, hm⟩, he⟩ := h
      refine ⟨?_, ?_, ?_⟩ <;> rw [List.flatMap_singleton]
      · exact List.forall_mem_singleton.2 hm
      · simp [Binding.addMethods]
      · exact he.between (hs₀₂.trans hs₃) hs₅
    · refine sound_expectIdent fun head span s₃ hs₃ => sound_memberRef.bind fun m s₄ hs₄ => ?_
      have hs₀₄ := (hs₀₂.trans hs₃).trans hs₄
      have hlength₄ : s₄.tokens.length ≤ s₁.tokens.length :=
        ((hs₂.trans hs₃).trans hs₄).tokens.length_le
      -- the form closes, whatever the binding is
      have hrest : ∀ {P' : Prop} {b : Binding Expr} {s₅ : ParseState},
          (P' → BindingsAccepted levels s s₅ [b]) → Sound P' s₅ (do
            let _ ← expect .rparen
            return b) fun b s' => BindingsAccepted levels s s' [b] := by
        refine fun hb => sound_expect fun _ s₆ hs₆ => sound_pure fun _ h => ?_
        exact ⟨(hb h).members, (hb h).addMethods, (hb h).exprs.between (.refl s) hs₆⟩
      simp only
      split
      · refine (sound_bindingsOf _ ih fun h => ?_).bind fun bs s₅ hs₅ => hrest fun h => ?_
        · exact Nat.le_trans hlength₄ h.1.1.2
        · obtain ⟨⟨-, hm⟩, hbs⟩ := h
          refine ⟨?_, ?_, ?_⟩ <;> rw [List.flatMap_singleton]
          · rw [Binding.members, Binding.membersOfAll_eq]
            exact List.forall_mem_cons.2 ⟨hm, hbs.members⟩
          · rw [Binding.addMethods, Binding.addMethodsOfAll_eq]
            exact hbs.addMethods
          · rw [Binding.exprs, Binding.exprsOfAll_eq]
            exact hbs.exprs.between hs₀₄ (.refl s₅)
      · refine (sound_elements hreader).bind fun es s₅ hs₅ => hrest fun h => ?_
        obtain ⟨⟨-, hm⟩, hadd, hes⟩ := h
        refine ⟨?_, ?_, ?_⟩ <;> rw [List.flatMap_singleton]
        · exact List.forall_mem_singleton.2 hm
        · exact List.forall_mem_map.2 hadd
        · rw [Binding.exprs]
          exact hes.between hs₀₄ (.refl s₅)
      · exact sound_report fun s₅ hs₅ => hrest False.elim

theorem sound_bindings (hreader : SoundExpr levels reader) :
    Sound P s (manyForms (binding reader)) fun bs s' => BindingsAccepted levels s s' bs :=
  sound_bindingsOf s.tokens.length (fun hlexeme _ =>
    sound_get (sound_bindingNested hreader _ hlexeme fun _ => Nat.le_refl _)) fun _ => Nat.le_refl _

/-! ## Forms -/

theorem Accepted.ofChildren {s' : ParseState} {n : Node} (h : Accepted levels s s' n.children)
    (hlegible : n.Legible) (hquoted : n.quoted = []) (hparams : n.params = [])
    (hreference : n.reference = []) : NodeAccepted levels s s' n :=
  Accepted.node (by rwa [hquoted, List.append_nil]) hlegible hparams (by simp [hreference])

/-- A node that carries nothing and names no member and no method. -/
theorem Accepted.plain {s' : ParseState} {n : Node} (h : Accepted levels s s' n.children)
    (hformed : n.Formed) (hquoted : n.quoted = []) (hparams : n.params = [])
    (hmembers : n.members = []) (hadd : n.addMethods = []) (hreference : n.reference = []) :
    NodeAccepted levels s s' n :=
  h.ofChildren ⟨hformed, by simp [hmembers], by simp [hadd], by simp [hreference]⟩ hquoted hparams
    hreference

theorem ValueAccepted.node {s' : ParseState} {v : Value} (h : ValueAccepted levels s s' v) {t : Ty}
    (ht : v.isBare t = true ∨ t.isReadable = true) :
    NodeAccepted levels s s' (.constant v t) := by
  have hquoted : (Node.constant v t).quoted = quotedTree v := by cases v <;> rfl
  have hreference : ∀ c ∈ (Node.constant v t).reference, v = .closure c := by
    cases v with
    | closure c =>
      intro c' hc'
      rw [List.mem_singleton.1 hc']
    | _ => simp [Node.reference]
  refine Accepted.node (n := .constant v t) ?_ ⟨ht, by simp [Node.members], by simp [Node.addMethods],
    fun c hc => (h.closure c (hreference c hc)).2⟩ rfl fun c hc => (h.closure c (hreference c hc)).1
  rw [hquoted]
  exact h.tree

theorem sound_resolveName (name : String) (span : Span) :
    Sound P s (resolveName name span) fun n s' => NodeAccepted levels s s' n := by
  refine sound_get ?_
  split
  · next v hv =>
    refine sound_pure fun hs _ => accepted_nil.plain ?_ rfl rfl rfl rfl rfl
    obtain ⟨l₁, l₂, hscopes, -⟩ := List.lookup_eq_some_iff.1 hv
    exact hs.scopes (name, v) (by simp [hscopes])
  · refine sound_closure? ?_
    split
    · next c hc =>
      refine sound_pure fun hs _ => ValueAccepted.node ⟨accepted_nil, ?_⟩ (.inl (beq_self_eq_true c.name))
      rintro _ ⟨⟩
      obtain ⟨rfl, hword, -⟩ := hs.of_lookup hc
      exact ⟨hc, hword⟩
    · exact sound_report fun _ _ => sound_pure fun _ h => h.elim

theorem sound_formBody (hreader : SoundExpr levels reader) (head : String) (span : Span) :
    Sound P s (formBody reader head span) fun n s' => NodeAccepted levels s s' n := by
  have hmemberAccess : ∀ {o : Option Expr} {m : Member} {s₁ s₂ : ParseState},
      Accepted levels s s₁ o.toList → m.isReadable = true → Leads s₁ s₂ →
      NodeAccepted levels s s₂ (.memberAccess o m) := fun ho hm hs₂ =>
    (ho.between (.refl s) hs₂).ofChildren ⟨trivial, List.forall_mem_singleton.2 hm,
      by simp [Node.addMethods], by simp [Node.reference]⟩ rfl rfl rfl
  -- one case for each head of a form, in the order of the definition
  unfold formBody
  split
  · next op _ =>
    refine hreader.bind fun e s₁ hs₁ => ?_
    split
    · next htakes =>
      refine sound_ty.bind fun t s₂ hs₂ => sound_pure fun _ h => ?_
      refine (h.1.2.between (.refl s) hs₂).plain ⟨rfl, ?_⟩ rfl rfl rfl rfl rfl
      rw [if_pos htakes]
      exact h.2
    · next htakes =>
      refine sound_pure fun _ h => h.2.plain ⟨rfl, ?_⟩ rfl rfl rfl rfl rfl
      rw [if_neg htakes]
      exact .inl rfl
  split
  · refine hreader.bind fun x s₁ hs₁ => hreader.bind fun y s₂ hs₂ => sound_pure fun _ h => ?_
    exact (h.1.2.andThen h.2 hs₁ hs₂).plain ⟨rfl, rfl, rfl, .inl rfl⟩ rfl rfl rfl rfl rfl
  split
  · refine hreader.bind fun e s₁ hs₁ => sound_ty.bind fun t s₂ hs₂ => sound_pure fun _ h => ?_
    exact (h.1.2.between (.refl s) hs₂).plain h.2 rfl rfl rfl rfl rfl
  · refine hreader.bind fun x s₁ hs₁ => hreader.bind fun y s₂ hs₂ => hreader.bind fun z s₃ hs₃ => ?_
    refine sound_pure fun _ h => ?_
    obtain ⟨⟨⟨-, hx⟩, hy⟩, hz⟩ := h
    exact ((hx.andThen hy hs₁ hs₂).andThen hz (hs₁.trans hs₂) hs₃).plain (.inl rfl) rfl rfl rfl rfl rfl
  · refine (sound_value hreader).bind fun v s₁ hs₁ => sound_ty.bind fun t s₂ hs₂ => ?_
    exact sound_pure fun _ h => ValueAccepted.node ⟨h.1.2.tree.between (.refl s) hs₂, h.1.2.closure⟩
      (.inr h.2)
  · refine hreader.bind fun t s₁ hs₁ => sound_pure fun _ h => ValueAccepted.node ⟨h.2, ?_⟩ ?_
    · simp
    · exact .inl (beq_self_eq_true t.ty)
  · exact sound_lambda hreader
  · refine hreader.bind fun x s₁ hs₁ => (sound_exprs hreader).bind fun as s₂ hs₂ => ?_
    refine sound_pure fun _ h => ?_
    exact (h.1.2.andThen h.2 hs₁ hs₂).plain (.inl rfl) rfl rfl rfl rfl rfl
  · refine hreader.bind fun x s₁ hs₁ => (sound_exprs hreader).bind fun as s₂ hs₂ => ?_
    refine sound_pure fun _ h => ?_
    exact (h.1.2.andThen h.2 hs₁ hs₂).plain ⟨rfl, .inl rfl⟩ rfl rfl rfl rfl rfl
  · refine hreader.bind fun x s₁ hs₁ => sound_pure fun _ h => ?_
    exact h.2.plain ⟨rfl, .inl rfl⟩ rfl rfl rfl rfl rfl
  · refine hreader.bind fun x s₁ hs₁ => sound_pure fun _ h => ?_
    exact h.2.plain ⟨rfl, .inl rfl⟩ rfl rfl rfl rfl rfl
  · refine (sound_object hreader).bind fun o s₁ hs₁ => (sound_memberTail _).bind fun m s₂ hs₂ => ?_
    exact sound_pure fun _ h => hmemberAccess h.1.2 h.2 hs₂
  · refine (sound_object hreader).bind fun o s₁ hs₁ => (sound_memberTail _).bind fun m s₂ hs₂ => ?_
    exact sound_pure fun _ h => hmemberAccess h.1.2 h.2 hs₂
  · refine (sound_object hreader).bind fun o s₁ hs₁ => sound_path.bind fun p s₂ hs₂ => ?_
    refine sound_expect fun _ s₃ hs₃ => (sound_exprs hreader).bind fun as s₄ hs₄ => ?_
    refine sound_expect fun _ s₅ hs₅ => sound_ty.bind fun t s₆ hs₆ => sound_pure fun _ h => ?_
    obtain ⟨⟨⟨⟨-, ho⟩, hp⟩, has⟩, ht⟩ := h
    have hparts := ho.andThen (has.between (hs₂.trans hs₃) (hs₅.trans hs₆)) hs₁
      (((hs₂.trans hs₃).trans hs₄).trans (hs₅.trans hs₆))
    exact hparts.plain ⟨hp.1, hp.2, rfl, ht⟩ rfl rfl rfl rfl rfl
  · refine (sound_constructTail hreader).bind fun c s₁ hs₁ => sound_pure fun _ h => ?_
    exact h.2.args.ofChildren ⟨h.2.legible, h.2.members, by simp [Node.addMethods],
      by simp [Node.reference]⟩ rfl rfl rfl
  · refine sound_ty.bind fun t s₁ hs₁ => (sound_exprs hreader).bind fun as s₂ hs₂ => ?_
    exact sound_pure fun _ h => (h.2.between hs₁ (.refl s₂)).plain h.1.2 rfl rfl rfl rfl rfl
  · refine sound_ty.bind fun t s₁ hs₁ => (sound_exprs hreader).bind fun as s₂ hs₂ => ?_
    exact sound_pure fun _ h => (h.2.between hs₁ (.refl s₂)).plain h.1.2 rfl rfl rfl rfl rfl
  · refine (sound_constructForm hreader).bind fun c s₁ hs₁ => (sound_bindings hreader).bind fun bs s₂ hs₂ => ?_
    refine sound_pure fun _ h => ?_
    obtain ⟨⟨-, hc⟩, hbs⟩ := h
    have hparts := hc.args.andThen hbs.exprs hs₁ hs₂
    rw [← Binding.exprsOfAll_eq] at hparts
    refine hparts.ofChildren ⟨hc.legible, ?_, ?_, by simp [Node.reference]⟩ rfl rfl rfl
    · rw [Node.members, Binding.membersOfAll_eq]
      exact List.forall_mem_append.2 ⟨hc.members, hbs.members⟩
    · rw [Node.addMethods, Binding.addMethodsOfAll_eq]
      exact hbs.addMethods
  · refine (sound_constructForm hreader).bind fun c s₁ hs₁ => (sound_elements hreader).bind fun es s₂ hs₂ => ?_
    refine sound_pure fun _ h => ?_
    obtain ⟨⟨-, hc⟩, hadd, hes⟩ := h
    exact (hc.args.andThen hes hs₁ hs₂).ofChildren ⟨hc.legible, hc.members, List.forall_mem_map.2 hadd,
      by simp [Node.reference]⟩ rfl rfl rfl
  · refine sound_expectIdent fun kind _ s₁ hs₁ => sound_ty.bind fun t s₂ hs₂ => ?_
    exact sound_pure fun _ h => accepted_nil.plain ⟨h.1.2, h.2⟩ rfl rfl rfl rfl rfl
  · exact sound_report fun _ _ => Sound.skip leads_skipToClose fun _ _ _ => sound_pure fun _ h => h.elim

/-- A readable type may be declared on every node that can carry one. -/
theorem NodeAccepted.withTy? {s' : ParseState} {n n' : Node} {t : Ty}
    (h : NodeAccepted levels s s' n) (ht : t.isReadable = true) (hn : n.withTy? t = some n') :
    NodeAccepted levels s s' n' := by
  obtain ⟨⟨hformed, hmembers, hadd, hreference⟩, hinner, hnesting, hbinders, hreferences⟩ := h
  cases n with
  | unary op e t' m =>
    cases hn
    refine ⟨⟨⟨hformed.1, ?_⟩, hmembers, hadd, hreference⟩, hinner, hnesting, hbinders, hreferences⟩
    split
    · exact ht
    · exact .inr ht
  | binary op x y c lifted m t' =>
    cases hn
    exact ⟨⟨⟨hformed.1, hformed.2.1, hformed.2.2.1, .inr ht⟩, hmembers, hadd, hreference⟩, hinner,
      hnesting, hbinders, hreferences⟩
  | conditional x y z t' =>
    cases hn
    exact ⟨⟨.inr ht, hmembers, hadd, hreference⟩, hinner, hnesting, hbinders, hreferences⟩
  | lambda ps b t' =>
    cases hn
    exact ⟨⟨⟨hformed.1, hformed.2.1, .inr ht⟩, hmembers, hadd, hreference⟩, hinner, hnesting, hbinders,
      hreferences⟩
  | invocation x as t' =>
    cases hn
    exact ⟨⟨.inr ht, hmembers, hadd, hreference⟩, hinner, hnesting, hbinders, hreferences⟩
  | call o m as =>
    simp only [Node.withTy?] at hn
    split at hn
    · next hmarker =>
      cases hn
      exact ⟨⟨hformed.withRet hmarker ht, hmembers, hadd, hreference⟩, hinner, hnesting, hbinders,
        hreferences⟩
    · cases hn
  | _ => cases hn

theorem sound_declareTy {n : Node} {s₀ : ParseState} (hn : P → NodeAccepted levels s₀ s n) :
    Sound P s (declareTy n) fun n s' => NodeAccepted levels s₀ s' n := by
  refine sound_eat fun colon s₁ hs₁ => ?_
  split
  · refine sound_peekSpan fun span => sound_ty.bind fun t s₂ hs₂ => ?_
    split
    · exact sound_pure fun _ h => ((hn h.1).mono (.refl s₀) (hs₁.trans hs₂)).withTy? h.2 ‹_›
    · exact sound_report fun _ _ => sound_pure fun _ h => h.elim
  · exact sound_pure fun _ h => (hn h).mono (.refl s₀) hs₁

theorem sound_form (hreader : SoundExpr levels reader) :
    Sound P s (form reader) fun n s' => NodeAccepted levels s s' n := by
  refine sound_expect fun opening s₁ hs₁ => sound_peek ?_
  split
  · refine sound_peekSpan fun span => sound_advance fun s₂ hs₂ => ?_
    refine (sound_formBody hreader _ _).bind fun n s₃ hs₃ => ?_
    refine (sound_declareTy fun h => h.2).bind fun n s₄ hs₄ => sound_at? fun closed => ?_
    have hrest : ∀ {P' : Prop} {s₅ : ParseState}, Leads s₄ s₅ → (P' → NodeAccepted levels s₂ s₄ n) →
        Sound P' s₅ (do
          let _ ← eat .rparen
          return n) fun n s' => NodeAccepted levels s s' n := by
      refine fun hs₅ hn => sound_eat fun _ s₆ hs₆ => sound_pure fun _ h => ?_
      exact (hn h).mono (hs₁.trans hs₂) (hs₅.trans hs₆)
    simp only
    split
    · exact sound_peek (sound_reportHere fun s₅ hs₅ => Sound.skip leads_skipToClose fun _ s₆ hs₆ =>
        hrest (hs₅.trans hs₆) False.elim)
    · exact hrest (.refl s₄) fun h => h.2
  · exact sound_reportHere fun _ _ => Sound.skip leads_skipToClose fun _ _ _ => sound_eat fun _ _ _ =>
      sound_pure fun _ h => h.elim

theorem sound_exprNode (hreader : SoundExpr levels reader) :
    Sound P s (exprNode reader) fun n s' => NodeAccepted levels s s' n := by
  have hliteral : ∀ (v : Value) (t : Ty), quotedTree v = [] → (∀ c, v ≠ .closure c) →
      v.isBare t = true → Sound P s (do
        advance
        Pure.pure (Node.constant v t)) fun n s' => NodeAccepted levels s s' n := by
    refine fun v t htree hclosure hbare => sound_advance fun s₁ _ => sound_pure fun _ _ => ?_
    refine ValueAccepted.node ⟨?_, fun c hc => absurd hc (hclosure c)⟩ (.inl hbare)
    rw [htree]
    exact accepted_nil
  refine sound_peek ?_
  generalize s.lexeme = l
  cases l with
  | integer n => exact hliteral _ _ rfl (by simp) rfl
  | float x => exact hliteral _ _ rfl (by simp) rfl
  | str text => exact hliteral _ _ rfl (by simp) rfl
  | true => exact hliteral _ _ rfl (by simp) rfl
  | false => exact hliteral _ _ rfl (by simp) rfl
  | null => exact hliteral _ _ rfl (by simp) rfl
  | ident name =>
    refine sound_peekSpan fun span => sound_advance fun s₁ hs₁ => ?_
    exact (sound_resolveName _ _).mono (fun h => h) fun n s₂ _ _ _ hn => hn.mono hs₁ (.refl s₂)
  | lparen => exact sound_form hreader
  | _ =>
    refine sound_reportHere fun s₁ _ => ?_
    split
    · exact sound_advance fun _ _ => sound_pure fun _ h => h.elim
    · exact sound_pure fun _ h => h.elim

theorem sound_alloc (n : Node) : Sound P s (draw n.alloc) fun e _ => ∃ label, e = .mk label n :=
  ⟨⟨Nat.le_refl _, rfl, rfl, Nat.le_succ _, List.suffix_refl _, id⟩, fun _ _ _ => ⟨_, rfl⟩⟩

/-- An expression that is read without a report is accepted. -/
theorem soundExpr (levels : Nat) : SoundExpr levels (expr levels) := by
  induction levels with
  | zero =>
    intro P s
    refine sound_reportHere fun s₁ _ => Sound.skip leads_skipForm fun _ s₂ _ => ?_
    exact (sound_alloc _).mono (fun h => h) fun _ _ _ h => h.elim
  | succ levels ih =>
    intro P s
    have hnode : Sound P s (exprNode (expr levels)) fun n s' =>
        ∀ label, Accepted (levels + 1) s s' [.mk label n] :=
      (sound_exprNode ih).mono (fun h => h) fun n s₁ hs _ _ hn => hn.expr hs
    refine hnode.bind fun n s₁ hs₁ => (sound_alloc n).mono (fun h => h) fun e s₂ _ h hs₂ he => ?_
    obtain ⟨label, rfl⟩ := he
    exact (h.2 label).between (.refl s) hs₂

end Expressions

/-! ## Declarations -/

/-- What is known of the fields of a closure that were read without a report. -/
structure FieldsAccepted (closures : List (String × Closure Value)) (lo hi : Nat)
    (fields : List (String × Value)) : Prop where
  names : (fields.map (·.1)).Nodup
  words : ∀ f ∈ fields, isWord f.1 = true
  trees : AcceptedIn maxNesting closures lo hi (fields.flatMap fun f => quotedTree f.2)
  closures : ∀ f ∈ fields, ∀ c, f.2 = .closure c → closures.lookup c.name = some c ∧
    isWord c.name = true

theorem FieldsAccepted.mono {closures : List (String × Closure Value)} {lo hi hi' : Nat}
    {fields : List (String × Value)} (h : FieldsAccepted closures lo hi fields) (hle : hi ≤ hi') :
    FieldsAccepted closures lo hi' fields :=
  { h with trees := h.trees.mono (Nat.le_refl _) hle }

/-- One more field. -/
theorem FieldsAccepted.snoc {closures : List (String × Closure Value)} {lo mid hi : Nat}
    {fields : List (String × Value)} {name : String} {v : Value}
    (h : FieldsAccepted closures lo mid fields) (hnew : name ∉ fields.map (·.1))
    (hword : isWord name = true) (hv : AcceptedIn maxNesting closures mid hi (quotedTree v))
    (hclosure : ∀ c, v = .closure c → closures.lookup c.name = some c ∧ isWord c.name = true)
    (hlo : lo ≤ mid) (hhi : mid ≤ hi) :
    FieldsAccepted closures lo hi (fields ++ [(name, v)]) where
  names := by
    rw [List.map_append, List.map_singleton]
    refine List.nodup_append.2 ⟨h.names, List.nodup_singleton _, ?_⟩
    intro a ha b hb heq
    rw [List.mem_singleton] at hb
    rw [heq, hb] at ha
    exact hnew ha
  words := List.forall_mem_append.2 ⟨h.words, List.forall_mem_singleton.2 hword⟩
  trees := by
    rw [List.flatMap_append, List.flatMap_singleton]
    exact h.trees.append hv hlo hhi
  closures := List.forall_mem_append.2 ⟨h.closures, List.forall_mem_singleton.2 hclosure⟩

/-- Closures declared one after the other, the last one first: their names differ, each draws its
identities before those behind it, and its fields refer to closures declared before. -/
inductive Settled : Nat → List (String × Closure Value) → Prop
  | nil (next : Nat) : Settled next []
  | cons {lo hi next id : Nat} {name : String} {fields : List (String × Value)}
      {closures : List (String × Closure Value)} (before : Settled lo closures)
      (new : closures.lookup name = none) (accepted : FieldsAccepted closures lo hi fields)
      (lo_le : lo ≤ hi) (hi_le : hi ≤ id) (id_lt : id < next) :
      Settled next ((name, ⟨id, name, fields⟩) :: closures)

theorem Settled.mono {next next' : Nat} {closures : List (String × Closure Value)}
    (h : Settled next closures) (hle : next ≤ next') : Settled next' closures := by
  cases h with
  | nil => exact .nil next'
  | cons hbefore hnew hfields hlo hhi hid =>
    exact .cons hbefore hnew hfields hlo hhi (Nat.lt_of_lt_of_le hid hle)

section Declarations

variable {P : Prop} {s s₀ : ParseState}

theorem sound_closureField {closure : String} {fields : List (String × Value)} (hs₀ : Leads s₀ s)
    (hfields : P → FieldsAccepted s₀.closures s₀.supply.next s.supply.next fields.reverse) :
    Sound P s (closureField closure fields) fun fields s' =>
      FieldsAccepted s₀.closures s₀.supply.next s'.supply.next fields.reverse := by
  refine sound_expectIdent fun name span s₁ hs₁ => sound_expect fun _ s₂ hs₂ => ?_
  refine (sound_value (soundExpr maxNesting)).bind fun v s₃ hs₃ => ?_
  -- a comma or the place of the closing brace follows, whatever the fields are
  have hrest : ∀ {P' : Prop} {s₄ : ParseState} {result : List (String × Value)}, Leads s₃ s₄ →
      (P' → FieldsAccepted s₀.closures s₀.supply.next s₃.supply.next result.reverse) →
      Sound P' s₄ (do
        if !(← eat .comma) && !(← at? .rbrace) then
          reportHere ("expected ',' or '\x7d' after closure field, found " ++ (← peek).describe) none
          advance
        return result) fun fields s' =>
          FieldsAccepted s₀.closures s₀.supply.next s'.supply.next fields.reverse := by
    intro P' s₄ result hs₄ hresult
    refine sound_eat fun ate s₅ hs₅ => sound_at? fun closing => ?_
    simp only
    split
    · exact sound_peek (sound_reportHere fun _ _ => sound_advance fun _ _ => sound_pure fun _ h => h.elim)
    · exact sound_pure fun _ h => (hresult h).mono (hs₄.trans hs₅).supply
  simp only
  split
  · exact sound_report fun s₄ hs₄ => hrest hs₄ False.elim
  · next hduplicate =>
    refine hrest (.refl s₃) fun h => ?_
    obtain ⟨⟨h, hword⟩, hv⟩ := h
    have hs₀₂ := (hs₀.trans hs₁).trans hs₂
    rw [List.reverse_cons]
    refine (hfields h).snoc ?_ hword ?_ (fun c hc => ?_) hs₀.supply ((hs₁.trans hs₂).trans hs₃).supply
    · rw [List.map_reverse, List.mem_reverse]
      intro hmem
      obtain ⟨f, hf, rfl⟩ := List.mem_map.1 hmem
      exact hduplicate (List.any_eq_true.2 ⟨f, hf, beq_self_eq_true f.1⟩)
    · have htree := hv.tree
      rw [Accepted, hs₀₂.closures] at htree
      exact htree.mono (hs₁.trans hs₂).supply (Nat.le_refl _)
    · have hclosure := hv.closure c hc
      rwa [hs₀₂.closures] at hclosure

/-- What holds between declarations. -/
structure Between (s : ParseState) : Prop where
  proper : Proper s
  settled : Settled s.supply.next s.closures

/-- The reader never takes a report back, and if it makes none, it leads from between declarations to
between declarations. -/
def SoundDecl (x : Parser α) (s : ParseState) : Prop :=
  s.faults.size ≤ (x s).2.faults.size ∧
    (Between s → (x s).2.faults.size = s.faults.size → Between (x s).2)

/-- What ends a declaration that was begun in a state: it never takes a report back, and if it makes
none, it leads to between declarations. -/
def Finishes (s s' : ParseState) (Q : Prop) (y : Parser β) : Prop :=
  s'.faults.size ≤ (y s').2.faults.size ∧
    (Between s → Proper s' → Q → (y s').2.faults.size = s'.faults.size → Between (y s').2)

/-- What is read first changes neither scopes nor closures. -/
theorem SoundDecl.of_sound {x : Parser α} {f : α → Parser β} {Q : α → ParseState → Prop}
    (hx : Sound True s x Q) (hf : ∀ a s', Leads s s' → Finishes s s' (Q a s') (f a)) :
    SoundDecl (x >>= f) s := by
  obtain ⟨hleads, hQ⟩ := hx
  obtain ⟨hle, hbetween⟩ := hf (x s).1 (x s).2 hleads
  refine ⟨Nat.le_trans hleads.faults hle, fun hs hfaults => ?_⟩
  have hfirst : (x s).2.faults.size = s.faults.size := by
    have h₁ := hleads.faults
    have h₂ : _ ≤ ((x >>= f) s).2.faults.size := hle
    omega
  exact hbetween hs (hs.proper.leads hleads) (hQ hs.proper trivial hfirst) (hfaults.trans hfirst.symm)

theorem finishes_report {s' : ParseState} {Q : Prop} (d : Diagnostic) : Finishes s s' Q (report d) := by
  have hsize : (report d s').2.faults.size = s'.faults.size + 1 := Array.size_push d
  exact ⟨by omega, fun _ _ _ hfaults => by omega⟩

theorem finishes_get {s' : ParseState} {Q : Prop} {f : ParseState → Parser β}
    (hf : Finishes s s' Q (f s')) : Finishes s s' Q (get >>= f) := hf

theorem finishes_closure? {s' : ParseState} {Q : Prop} {name : String}
    {f : Option (Closure Value) → Parser β} (hf : Finishes s s' Q (f (s'.closures.lookup name))) :
    Finishes s s' Q (closure? name >>= f) := hf

/-- A declaration of a closure: its parts, and then the closure itself. -/
theorem closureDecl_eq : closureDecl = ((do
    let _ ← expect .closure
    let (name, span) ← expectIdent
    let _ ← expect .lbrace
    let fields ← iterate moreFields (fieldStep name) []
    let _ ← expect .rbrace
    return ((name, span), fields)) >>= fun p : (String × Span) × List (String × Value) => do
      if (← closure? p.1.1).isSome then
        report { message := "closure '" ++ p.1.1 ++ "' declared twice"
                 span := p.1.2
                 help := some "closure names identify capture types and must be unique" }
      else
        let c ← draw (Closure.alloc p.1.1 p.2.reverse)
        modify fun s => { s with closures := (p.1.1, c) :: s.closures }) := rfl

/-- The trees in the fields of a closure, also those of the closures that they refer to. -/
theorem FieldsAccepted.legible {closures : List (String × Closure Value)} {lo hi : Nat}
    {fields : List (String × Value)} (h : FieldsAccepted closures lo hi fields)
    (hclosures : ∀ b ∈ closures, b.2.name = b.1 ∧ isWord b.1 = true ∧
      ∀ t ∈ b.2.trees, AllLegible t) :
    ∀ t ∈ fields.flatMap (fun f => f.2.trees), AllLegible t := by
  intro t ht
  obtain ⟨f, hf, ht⟩ := List.mem_flatMap.1 ht
  obtain ⟨name, v⟩ := f
  cases v with
  | tree u => exact h.trees.legible t (List.mem_flatMap.2 ⟨_, hf, by simpa [quotedTree] using ht⟩)
  | closure c =>
    obtain ⟨l₁, l₂, hsplit, -⟩ := List.lookup_eq_some_iff.1 (h.closures _ hf c rfl).1
    exact (hclosures (c.name, c) (by simp [hsplit])).2.2 t (by simpa using ht)
  | _ => simp [Value.trees] at ht

theorem soundDecl_closureDecl : SoundDecl closureDecl s := by
  rw [closureDecl_eq]
  refine SoundDecl.of_sound (Q := fun p s' => isWord p.1.1 = true ∧
    FieldsAccepted s.closures s.supply.next s'.supply.next p.2.reverse) ?_ ?_
  · refine sound_expect fun _ s₁ hs₁ => sound_expectIdent fun name span s₂ hs₂ => ?_
    refine sound_expect fun _ s₃ hs₃ => ?_
    have hs₀₃ := (hs₁.trans hs₂).trans hs₃
    refine Sound.bind (Q := fun fields s' =>
      FieldsAccepted s.closures s.supply.next s'.supply.next fields.reverse) ?_ ?_
    · refine Sound.iterate (fun fields s₄ hs₄ _ => ?_)
        fun _ _ => ⟨by simp, by simp, accepted_nil, by simp⟩
      exact (sound_closureField (hs₀₃.trans hs₄) fun h => h.2).bind fun fields s₅ _ =>
        sound_pure fun _ h => h.2
    · refine fun fields s₄ hs₄ => sound_expect fun _ s₅ hs₅ => sound_pure fun _ h => ?_
      exact ⟨h.1.2, h.2.mono hs₅.supply⟩
  · rintro ⟨⟨name, span⟩, fields⟩ s' hs'
    refine finishes_closure? ?_
    split
    · exact finishes_report _
    · next hnew =>
      refine ⟨Nat.le_refl _, fun hs hproper hQ _ => ?_⟩
      obtain ⟨hword, hfields⟩ := hQ
      have hnew : s'.closures.lookup name = none := Option.not_isSome_iff_eq_none.1 hnew
      refine ⟨⟨hproper.words, hproper.ends, hproper.scopes, ?_⟩, ?_⟩
      · refine List.forall_mem_cons.2 ⟨⟨rfl, hword, ?_⟩, hproper.closures⟩
        exact hfields.legible hs.proper.closures
      · rw [← hs'.closures] at hfields
        exact .cons (hs'.closures ▸ hs.settled) hnew hfields hs'.supply (Nat.le_refl _)
          (Nat.lt_succ_self _)

theorem freeDecl_eq : freeDecl = ((do
    let _ ← expect .free
    let (name, span) ← expectIdent
    let _ ← expect .colon
    let ty ← ty
    return ((name, span), ty)) >>= fun p : (String × Span) × Ty => do
      if (← get).scopes.any (·.1 == p.1.1) then
        report { message := "free variable '" ++ p.1.1 ++ "' declared twice", span := p.1.2 }
      else
        let v ← draw (Variable.alloc p.1.1 p.2)
        modify fun s => { s with scopes := (p.1.1, v) :: s.scopes }) := rfl

theorem soundDecl_freeDecl : SoundDecl freeDecl s := by
  rw [freeDecl_eq]
  refine SoundDecl.of_sound (Q := fun p _ => p.2.isReadable = true) ?_ ?_
  · refine sound_expect fun _ s₁ hs₁ => sound_expectIdent fun name span s₂ hs₂ => ?_
    refine sound_expect fun _ s₃ hs₃ => sound_ty.bind fun t s₄ hs₄ => sound_pure fun _ h => h.2
  · rintro ⟨⟨name, span⟩, t⟩ s' hs'
    refine finishes_get ?_
    split
    · exact finishes_report _
    · refine ⟨Nat.le_refl _, fun hs hproper ht _ => ?_⟩
      refine ⟨⟨hproper.words, hproper.ends, List.forall_mem_cons.2 ⟨ht, hproper.scopes⟩,
        hproper.closures⟩, ?_⟩
      exact (hs'.closures ▸ hs.settled).mono (Nat.le_succ_of_le hs'.supply)

theorem soundDecl_many (more : Lexeme → Bool) : SoundDecl (many more decl) s := by
  have hdecl : ∀ s, SoundDecl decl s := by
    intro s
    show SoundDecl (if s.lexeme == .closure then closureDecl else freeDecl) s
    split
    · exact soundDecl_closureDecl
    · exact soundDecl_freeDecl
  refine iterate_invariant (I := fun _ s' => s.faults.size ≤ s'.faults.size ∧
    (Between s → s'.faults.size = s.faults.size → Between s')) ?_ _ s ⟨Nat.le_refl _, fun hs _ => hs⟩
  rintro _ s' ⟨hle, hbetween⟩
  obtain ⟨hle', hbetween'⟩ := hdecl s'
  refine ⟨Nat.le_trans hle hle', fun hs hfaults => ?_⟩
  have hfirst : s'.faults.size = s.faults.size := by
    have h₂ : _ ≤ (decl s').2.faults.size := hle'
    have h₃ : (decl s').2.faults.size = s.faults.size := hfaults
    omega
  exact hbetween' (hbetween hs hfirst) (hfaults.trans hfirst.symm)

end Declarations

/-- What is known of a source that is read without a report: the closures declared in it, and the tree
over them. -/
theorem accepted_file {s : ParseState} (hs : Between s)
    (hfaults : (file s).2.faults.size = s.faults.size) :
    ∃ lo, Proper (file s).2 ∧ Settled lo (file s).2.closures ∧
      AcceptedIn maxNesting (file s).2.closures lo (file s).2.supply.next [(file s).1] := by
  obtain ⟨hle, hbetween⟩ := soundDecl_many moreDecls (s := s)
  -- the expression behind the declarations
  have hrest : ∀ s₁, Sound True s₁ lastExpr fun e s' => Accepted maxNesting s₁ s' [e] := by
    intro s₁
    refine (soundExpr maxNesting).bind fun e s₂ hs₂ => sound_at? fun ended => ?_
    simp only
    split
    · exact sound_peek (sound_reportHere fun _ _ => sound_pure fun _ h => h.elim)
    · exact sound_pure fun _ h => h.2
  obtain ⟨hleads, haccepted⟩ := hrest (many moreDecls decl s).2
  have hfirst : (many moreDecls decl s).2.faults.size = s.faults.size := by
    have h₁ : _ ≤ (file s).2.faults.size := hleads.faults
    omega
  have hs₁ := hbetween hs hfirst
  have hclosures : (file s).2.closures = _ := hleads.closures
  refine ⟨_, hs₁.proper.leads hleads, hclosures ▸ hs₁.settled, ?_⟩
  rw [hclosures]
  exact haccepted hs₁.proper trivial (hfaults.trans hfirst.symm)

end Parser

/-- A source is accepted if nothing is reported while it is cut into tokens and read. -/
theorem parseTree_eq_ok_iff {source : String} {supply supply' : Supply} {e : Expr} :
    parseTree source supply = .ok (e, supply') ↔ (tokenize source).faults = [] ∧
      ∃ s, Parser.file { tokens := (tokenize source).tokens, supply } = (e, s) ∧ s.faults.size = 0 ∧
        s.supply = supply' := by
  obtain ⟨e₁, s, hrun⟩ : ∃ e₁ s,
      Parser.file { tokens := (tokenize source).tokens, supply } = (e₁, s) := ⟨_, _, rfl⟩
  have htokens : parseTokens (tokenize source).tokens supply =
      if s.faults.isEmpty then .ok (e₁, s.supply) else .error s.faults.toList := by
    have hfile : Parser.file.run { tokens := (tokenize source).tokens, supply } = (e₁, s) := hrun
    rw [parseTokens, hfile]
  rw [parseTree, htokens, hrun]
  cases hlexed : (tokenize source).faults with
  | cons d ds => simp
  | nil =>
    simp only [List.isEmpty_nil, if_true, true_and]
    constructor
    · intro h
      split at h
      · next hempty =>
        cases h
        exact ⟨s, rfl, by simpa using hempty, rfl⟩
      · cases h
    · rintro ⟨_, ⟨⟩, hsize, rfl⟩
      rw [if_pos (by simpa using hsize)]

/-- The closures that are declared in a source, the last one first. -/
def declaredClosures (source : String) (supply : Supply) : List (String × Closure Value) :=
  (Parser.file.run { tokens := (tokenize source).tokens, supply }).2.closures

/-- The tree of an accepted source is legible, does not nest too deep, binds every variable once and
refers to the closures declared in the source. -/
theorem accepted_of_parseTree {source : String} {supply supply' : Supply} {e : Expr}
    (h : parseTree source supply = .ok (e, supply')) :
    ∃ lo, Parser.Settled lo (declaredClosures source supply) ∧
      (∀ b ∈ declaredClosures source supply, b.2.name = b.1 ∧ isWord b.1 = true ∧
        ∀ t ∈ b.2.trees, Parser.AllLegible t) ∧
      Parser.AcceptedIn Parser.maxNesting (declaredClosures source supply) lo supply'.next [e] := by
  obtain ⟨-, s, hrun, hfaults, rfl⟩ := parseTree_eq_ok_iff.1 h
  obtain ⟨hwords, hends⟩ := Lexer.run_tokens ⟨0, source.toList⟩
  have hstart : Parser.Between { tokens := (tokenize source).tokens, supply } :=
    ⟨⟨hwords, hends, by simp, by simp⟩, .nil _⟩
  obtain ⟨lo, hproper, hsettled, haccepted⟩ := Parser.accepted_file hstart (by rw [hrun]; exact hfaults)
  have hclosures : declaredClosures source supply = s.closures := by
    show (Parser.file { tokens := (tokenize source).tokens, supply }).2.closures = _
    rw [hrun]
  rw [hrun] at hproper hsettled haccepted
  rw [hclosures]
  exact ⟨lo, hsettled, hproper.closures, haccepted⟩

end ExprTree
