import ExprTree.Proofs.RecognizedForms

/-!
# Sources are recognized

A declaration changes what names stand for, so its reader is no reader of a phrase. It is cut in two: a
reader of the phrase that gives what is declared, and the change. Fields of closures are recognized as
parameters of lambdas are, but for the commas between them.

The main result is `parseTokens_decides_fileAt`: a list of tokens is accepted exactly if it is a source of
the grammar, with the tree that the grammar gives, and any other is rejected with some report.
-/

namespace ExprTree

open Grammar

namespace Parser

variable {C : Point → Prop} {F : Lexeme → Prop}

/-! ## Fields -/

/-- A field whose name is none of those before, with the comma behind it if there is one. -/
def NewField (acc : List (String × Value)) : Phrase (List (String × Value)) := fun Γ p r q =>
  ∃ f p₁, FieldAt Γ p f p₁ ∧ acc.any (·.1 == f.1) = false ∧
    (Word .comma p₁ q ∨ p₁.head = .rbrace ∧ q = p₁) ∧ r = f :: acc

/-- Behind a field stands a comma or the closing brace. -/
theorem recognizes_fieldEnd {α : Type} {a : α} {message : Lexeme → String} :
    Recognizes False Anywhere Anything (do
      if !(← eat .comma) && !(← at? .rbrace) then
        reportHere (message (← peek)) none
        advance
      return a) fun _ p r q => (Word .comma p q ∨ p.head = .rbrace ∧ q = p) ∧ r = a := by
  refine Recognizes.congr (recognizes_eat (recognizes_at? fun closing => recognizes_pure a)
    (recognizes_at? (M := False) (R := fun _ p r q => p.head = .rbrace ∧ r = a ∧ q = p)
      fun closing => ?_)) fun _ => ⟨?_, ?_⟩
  · cases closing with
    | true =>
      refine Recognizes.congr (recognizes_pure a) fun hC => ⟨fun h => ⟨eq_of_beq hC.2, h⟩, And.right⟩
    | false =>
      refine Recognizes.congr (recognizes_peek fun l => recognizes_reportHere leads_advance) fun hC =>
        ⟨False.elim, fun h => ne_of_beq_false hC.2 h.1⟩
  · rintro (⟨_, h, rfl, rfl⟩ | ⟨-, h, rfl, rfl⟩)
    · exact ⟨.inl h, rfl⟩
    · exact ⟨.inr ⟨h, rfl⟩, rfl⟩
  · rintro ⟨h | ⟨h, rfl⟩, rfl⟩
    · exact .inl ⟨_, h, rfl, rfl⟩
    · exact .inr ⟨by simp [h], h, rfl, rfl⟩

theorem recognizes_closureField (closure : String) (acc : List (String × Value)) :
    Recognizes True Anywhere Anything (closureField closure acc) (NewField acc) := by
  refine Recognizes.congr (recognizes_ident fun name span => recognizes_word fun _ =>
    (recognizes_value (readsExpr maxNesting)).andThen (N := False) (S := fun v _ p r q =>
      acc.any (·.1 == name) = false ∧ (Word .comma p q ∨ p.head = .rbrace ∧ q = p) ∧
      r = (name, v) :: acc)
      fun v => ?_) fun _ => ⟨?_, ?_⟩
  · simp only
    split
    · next htwice =>
      refine Recognizes.congr (recognizes_report (recognizes_fieldEnd (a := acc)).leads) fun _ =>
        ⟨False.elim, fun h => ?_⟩
      rw [h.1] at htwice
      cases htwice
    · next honce =>
      exact recognizes_fieldEnd.congr fun _ => ⟨fun h => ⟨Bool.eq_false_iff.2 honce, h⟩, And.right⟩
  · rintro ⟨name, _, h₁, _, h₂, v, _, h₃, hnew, hend, rfl⟩
    exact ⟨(name, v), _, .mk h₁ h₂ h₃, hnew, hend, rfl⟩
  · rintro ⟨⟨name, v⟩, _, ⟨h₁, h₂, h₃⟩, hnew, hend, rfl⟩
    exact ⟨name, _, h₁, _, h₂, v, _, h₃, hnew, hend, rfl⟩

/-- The loop goes on behind each field. -/
def FieldStep (acc : List (String × Value)) : Phrase (List (String × Value) × Bool) := fun Γ p r q =>
  ∃ fields p₁, NewField acc Γ p fields p₁ ∧ r = (fields, true) ∧ q = p₁

theorem Loop.fields {Γ : Env} {p q : Point} {acc acc' : List (String × Value)}
    (h : Loop moreFields FieldStep Γ p acc acc' q) (hacc : (acc.map (·.1)).Nodup) :
    ∃ fields, acc' = fields.reverse ++ acc ∧ CommaList (FieldAt Γ) p fields q ∧
      (acc'.map (·.1)).Nodup := by
  induction h with
  | stop _ => exact ⟨[], rfl, .nil, hacc⟩
  | last _ hlast =>
    obtain ⟨_, _, -, heq, -⟩ := hlast
    cases heq
  | go _ hhere hrest ih =>
    obtain ⟨_, _, ⟨f, p₁, hf, hnew, hend, rfl⟩, heq, rfl⟩ := hhere
    cases heq
    obtain ⟨fields, rfl, hfields, hnodup⟩ := ih (nodup_map_cons.2 ⟨hnew, hacc⟩)
    refine ⟨f :: fields, by simp, ?_, hnodup⟩
    rcases hend with hcomma | ⟨hbrace, rfl⟩
    · exact .cons hf hcomma hfields
    · -- without a comma this was the last field
      obtain ⟨hacc', rfl⟩ := hrest.stopped (by rw [hbrace]; rfl)
      obtain rfl : fields = [] := by simpa using hacc'
      exact .last hf

theorem loop_of_fields {Γ : Env} {p q : Point} {fields acc : List (String × Value)}
    (h : CommaList (FieldAt Γ) p fields q) (hq : q.head = .rbrace)
    (hnodup : ((fields.reverse ++ acc).map (·.1)).Nodup) :
    Loop moreFields FieldStep Γ p acc (fields.reverse ++ acc) q := by
  have hmore : ∀ {p q f}, FieldAt Γ p f q → moreFields p.head = true := by
    rintro p q f ⟨h, -, -⟩
    rw [h.head]
    rfl
  have hstop : moreFields q.head = false := by rw [hq]; rfl
  induction h generalizing acc with
  | nil => exact .stop hstop
  | @last p q f hf =>
    have hnew := (nodup_map_cons.1 hnodup).1
    exact .go (hmore hf) ⟨_, _, ⟨f, q, hf, hnew, .inr ⟨hq, rfl⟩, rfl⟩, rfl, rfl⟩ (.stop hstop)
  | @cons p p₁ p₂ q f fields hf hcomma _ ih =>
    rw [List.reverse_cons, List.append_assoc, List.singleton_append] at hnodup ⊢
    have hnew := hnodup.sublist ((List.sublist_append_right fields.reverse (f :: acc)).map (·.1))
    exact .go (hmore hf) ⟨_, _, ⟨f, p₁, hf, (nodup_map_cons.1 hnew).1, .inl hcomma, rfl⟩, rfl, rfl⟩
      (ih hq hnodup hstop)

/-- The fields of a closure, in reverse, up to the closing brace. -/
theorem recognizes_fields (closure : String) : Recognizes False Anywhere (· = .rbrace)
    (iterate moreFields (fieldStep closure) []) fun Γ p acc q =>
      CommaList (FieldAt Γ) p acc.reverse q ∧ (acc.map (·.1)).Nodup := by
  have hstep : ∀ acc, Recognizes True Anywhere Anything (fieldStep closure acc) (FieldStep acc) :=
    fun acc => (recognizes_closureField closure acc).andThen fun fields => recognizes_pure (fields, true)
  refine Recognizes.restate (recognizes_iterate (fun acc => (hstep acc).mono id And.left id) [])
    (fun _ h => ?_) fun {Γ p acc q} _ h hq => ⟨?_, trivial⟩
  · obtain ⟨fields, rfl, hfields, hnodup⟩ := h.fields List.nodup_nil
    rw [List.append_nil] at hnodup ⊢
    exact ⟨by rwa [List.reverse_reverse], hnodup⟩
  · have hnodup : ((acc.reverse.reverse ++ []).map Prod.fst).Nodup := by simpa using h.2
    simpa using loop_of_fields h.1 hq hnodup

/-! ## Declarations -/

/-- What is declared, in the state of a reader. -/
def declared (s : ParseState) : Option Declaration → ParseState
  | some (.free v) => { s with scopes := (v.name, v) :: s.scopes }
  | some (.closure c) => { s with closures := (c.name, c) :: s.closures }
  | none => s

/-- What the declaration of a variable declares. -/
def freeDeclaration : Parser (Option Declaration) := do
  let _ ← expect .free
  let (name, span) ← expectIdent
  let _ ← expect .colon
  let ty ← ty
  if (← get).scopes.any (·.1 == name) then
    report { message := "free variable '" ++ name ++ "' declared twice", span }
    return none
  else
    let v ← draw (Variable.alloc name ty)
    return some (.free v)

/-- What the declaration of a closure declares. -/
def closureDeclaration : Parser (Option Declaration) := do
  let _ ← expect .closure
  let (name, span) ← expectIdent
  let _ ← expect .lbrace
  let fields ← iterate moreFields (fieldStep name) []
  let _ ← expect .rbrace
  if (← closure? name).isSome then
    report { message := "closure '" ++ name ++ "' declared twice"
             span
             help := some "closure names identify capture types and must be unique" }
    return none
  else
    let c ← draw (Closure.alloc name fields.reverse)
    return some (.closure c)

theorem freeDecl_eq_declare : freeDecl = freeDeclaration >>= fun d => modify (declared · d) := by
  unfold freeDecl freeDeclaration
  simp only [bind_assoc]
  refine bind_congr fun _ => bind_congr fun name => bind_congr fun _ => bind_congr fun t =>
    bind_congr fun s => ?_
  split <;> rfl

theorem closureDecl_eq_declare :
    closureDecl = closureDeclaration >>= fun d => modify (declared · d) := by
  unfold closureDecl closureDeclaration
  simp only [bind_assoc]
  refine bind_congr fun _ => bind_congr fun name => bind_congr fun _ => bind_congr fun fields =>
    bind_congr fun _ => bind_congr fun found => ?_
  split <;> rfl

theorem lookup_eq_none_iff_any {α : Type} {bindings : List (String × α)} {name : String} :
    bindings.lookup name = none ↔ bindings.any (·.1 == name) = false := by
  rw [List.lookup_eq_none_iff, List.any_eq_false]
  refine forall₂_congr fun b _ => ?_
  rw [bne_iff_ne, beq_iff_eq, ne_comm]

theorem recognizes_freeDeclaration : Recognizes True Anywhere Anything freeDeclaration fun Γ p a q =>
    ∃ v, a = some (.free v) ∧ DeclAt Γ p (.free v) q := by
  refine Recognizes.congr (recognizes_word fun _ => recognizes_ident fun name span =>
    recognizes_word fun _ =>
    recognizes_ty.andThen fun t => recognizes_scopes (M := False)
    (S := fun scopes _ p a q => scopes.lookup name = none ∧
      ∃ v p₁, Drawn (Variable.alloc name t) p v p₁ ∧ a = some (Declaration.free v) ∧ q = p₁)
      fun s => ?_) fun _ => ⟨?_, ?_⟩
  · simp only [lookup_eq_none_iff_any]
    split
    · next htwice =>
      refine Recognizes.congr (recognizes_report .refl) fun _ => ⟨False.elim, fun h => ?_⟩
      cases htwice.symm.trans h.1
    · next hnew =>
      exact Recognizes.congr (Recognizes.andThen
        (recognizes_draw fun supply => Nat.le_succ supply.next) fun v =>
        recognizes_pure (some (Declaration.free v))) fun _ =>
        ⟨fun h => ⟨Bool.eq_false_iff.2 hnew, h⟩, And.right⟩
  · rintro ⟨_, h₁, name, _, h₂, _, h₃, t, _, h₄, hnew, v, _, h₅, rfl, rfl⟩
    exact ⟨v, rfl, .free h₁ h₂ h₃ h₄ hnew h₅⟩
  · rintro ⟨v, rfl, h⟩
    cases h with
    | free h₁ h₂ h₃ h₄ hnew h₅ => exact ⟨_, h₁, _, _, h₂, _, h₃, _, _, h₄, hnew, v, _, h₅, rfl, rfl⟩

theorem recognizes_closureDeclaration :
    Recognizes True Anywhere Anything closureDeclaration fun Γ p a q =>
      ∃ c, a = some (.closure c) ∧ DeclAt Γ p (.closure c) q := by
  refine Recognizes.congr (recognizes_word fun _ => recognizes_ident fun name span =>
    recognizes_word fun _ =>
    (recognizes_fields name).bind (fun acc => recognizes_word fun _ => recognizes_closure? (M := False)
      (S := fun found _ p a q => found = none ∧ ∃ c p₁, Drawn (Closure.alloc name acc.reverse) p c p₁ ∧
        a = some (Declaration.closure c) ∧ q = p₁) fun found => ?_) ?_) fun _ => ⟨?_, ?_⟩
  · cases found with
    | some c =>
      exact Recognizes.congr (recognizes_report .refl) fun _ => ⟨False.elim, fun h => nomatch h.1⟩
    | none =>
      exact Recognizes.congr (Recognizes.andThen
        (recognizes_draw fun supply => Nat.le_succ supply.next) fun c =>
        recognizes_pure (some (Declaration.closure c))) fun _ => ⟨fun h => ⟨rfl, h⟩, And.right⟩
  · rintro _ _ _ _ _ ⟨_, h, -⟩ -
    exact h.head
  · rintro ⟨_, h₁, name, _, h₂, _, h₃, acc, _, ⟨h₄, hnodup⟩, _, h₅, hnew, c, _, h₆, rfl, rfl⟩
    refine ⟨c, rfl, .closure h₁ h₂ h₃ h₄ ?_ h₅ hnew h₆⟩
    rwa [List.map_reverse, List.nodup_reverse]
  · rintro ⟨c, rfl, h⟩
    cases h with
    | @closure _ _ _ _ _ _ name fields _ h₁ h₂ h₃ h₄ hnodup h₅ hnew h₆ =>
      refine ⟨_, h₁, name, _, h₂, _, h₃, fields.reverse, _, ⟨?_, ?_⟩, _, h₅, hnew, c, _, ?_, rfl, rfl⟩
      · rwa [List.reverse_reverse]
      · rwa [List.map_reverse, List.nodup_reverse]
      · rwa [List.reverse_reverse]

/-- What a declaration declares, with its keyword at hand. -/
def declaration : Parser (Option Declaration) := do
  if ← at? .closure then closureDeclaration else freeDeclaration

theorem decl_eq_declare : decl = declaration >>= fun d => modify (declared · d) := by
  unfold decl declaration
  rw [bind_assoc]
  refine bind_congr fun closing => ?_
  cases closing with
  | true => exact closureDecl_eq_declare
  | false => exact freeDecl_eq_declare

theorem recognizes_declaration : Recognizes True Anywhere Anything declaration fun Γ p a q =>
    ∃ d, a = some d ∧ DeclAt Γ p d q := by
  refine recognizes_at? fun closing => ?_
  cases closing with
  | true =>
    refine (recognizes_closureDeclaration.mono id And.left id).congr fun hC => ⟨?_, ?_⟩
    · rintro ⟨c, rfl, h⟩
      exact ⟨_, rfl, h⟩
    · rintro ⟨d, rfl, h⟩
      cases d with
      | closure c => exact ⟨c, rfl, h⟩
      | free v =>
        cases h with
        | free h => cases h.head.symm.trans (eq_of_beq hC.2)
  | false =>
    refine (recognizes_freeDeclaration.mono id And.left id).congr fun hC => ⟨?_, ?_⟩
    · rintro ⟨v, rfl, h⟩
      exact ⟨_, rfl, h⟩
    · rintro ⟨d, rfl, h⟩
      cases d with
      | free v => exact ⟨v, rfl, h⟩
      | closure c =>
        cases h with
        | closure h => exact absurd h.head (ne_of_beq_false hC.2)

section Declared

variable (s : ParseState)

theorem point_declared (d : Option Declaration) : (declared s d).point = s.point := by
  unfold declared
  split <;> rfl

theorem faults_declared (d : Option Declaration) : (declared s d).faults = s.faults := by
  unfold declared
  split <;> rfl

theorem tokens_declared (d : Option Declaration) : (declared s d).tokens = s.tokens := by
  unfold declared
  split <;> rfl

theorem env_declared (d : Declaration) : (declared s (some d)).env = s.env.declare d := by
  cases d <;> rfl

theorem decl_run : decl s = ((), declared (declaration s).2 (declaration s).1) := by
  rw [decl_eq_declare]
  rfl

end Declared

/-- The state behind a declaration, which is read and enacted. -/
def behindDecl (s : ParseState) : ParseState := declared (declaration s).2 (declaration s).1

theorem faults_le_behindDecl (s : ParseState) : s.faults.size ≤ (behindDecl s).faults.size := by
  rw [behindDecl, faults_declared]
  exact (recognizes_declaration.leads s).faults

theorem ends_behindDecl {s : ParseState} (hs : s.point.Ends) : (behindDecl s).point.Ends := by
  rw [behindDecl, point_declared]
  exact (recognizes_declaration.leads s).ends hs

theorem sound_behindDecl {s : ParseState} (hs : s.point.Ends)
    (hfaults : (behindDecl s).faults.size = s.faults.size) :
    (behindDecl s).tokens.length < s.tokens.length ∧ ∃ d, (declaration s).1 = some d ∧
      DeclAt s.env s.point d (behindDecl s).point ∧ (behindDecl s).env = s.env.declare d := by
  rw [behindDecl] at hfaults ⊢
  rw [faults_declared] at hfaults
  rw [tokens_declared, point_declared]
  refine ⟨recognizes_declaration.moves trivial s hs trivial hfaults, ?_⟩
  obtain ⟨d, hd, hdecl⟩ := recognizes_declaration.sound s hs trivial hfaults
  refine ⟨d, hd, hdecl, ?_⟩
  rw [hd, env_declared, (recognizes_declaration.leads s).env]

theorem declStep_run (acc : List Unit) (s : ParseState) :
    declStep acc s = ((() :: acc, true), behindDecl s) := by
  show (((decl s).1 :: acc, true), (decl s).2) = _
  rw [decl_run, behindDecl]

theorem faults_le_declStep (acc : List Unit) (s : ParseState) :
    s.faults.size ≤ (declStep acc s).2.faults.size := by
  rw [declStep_run]
  exact faults_le_behindDecl s

theorem ends_declStep (acc : List Unit) {s : ParseState} (hs : s.point.Ends) :
    (declStep acc s).2.point.Ends := by
  rw [declStep_run]
  exact ends_behindDecl hs

theorem sound_declStep (acc : List Unit) {s : ParseState} (hs : s.point.Ends)
    (hfaults : (declStep acc s).2.faults.size = s.faults.size) :
    (declStep acc s).2.tokens.length < s.tokens.length ∧
      ∃ d, DeclAt s.env s.point d (declStep acc s).2.point ∧
        (declStep acc s).2.env = s.env.declare d := by
  rw [declStep_run] at hfaults ⊢
  obtain ⟨hlt, d, -, hd⟩ := sound_behindDecl hs hfaults
  exact ⟨hlt, d, hd⟩

theorem complete_declStep (acc : List Unit) {s : ParseState} {d : Declaration} {q : Point}
    (hs : s.point.Ends)
    (hd : DeclAt s.env s.point d q) : ∃ s', declStep acc s = ((() :: acc, true), s') ∧
      s'.env = s.env.declare d ∧ s'.point = q ∧ s'.faults = s.faults := by
  obtain ⟨s', hrun, hpoint, hfaults⟩ :=
    recognizes_declaration.complete s (some d) q hs trivial ⟨d, rfl, hd⟩ trivial
  have hleads := recognizes_declaration.leads s
  rw [hrun] at hleads
  refine ⟨declared s' (some d), ?_, ?_, ?_, ?_⟩
  · rw [declStep_run, behindDecl, hrun]
  · rw [env_declared, hleads.env]
  · rw [point_declared, hpoint]
  · rw [faults_declared, hfaults]

theorem moreDecls_of_declAt {Γ : Env} {p q : Point} {d : Declaration} (h : DeclAt Γ p d q) :
    moreDecls p.head = true := by
  cases h with
  | free h | closure h =>
    rw [h.head]
    rfl

theorem faults_le_decls (acc : List Unit) (s : ParseState) :
    s.faults.size ≤ (iterate moreDecls declStep acc s).2.faults.size :=
  iterate_invariant (I := fun _ s' => s.faults.size ≤ s'.faults.size)
    (fun acc s' h => Nat.le_trans h (faults_le_declStep acc s')) acc s (Nat.le_refl _)

theorem declsAt_of_iterate (acc : List Unit) (s : ParseState) (hs : s.point.Ends)
    (hfaults : (iterate moreDecls declStep acc s).2.faults.size = s.faults.size) :
    DeclsAt s.env s.point (iterate moreDecls declStep acc s).2.env
      (iterate moreDecls declStep acc s).2.point := by
  -- along the run: a step that reports nothing takes a word, so that the loop goes on behind it
  fun_induction iterate moreDecls declStep acc s with
  | case1 acc s hmore r hgo hshorter ih =>
    have hle : s.faults.size ≤ r.2.faults.size := faults_le_declStep acc s
    have hle' := faults_le_decls r.1.1 r.2
    have hfirst : r.2.faults.size = s.faults.size := by omega
    obtain ⟨-, d, hd, henv⟩ := sound_declStep acc hs hfirst
    have hrest := ih (ends_declStep acc hs) (hfaults.trans hfirst.symm)
    rw [show r.2.env = _ from henv] at hrest
    exact .cons hd hrest
  | case2 acc s hmore r hgo hstuck => exact absurd (sound_declStep acc hs hfaults).1 hstuck
  | case3 acc s hmore r hend => exact absurd (congrArg (·.1.2) (declStep_run acc s)) hend
  | case4 acc s hmore => exact .nil

theorem iterate_of_declsAt {Γ Δ : Env} {p q : Point} (h : DeclsAt Γ p Δ q)
    (hq : moreDecls q.head = false)
    (acc : List Unit) {s : ParseState} (hs : s.point.Ends) (hΓ : s.env = Γ) (hp : s.point = p) :
    ∃ acc' s', iterate moreDecls declStep acc s = (acc', s') ∧ s'.env = Δ ∧ s'.point = q ∧
      s'.faults = s.faults := by
  induction h generalizing acc s with
  | nil =>
    rw [← hp, s.head_point] at hq
    refine ⟨acc, s, ?_, hΓ, hp, rfl⟩
    rw [iterate, hq, if_neg Bool.false_ne_true]
  | cons hd _ ih =>
    subst hp hΓ
    obtain ⟨s₁, hrun, henv, hpoint, hfaults⟩ := complete_declStep acc hs hd
    have hmore := moreDecls_of_declAt hd
    have hends := ends_declStep acc hs
    have hshorter := sound_declStep acc hs
    rw [hrun] at hends hshorter
    obtain ⟨acc', s', hrun', henv', hpoint', hfaults'⟩ := ih hq (() :: acc) hends henv hpoint
    refine ⟨acc', s', ?_, henv', hpoint', hfaults'.trans hfaults⟩
    rw [iterate, if_pos (s.head_point ▸ hmore), hrun]
    simp only [reduceIte, if_pos (hshorter (congrArg Array.size hfaults)).1, hrun']

/-! ## Sources -/

theorem recognizes_lastExpr : Recognizes True Anywhere Anything lastExpr fun Γ p e q =>
    ExprAt depth Γ p e q ∧ q.head = .eof := by
  refine Recognizes.congr ((readsExpr maxNesting).recognizes.andThen fun e => recognizes_at? (M := False)
    (R := fun _ p a q => p.head = .eof ∧ a = e ∧ q = p) fun ended => ?_) fun _ => ⟨?_, ?_⟩
  · cases ended with
    | true => exact Recognizes.congr (recognizes_pure e) fun hC =>
        ⟨fun h => ⟨eq_of_beq hC.2, h⟩, And.right⟩
    | false =>
      exact Recognizes.congr (recognizes_peek fun l => recognizes_reportHere .refl) fun hC =>
        ⟨False.elim, fun h => ne_of_beq_false hC.2 h.1⟩
  · rintro ⟨e, _, he, hend, rfl, rfl⟩
    exact ⟨he, hend⟩
  · rintro ⟨he, hend⟩
    exact ⟨_, _, he, hend, rfl, rfl⟩

theorem ends_iterate (acc : List Unit) {s : ParseState} (hs : s.point.Ends) :
    (iterate moreDecls declStep acc s).2.point.Ends :=
  iterate_invariant (I := fun _ s' => s'.point.Ends) (fun acc _ h => ends_declStep acc h) acc s hs

theorem moreDecls_of_exprAt {levels : Nat} {Γ : Env} {p q : Point} {e : Expr}
    (h : ExprAt levels Γ p e q) :
    moreDecls p.head = false := by
  have hstarts := (readsExpr levels).starts h
  have hclosure : p.head ≠ .closure := hstarts.ne nofun nofun nofun
  have hfree : p.head ≠ .free := hstarts.ne nofun nofun nofun
  rw [moreDecls, beq_eq_false_iff_ne.2 hclosure, beq_eq_false_iff_ne.2 hfree]
  rfl

/-- A source is read without a report exactly if the grammar has it. -/
theorem file_iff_fileAt {s : ParseState} (hs : s.point.Ends) (hscopes : s.scopes = [])
    (hclosures : s.closures = [])
    {e : Expr} {supply' : Supply} :
    (∃ s', file s = (e, s') ∧ s'.faults.size = s.faults.size ∧ s'.supply = supply') ↔
      FileAt s.point e supply' := by
  have henv : s.env = {} := by rw [ParseState.env, hscopes, hclosures]
  rw [file_run]
  constructor
  · rintro ⟨s', hrun, hfaults, rfl⟩
    have hle := faults_le_decls [] s
    have hleads := recognizes_lastExpr.leads (iterate moreDecls declStep [] s).2
    rw [hrun] at hleads
    have hle' : _ ≤ s'.faults.size := hleads.faults
    have hdecls := declsAt_of_iterate [] s hs (by omega)
    have hends := ends_iterate [] hs
    have hends' := hleads.ends hends
    have hlast := recognizes_lastExpr.sound _ hends trivial
    rw [hrun] at hlast
    obtain ⟨he, hend⟩ := hlast (show s'.faults.size = _ by omega)
    rw [henv] at hdecls
    refine .mk hdecls ?_
    rwa [← hends'.ahead_eq hend]
  · rintro ⟨hdecls, he⟩
    obtain ⟨acc, s₁, hrun, rfl, rfl, hfaults⟩ := iterate_of_declsAt hdecls
      (moreDecls_of_exprAt he) [] hs henv rfl
    have hends := ends_iterate [] hs
    rw [hrun] at hends ⊢
    obtain ⟨s', hrun', hpoint, hfaults'⟩ := recognizes_lastExpr.complete s₁ e _ hends trivial
      ⟨he, rfl⟩ trivial
    exact ⟨s', hrun', by rw [hfaults', hfaults], congrArg Point.supply hpoint⟩

end Parser

/-- A list of tokens that ends in its only end of file is accepted exactly if it is a source of the grammar,
and then with the tree and the supply that the grammar gives. Any other is rejected with a report. -/
theorem parseTokens_decides_fileAt {tokens : List Token} {ls : List Lexeme}
    (htokens : tokens.map (·.lexeme) = ls ++ [.eof]) (heof : .eof ∉ ls) (supply : Supply) :
    (∀ e supply', parseTokens tokens supply = .ok (e, supply') ↔
      FileAt ⟨tokens.map (·.lexeme), supply⟩ e supply') ∧
    ((¬∃ e supply', FileAt ⟨tokens.map (·.lexeme), supply⟩ e supply') →
      ∃ d ds, parseTokens tokens supply = .error (d :: ds)) := by
  have hiff : ∀ {e supply'}, _ ↔ FileAt ⟨tokens.map (·.lexeme), supply⟩ e supply' :=
    Parser.file_iff_fileAt (s := { tokens, supply }) ⟨ls, htokens, heof⟩ rfl rfl
  have hparse : parseTokens tokens supply = if (Parser.file { tokens, supply }).2.faults.isEmpty
      then .ok ((Parser.file { tokens, supply }).1, (Parser.file { tokens, supply }).2.supply)
      else .error (Parser.file { tokens, supply }).2.faults.toList := rfl
  generalize Parser.file { tokens, supply } = r at hiff hparse
  obtain ⟨e₁, s⟩ := r
  have hempty : s.faults.isEmpty = true ↔ s.faults.size = 0 := by simp
  constructor
  · intro e supply'
    rw [hparse, ← hiff]
    constructor
    · intro h
      split at h
      · next hnone =>
        cases h
        exact ⟨s, rfl, hempty.1 hnone, rfl⟩
      · cases h
    · rintro ⟨_, ⟨⟩, hnone, rfl⟩
      rw [if_pos (hempty.2 hnone)]
  · intro hother
    have hsome : ¬s.faults.isEmpty = true := fun hnone =>
      hother ⟨e₁, s.supply, hiff.1 ⟨s, rfl, hempty.1 hnone, rfl⟩⟩
    rw [hparse, if_neg hsome]
    cases hfaults : s.faults.toList with
    | nil => simp_all
    | cons d ds => exact ⟨d, ds, rfl⟩

/-- A closure with a comma behind its only field, and the identity function. -/
def identityWords : List Lexeme :=
  [.closure, .ident "E", .lbrace, .ident "k", .equals, .integer 1, .comma, .rbrace,
    .lparen, .ident "lambda", .lparen, .lparen, .ident "x", .ident "Int", .rparen, .rparen, .ident "x",
    .rparen, .eof]

/-- The tree of `identityWords`. -/
def identityTree : Expr := .mk 3 (.lambdaOf [⟨1, "x", .int⟩] (.mk 2 (.variable ⟨1, "x", .int⟩)))

theorem parseTokens_decides_fileAt_on_identity :
    FileAt ⟨identityWords, {}⟩ identityTree ⟨4⟩ ∧
      parseTokens (identityWords.map fun l => ⟨l, ⟨0, 0⟩⟩) {} = .ok (identityTree, ⟨4⟩) := by
  have hdecl : DeclAt {} ⟨identityWords, {}⟩ (.closure ⟨0, "E", [("k", .int 1)]⟩)
      ⟨identityWords.drop 8, ⟨1⟩⟩ :=
    .closure (.mk _ _) (.mk _ _) (.mk _ _)
      (.cons (.mk (.mk _ _) (.mk _ _) (.literal (.integer 1) (.mk _ _))) (.mk _ _) .nil) (by decide)
      (.mk _ _) rfl (.mk _ _)
  have hlambda : NodeAt (ExprAt 255) (({} : Env).declare (.closure ⟨0, "E", [("k", .int 1)]⟩))
      ⟨identityWords.drop 8, ⟨1⟩⟩ identityTree.node ⟨[.eof], ⟨3⟩⟩ :=
    .form (.mk _ _) (.plain (.lambda (.mk _ _) (.mk _ _) (.cons (.mk (.mk _ _) (.mk _ _)
      (.builtin rfl (.mk _ _)) (.mk _ _) (.mk _ _)) .nil) (by decide) (.mk _ _)
      ⟨_, _, .var rfl (.mk _ _), .mk _ _⟩)) (.mk _ _)
  have hfile : FileAt ⟨identityWords, {}⟩ identityTree ⟨4⟩ :=
    .mk (.cons hdecl .nil) ⟨_, _, hlambda, .mk _ _⟩
  have heof : Lexeme.eof ∉ identityWords.dropLast := by decide
  exact ⟨hfile, ((parseTokens_decides_fileAt rfl heof {}).1 _ _).2 hfile⟩

end ExprTree
