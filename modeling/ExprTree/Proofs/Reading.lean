import ExprTree.Proofs.ReaderParts
import ExprTree.Proofs.Variables

/-!
# What a reader makes of a source

Readers draw labels and variables from one supply and put together trees from trees read before.
What they leave behind is described by the heap of all nodes made so far: `Parser.Fit` says that the
state of a reader agrees with a heap, and `Parser.Reads` that a reader started in such a state ends
in one, in a heap that has grown, with a result that satisfies a condition. Most readers do not
touch the supply or the scopes at all (`Parser.Quiet`).

For an accepted source this gives that its tree is coherent, that its free variables are the ones
that the source declares, and that closures hold no others (`grounded_of_parseTree`).
-/

namespace ExprTree

namespace Parser

variable {α β : Type}

/-! ## Loops -/

/-- What every step of a loop keeps, the loop keeps. -/
theorem iterate_invariant {I : β → ParseState → Prop} {more : Lexeme → Bool}
    {step : β → Parser (β × Bool)} (hstep : ∀ b s, I b s → I (step b s).1.1 (step b s).2)
    (b : β) (s : ParseState) (h : I b s) :
    I (iterate more step b s).1 (iterate more step b s).2 := by
  fun_induction iterate more step b s with
  | case1 b s _ r _ _ ih => exact ih (hstep b s h)
  | case2 b s _ r _ _ => exact hstep b s h
  | case3 b s _ r _ => exact hstep b s h
  | case4 b s _ => exact h

/-! ## Readers that leave scopes, closures and supply alone -/

/-- The reader changes the tokens and the reports at most. -/
def Quiet (x : Parser α) : Prop := ∀ s, (x s).2.scopes = s.scopes ∧
  (x s).2.closures = s.closures ∧ (x s).2.supply = s.supply

theorem quiet_pure (a : α) : Quiet (pure a : Parser α) := fun _ => ⟨rfl, rfl, rfl⟩

theorem Quiet.bind {x : Parser α} {f : α → Parser β} (hx : Quiet x) (hf : ∀ a, Quiet (f a)) :
    Quiet (x >>= f) := by
  intro s
  obtain ⟨hscopes, hclosures, hsupply⟩ := hx s
  obtain ⟨hscopes', hclosures', hsupply'⟩ := hf (x s).1 (x s).2
  exact ⟨hscopes'.trans hscopes, hclosures'.trans hclosures, hsupply'.trans hsupply⟩

theorem quiet_get : Quiet (get : Parser ParseState) := fun _ => ⟨rfl, rfl, rfl⟩

theorem quiet_peek : Quiet peek := fun _ => ⟨rfl, rfl, rfl⟩

theorem quiet_peekSpan : Quiet peekSpan := fun _ => ⟨rfl, rfl, rfl⟩

theorem quiet_at? (l : Lexeme) : Quiet (at? l) := fun _ => ⟨rfl, rfl, rfl⟩

theorem quiet_report (d : Diagnostic) : Quiet (report d) := fun _ => ⟨rfl, rfl, rfl⟩

theorem quiet_reportHere (message : String) (help : Option String) :
    Quiet (reportHere message help) := fun _ => ⟨rfl, rfl, rfl⟩

theorem quiet_closure? (name : String) : Quiet (closure? name) := fun _ => ⟨rfl, rfl, rfl⟩

theorem quiet_advance : Quiet advance := by
  intro s
  show s.next.scopes = s.scopes ∧ s.next.closures = s.closures ∧ s.next.supply = s.supply
  unfold ParseState.next
  split <;> exact ⟨rfl, rfl, rfl⟩

theorem quiet_eat (l : Lexeme) : Quiet (eat l) := by
  refine (quiet_at? l).bind fun here => ?_
  split
  · exact quiet_advance.bind fun _ => quiet_pure _
  · exact quiet_pure _

theorem quiet_expect (l : Lexeme) : Quiet (expect l) := by
  refine quiet_peekSpan.bind fun span => (quiet_at? l).bind fun here => ?_
  split
  · exact quiet_advance.bind fun _ => quiet_pure _
  · exact quiet_peek.bind fun _ => (quiet_reportHere _ _).bind fun _ => quiet_pure _

theorem quiet_expectIdent : Quiet expectIdent := by
  refine quiet_peekSpan.bind fun span => quiet_peek.bind fun l => ?_
  split
  · exact quiet_advance.bind fun _ => quiet_pure _
  · exact (quiet_reportHere _ _).bind fun _ => quiet_pure _

theorem Quiet.iterate {more : Lexeme → Bool} {step : β → Parser (β × Bool)}
    (hstep : ∀ b, Quiet (step b)) (b : β) : Quiet (iterate more step b) := by
  intro s
  refine iterate_invariant (I := fun _ s' => s'.scopes = s.scopes ∧ s'.closures = s.closures ∧
    s'.supply = s.supply) ?_ b s ⟨rfl, rfl, rfl⟩
  rintro b s' ⟨hscopes, hclosures, hsupply⟩
  obtain ⟨hscopes', hclosures', hsupply'⟩ := hstep b s'
  exact ⟨hscopes'.trans hscopes, hclosures'.trans hclosures, hsupply'.trans hsupply⟩

theorem Quiet.manyForms {item : Parser α} (hitem : Quiet item) : Quiet (manyForms item) :=
  (Quiet.iterate (fun _ => hitem.bind fun _ => quiet_pure _) []).bind fun _ => quiet_pure _

theorem quiet_skipToClose : Quiet skipToClose := by
  refine (Quiet.iterate (fun depth => ?_) 0).bind fun _ => quiet_pure _
  refine quiet_peek.bind fun l => ?_
  split
  · exact quiet_advance.bind fun _ => quiet_pure _
  · split
    · exact quiet_pure _
    · exact quiet_advance.bind fun _ => quiet_pure _
  · exact quiet_advance.bind fun _ => quiet_pure _

theorem quiet_skipForm : Quiet skipForm := by
  refine (quiet_eat .lparen).bind fun opened => ?_
  split
  · exact quiet_skipToClose.bind fun _ => (quiet_eat _).bind fun _ => quiet_pure _
  · refine quiet_peek.bind fun l => ?_
    split
    · exact quiet_advance
    · exact quiet_pure _

theorem quiet_path : Quiet path :=
  quiet_expectIdent.bind fun _ => (quiet_expect _).bind fun _ => quiet_expectIdent.bind fun _ =>
    quiet_pure _

theorem quiet_tyParams {item : Parser Ty} (hitem : Quiet item) : Quiet (tyParams item) :=
  (Quiet.iterate (fun _ => hitem.bind fun _ => (quiet_eat _).bind fun _ => quiet_pure _) []).bind
    fun _ => quiet_pure _

theorem quiet_tyNested (nesting : Nat) : Quiet (tyNested nesting) := by
  induction nesting with
  | zero => exact quiet_pure _
  | succ nesting ih =>
    refine quiet_peek.bind fun l => ?_
    split
    · exact quiet_advance.bind fun _ => ih.bind fun _ => (quiet_expect _).bind fun _ => quiet_pure _
    · refine quiet_advance.bind fun _ => ?_
      split
      · exact quiet_pure _
      · refine (quiet_at? _).bind fun here => ?_
        split
        · exact quiet_advance.bind fun _ => (quiet_tyParams ih).bind fun _ =>
            (quiet_expect _).bind fun _ => (quiet_expect _).bind fun _ => ih.bind fun _ =>
              quiet_pure _
        · refine (quiet_at? _).bind fun here => ?_
          split
          · exact quiet_advance.bind fun _ => ih.bind fun _ => (quiet_expect _).bind fun _ =>
              quiet_pure _
          · exact quiet_pure _
    · refine (quiet_reportHere _ _).bind fun _ => ?_
      simp only
      split
      · exact quiet_advance.bind fun _ => quiet_pure _
      · exact quiet_pure _

theorem quiet_ty : Quiet ty := quiet_get.bind fun _ => quiet_tyNested _

theorem quiet_memberTail (kind : MemberKind) : Quiet (memberTail kind) :=
  quiet_path.bind fun _ => quiet_ty.bind fun _ => (quiet_closure? _).bind fun _ => quiet_pure _

theorem quiet_memberRef : Quiet memberRef := by
  refine (quiet_expect _).bind fun _ => quiet_expectIdent.bind fun found => ?_
  have hrest (kind : MemberKind) : Quiet (do
      let member ← memberTail kind
      let _ ← expect .rparen
      return member) :=
    (quiet_memberTail kind).bind fun _ => (quiet_expect _).bind fun _ => quiet_pure _
  simp only
  split
  · exact (quiet_pure _).bind hrest
  · exact (quiet_pure _).bind hrest
  · exact (quiet_report _).bind fun _ => (quiet_pure _).bind hrest

/-! ## Trees and states over a heap -/

/-- The tree is held by the heap, sealed, and its free variables are among `bound`. -/
structure Good (top bound : List Variable) (w : Heap) (e : Expr) : Prop where
  held : w.Holds e
  seals : e.Everywhere (Sealed top w.next)
  bound : ∀ v ∈ e.freeVars, v ∈ bound

theorem Good.mono {top bound : List Variable} {w w' : Heap} {e : Expr} (h : Good top bound w e)
    (hle : w ≤ w') : Good top bound w' e where
  held := h.held.mono hle
  seals := h.seals.imp fun _ ha => ha.mono hle.next_le
  bound := h.bound

/-- All trees of a list are good. -/
def GoodAll (top bound : List Variable) (w : Heap) (es : List Expr) : Prop :=
  ∀ e ∈ es, Good top bound w e

theorem goodAll_nil {top bound : List Variable} {w : Heap} : GoodAll top bound w [] := by
  simp [GoodAll]

theorem GoodAll.cons {top bound : List Variable} {w : Heap} {e : Expr} {es : List Expr}
    (he : Good top bound w e) (hes : GoodAll top bound w es) : GoodAll top bound w (e :: es) := by
  intro a ha
  rcases List.mem_cons.1 ha with rfl | ha
  · exact he
  · exact hes a ha

theorem GoodAll.append {top bound : List Variable} {w : Heap} {as bs : List Expr}
    (has : GoodAll top bound w as) (hbs : GoodAll top bound w bs) :
    GoodAll top bound w (as ++ bs) :=
  fun a ha => (List.mem_append.1 ha).elim (has a) (hbs a)

theorem GoodAll.mono {top bound : List Variable} {w w' : Heap} {es : List Expr}
    (h : GoodAll top bound w es) (hle : w ≤ w') : GoodAll top bound w' es :=
  fun e he => (h e he).mono hle

/-- The trees of a value are good; in a closure they have top-level variables only. -/
structure GoodValue (top bound : List Variable) (w : Heap) (v : Value) : Prop where
  quoted : ∀ t, v = .tree t → Good top bound w t
  captured : ∀ c, v = .closure c → ∀ t ∈ c.trees, Good top top w t

theorem GoodValue.mono {top bound : List Variable} {w w' : Heap} {v : Value}
    (h : GoodValue top bound w v) (hle : w ≤ w') : GoodValue top bound w' v where
  quoted t ht := (h.quoted t ht).mono hle
  captured c hc t ht := (h.captured c hc t ht).mono hle

theorem GoodValue.of_no_trees {top bound : List Variable} {w : Heap} {v : Value}
    (htree : ∀ t, v ≠ .tree t) (hclosure : ∀ c, v ≠ .closure c) : GoodValue top bound w v where
  quoted t ht := absurd ht (htree t)
  captured c hc := absurd hc (hclosure c)

/-- The trees of a good value over the top level are good. -/
theorem GoodValue.good_of_mem_trees {top : List Variable} {w : Heap} {v : Value} {t : Expr}
    (h : GoodValue top top w v) (ht : t ∈ v.trees) : Good top top w t := by
  cases v with
  | tree u =>
    obtain rfl : t = u := by simpa using ht
    exact h.quoted t rfl
  | closure c =>
    rw [Value.trees_closure] at ht
    exact h.captured c rfl t ht
  | _ => simp [Value.trees] at ht

/-- A node that can be given the next label. -/
structure Ready (top bound : List Variable) (w : Heap) (n : Node) : Prop where
  parts : ∀ c ∈ n.children ++ n.payload, w.Holds c ∧ c.Everywhere (Sealed top w.next)
  seals : Sealed top w.next (.mk w.next n)
  bound : ∀ v ∈ (Expr.mk w.next n).freeVars, v ∈ bound

/-- A node that binds nothing, refers to nothing and carries nothing is ready if its children are
good. -/
theorem Ready.of_children {top bound : List Variable} {w : Heap} {n : Node} (hown : n.own = [])
    (hparams : n.params = []) (hpayload : n.payload = [])
    (h : GoodAll top bound w n.children) : Ready top bound w n := by
  have hquoted : n.quoted = [] :=
    List.eq_nil_iff_forall_not_mem.2 fun t ht => by
      simpa [hpayload] using Node.mem_payload.2 (.inl ht)
  have hcaptured : n.captured = [] :=
    List.eq_nil_iff_forall_not_mem.2 fun t ht => by
      simpa [hpayload] using Node.mem_payload.2 (.inr ht)
  refine ⟨?_, ⟨?_, ?_, ?_, ?_⟩, ?_⟩
  · rw [hpayload, List.append_nil]
    exact fun c hc => ⟨(h c hc).held, (h c hc).seals⟩
  · simp [hown]
  · simp [hparams]
  · simp [hparams]
  · simp [hcaptured]
  · intro v hv
    rcases Expr.mem_freeVars.1 hv with hv | ⟨-, c, hc, hv⟩
    · simp [hown] at hv
    · rw [Expr.node_mk, hquoted, List.append_nil] at hc
      exact (h c hc).bound v hv

theorem Ready.constant {top bound : List Variable} {w : Heap} {v : Value}
    (h : GoodValue top bound w v) (ty : Ty) : Ready top bound w (.constant v ty) := by
  refine ⟨?_, ⟨by simp [Node.own], by simp [Node.params], by simp [Node.params], ?_⟩, ?_⟩
  · intro c hc
    rcases List.mem_append.1 hc with hc | hc
    · cases hc
    · rcases Node.mem_payload.1 hc with hc | hc
      · obtain ⟨_, hnode⟩ := Node.mem_quoted.1 hc
        cases hnode
        exact ⟨(h.quoted c rfl).held, (h.quoted c rfl).seals⟩
      · cases v with
        | closure closure => exact ⟨(h.captured _ rfl c hc).held, (h.captured _ rfl c hc).seals⟩
        | _ => cases hc
  · intro t ht
    cases v with
    | closure closure => exact (h.captured _ rfl t ht).bound
    | _ => cases ht
  · intro u hu
    rcases Expr.mem_freeVars.1 hu with hown | ⟨-, c, hc, hfree⟩
    · cases hown
    · rcases List.mem_append.1 hc with hc | hc
      · cases hc
      · obtain ⟨_, hnode⟩ := Node.mem_quoted.1 hc
        cases hnode
        exact (h.quoted c rfl).bound u hfree

theorem ready_placeholder {top bound : List Variable} {w : Heap} : Ready top bound w placeholder :=
  .constant (.of_no_trees (by simp) (by simp)) _

theorem Ready.variable {top bound : List Variable} {w : Heap} {v : Variable} (hv : v ∈ bound)
    (hlt : v.id < w.next) : Ready top bound w (.variable v) := by
  refine ⟨by simp [Node.children, Node.payload], ⟨?_, by simp [Node.params], by simp [Node.params],
    by simp [Node.captured]⟩, ?_⟩
  · simpa [Node.own] using hlt
  · intro u hu
    rcases Expr.mem_freeVars.1 hu with hu | ⟨-, c, hc, -⟩
    · obtain rfl : u = v := by simpa [Node.own] using hu
      exact hv
    · simp [Expr.children, Node.children, Node.quoted] at hc

theorem Ready.lambda {top bound : List Variable} {w : Heap} {params : List Variable} {body : Expr}
    (hbody : Good top (params ++ bound) w body) (hlt : ∀ p ∈ params, p.id < w.next)
    (hinner : ∀ p ∈ params, p ∉ top) (ty : Ty) : Ready top bound w (.lambda params body ty) := by
  refine ⟨?_, ⟨by simp [Node.own], hlt, hinner, by simp [Node.captured]⟩, ?_⟩
  · intro c hc
    obtain rfl : c = body := by simpa [Node.children, Node.payload] using hc
    exact ⟨hbody.held, hbody.seals⟩
  · intro v hv
    rcases Expr.mem_freeVars.1 hv with hown | ⟨hparams, c, hc, hfree⟩
    · cases hown
    · obtain rfl : c = body := by simpa [Expr.children, Node.children, Node.quoted] using hc
      exact (List.mem_append.1 (hbody.bound v hfree)).resolve_left hparams

/-- A ready node with the next label is good. -/
theorem Ready.good {top bound : List Variable} {w : Heap} {n : Node} (h : Ready top bound w n) :
    Good top bound (w.push n) (.mk w.next n) where
  held := Heap.holds_push fun c hc => (h.parts c hc).1
  seals := Expr.everywhere_iff.2 ⟨h.seals.mono (Nat.le_succ _), fun c hc =>
    (h.parts c hc).2.imp fun _ ha => ha.mono (Nat.le_succ _)⟩
  bound := h.bound

/-- The variables of the scopes. -/
def vars (scopes : List (String × Variable)) : List Variable := scopes.map (·.2)

/-- The state of a reader inside the given scopes agrees with a heap. -/
structure Fit (top : List Variable) (scopes : List (String × Variable)) (w : Heap)
    (s : ParseState) : Prop where
  scopes_eq : s.scopes = scopes
  supply_eq : s.supply.next = w.next
  closures : ∀ c ∈ s.closures, ∀ t ∈ c.2.trees, Good top top w t
  scopes_lt : ∀ p ∈ scopes, p.2.id < w.next
  top_lt : ∀ v ∈ top, v.id < w.next

/-- Started in a state that fits the heap, the reader ends in one that fits a grown heap, with a
result that satisfies `Q` there. -/
def Reads (top : List Variable) (scopes : List (String × Variable)) (w : Heap) (x : Parser α)
    (Q : Heap → α → Prop) : Prop :=
  ∀ s, Fit top scopes w s → ∃ w', w ≤ w' ∧ Fit top scopes w' (x s).2 ∧ Q w' (x s).1

section Rules

variable {top : List Variable} {scopes : List (String × Variable)} {w : Heap}

theorem Reads.pure {a : α} {Q : Heap → α → Prop} (h : Q w a) :
    Reads top scopes w (pure a) Q :=
  fun _ hs => ⟨w, w.le_refl, hs, h⟩

theorem Reads.bind {x : Parser α} {f : α → Parser β} {Q : Heap → α → Prop} {R : Heap → β → Prop}
    (hx : Reads top scopes w x Q)
    (hf : ∀ a w', w ≤ w' → Q w' a → Reads top scopes w' (f a) R) :
    Reads top scopes w (x >>= f) R := by
  intro s hs
  obtain ⟨w₁, hle₁, hs₁, ha⟩ := hx s hs
  obtain ⟨w₂, hle₂, hs₂, hb⟩ := hf (x s).1 w₁ hle₁ ha (x s).2 hs₁
  exact ⟨w₂, Heap.le_trans hle₁ hle₂, hs₂, hb⟩

theorem Reads.imp {x : Parser α} {Q R : Heap → α → Prop} (hx : Reads top scopes w x Q)
    (himp : ∀ w a, Q w a → R w a) : Reads top scopes w x R := by
  intro s hs
  obtain ⟨w₁, hle₁, hs₁, ha⟩ := hx s hs
  exact ⟨w₁, hle₁, hs₁, himp w₁ _ ha⟩

/-- A quiet reader leaves the state fit for the same heap. -/
theorem Fit.of_quiet {x : Parser α} (hx : Quiet x) {s : ParseState} (hs : Fit top scopes w s) :
    Fit top scopes w (x s).2 := by
  obtain ⟨hscopes, hclosures, hsupply⟩ := hx s
  exact ⟨hscopes.trans hs.scopes_eq, hsupply ▸ hs.supply_eq, hclosures ▸ hs.closures,
    hs.scopes_lt, hs.top_lt⟩

/-- A quiet reader can stand anywhere. -/
theorem Reads.after {x : Parser α} {f : α → Parser β} {R : Heap → β → Prop} (hx : Quiet x)
    (hf : ∀ a, Reads top scopes w (f a) R) : Reads top scopes w (x >>= f) R :=
  fun s hs => hf (x s).1 (x s).2 (hs.of_quiet hx)

/-- The state can be asked for. -/
theorem Reads.get {f : ParseState → Parser β} {R : Heap → β → Prop}
    (hf : ∀ s, Fit top scopes w s → Reads top scopes w (f s) R) :
    Reads top scopes w (MonadState.get >>= f) R :=
  fun s hs => hf s hs s hs

theorem Reads.closure? {name : String} :
    Reads top scopes w (closure? name) fun w found =>
      ∀ c, found = some c → GoodValue top (vars scopes) w (.closure c) := by
  intro s hs
  refine ⟨w, w.le_refl, hs, fun c hc => ⟨by simp, ?_⟩⟩
  rintro _ ⟨⟩
  obtain ⟨l₁, l₂, hclosures, -⟩ := List.lookup_eq_some_iff.1 hc
  have hmem : (name, c) ∈ s.closures := by
    rw [hclosures]
    exact List.mem_append_right _ List.mem_cons_self
  exact hs.closures _ hmem

theorem Reads.iterate {I : Heap → β → Prop} {more : Lexeme → Bool}
    {step : β → Parser (β × Bool)}
    (hstep : ∀ w b, I w b → Reads top scopes w (step b) fun w r => I w r.1) {b : β} (hb : I w b) :
    Reads top scopes w (Parser.iterate more step b) I := by
  intro s hs
  refine iterate_invariant (I := fun b s => ∃ w', w ≤ w' ∧ Fit top scopes w' s ∧ I w' b) ?_ b s
    ⟨w, w.le_refl, hs, hb⟩
  rintro b s ⟨w₁, hle₁, hs₁, hb₁⟩
  obtain ⟨w₂, hle₂, hs₂, hb₂⟩ := hstep w₁ b hb₁ s hs₁
  exact ⟨w₂, Heap.le_trans hle₁ hle₂, hs₂, hb₂⟩

/-- Items that stay good in later heaps are good together. -/
theorem Reads.many {P : Heap → α → Prop} (hmono : ∀ {w w' a}, P w a → w ≤ w' → P w' a)
    {more : Lexeme → Bool} {item : Parser α} (hitem : ∀ w, Reads top scopes w item P) :
    Reads top scopes w (Parser.many more item) fun w items => ∀ a ∈ items, P w a := by
  refine Reads.bind (Q := fun w items => ∀ a ∈ items, P w a) (Reads.iterate ?_ (by simp)) ?_
  · intro w acc hacc
    refine (hitem w).bind fun a w₁ hle₁ ha => Reads.pure ?_
    intro b hb
    rcases List.mem_cons.1 hb with rfl | hb
    · exact ha
    · exact hmono (hacc b hb) hle₁
  · intro items w₁ _ hitems
    exact Reads.pure fun a ha => hitems a (List.mem_reverse.1 ha)

theorem Reads.alloc {n : Node} {bound : List Variable} (hn : Ready top bound w n) :
    Reads top scopes w (draw n.alloc) fun w e => Good top bound w e := by
  intro s hs
  have hnext : (draw n.alloc s).2.supply.next = (w.push n).next := congrArg (· + 1) hs.supply_eq
  have hexpr : (draw n.alloc s).1 = .mk w.next n := congrArg (Expr.mk · n) hs.supply_eq
  refine ⟨w.push n, w.le_push n, ⟨hs.scopes_eq, hnext, fun c hc t ht => ?_, fun p hp => ?_,
    fun v hv => ?_⟩, ?_⟩
  · exact (hs.closures c hc t ht).mono (w.le_push n)
  · exact Nat.lt_succ_of_lt (hs.scopes_lt p hp)
  · exact Nat.lt_succ_of_lt (hs.top_lt v hv)
  · rw [hexpr]
    exact hn.good

/-- A new variable has an identity that no variable of the top level has. -/
theorem Reads.allocVariable {name : String} {ty : Ty} :
    Reads top scopes w (draw (Variable.alloc name ty)) fun w v => v.id < w.next ∧ v ∉ top := by
  intro s hs
  have hid : (draw (Variable.alloc name ty) s).1.id = w.next := hs.supply_eq
  refine ⟨w.skipTo (w.next + 1), Heap.le_skipTo (Nat.le_succ _), ⟨hs.scopes_eq,
    congrArg (· + 1) hs.supply_eq, fun c hc t ht => ?_, fun p hp => ?_, fun v hv => ?_⟩, ?_, ?_⟩
  · exact (hs.closures c hc t ht).mono (Heap.le_skipTo (Nat.le_succ _))
  · exact Nat.lt_succ_of_lt (hs.scopes_lt p hp)
  · exact Nat.lt_succ_of_lt (hs.top_lt v hv)
  · rw [hid]
    exact Nat.lt_succ_self _
  · intro hmem
    have := hs.top_lt _ hmem
    omega

end Rules

/-! ## Expressions -/

/-- In every scope, the reader gives good trees whose free variables are in scope. -/
def ReadsGood (top : List Variable) (x : Parser Expr) : Prop :=
  ∀ scopes w, Reads top scopes w x fun w e => Good top (vars scopes) w e

section Parts

variable {top : List Variable} {scopes : List (String × Variable)} {w : Heap} {expr : Parser Expr}

theorem reads_resolveName (name : String) (span : Span) :
    Reads top scopes w (resolveName name span) fun w n => Ready top (vars scopes) w n := by
  refine Reads.get fun s hs => ?_
  split
  · next v hlookup =>
    obtain ⟨l₁, l₂, hscopes, -⟩ := List.lookup_eq_some_iff.1 hlookup
    have hmem : (name, v) ∈ scopes := by
      rw [← hs.scopes_eq, hscopes]
      exact List.mem_append_right _ List.mem_cons_self
    exact Reads.pure (.variable (List.mem_map.2 ⟨_, hmem, rfl⟩) (hs.scopes_lt _ hmem))
  · refine Reads.closure?.bind fun found w₁ _ hfound => ?_
    split
    · exact Reads.pure (.constant (hfound _ rfl) _)
    · exact Reads.after (quiet_report _) fun _ => Reads.pure ready_placeholder

theorem reads_value (hexpr : ReadsGood top expr) :
    Reads top scopes w (value expr) fun w v => GoodValue top (vars scopes) w v := by
  have hliteral : ∀ v : Value, (∀ t, v ≠ .tree t) → (∀ c, v ≠ .closure c) →
      Reads top scopes w (do
        advance
        Pure.pure v) fun w v => GoodValue top (vars scopes) w v :=
    fun v htree hclosure => Reads.after quiet_advance fun _ =>
      Reads.pure (.of_no_trees htree hclosure)
  have hother : ∀ other : Lexeme, Reads top scopes w (treeValue expr other) fun w v =>
      GoodValue top (vars scopes) w v := by
    refine fun other => Reads.after quiet_get fun s => ?_
    split
    · refine Reads.after quiet_advance fun _ => Reads.after quiet_advance fun _ => ?_
      refine (hexpr _ _).bind fun t w₁ _ ht => Reads.after (quiet_expect _) fun _ => ?_
      refine Reads.pure ⟨?_, by simp⟩
      rintro _ ⟨⟩
      exact ht
    · exact Reads.after (quiet_reportHere _ _) fun _ => Reads.after quiet_skipForm fun _ =>
        Reads.pure (.of_no_trees (by simp) (by simp))
  refine Reads.after quiet_peek fun l => ?_
  cases l with
  | integer n => exact hliteral _ (by simp) (by simp)
  | float x => exact hliteral _ (by simp) (by simp)
  | str s => exact hliteral _ (by simp) (by simp)
  | true => exact hliteral _ (by simp) (by simp)
  | false => exact hliteral _ (by simp) (by simp)
  | null => exact hliteral _ (by simp) (by simp)
  | ident name =>
    refine Reads.after quiet_peekSpan fun span => Reads.after quiet_advance fun _ => ?_
    refine Reads.closure?.bind fun found w₁ _ hfound => ?_
    split
    · exact Reads.pure (hfound _ rfl)
    · exact Reads.after (quiet_report _) fun _ => Reads.pure (.of_no_trees (by simp) (by simp))
  | _ => exact hother _

theorem reads_exprs (hexpr : ReadsGood top expr) :
    Reads top scopes w (exprs expr) fun w es => GoodAll top (vars scopes) w es :=
  Reads.many (P := Good top (vars scopes)) Good.mono (hexpr scopes)

theorem reads_object (hexpr : ReadsGood top expr) :
    Reads top scopes w (object expr) fun w o => GoodAll top (vars scopes) w o.toList := by
  refine Reads.after (quiet_eat _) fun none => ?_
  split
  · exact Reads.pure goodAll_nil
  · exact (hexpr _ _).bind fun e w₁ _ he => Reads.pure (goodAll_nil.cons he)

/-- The parameters come into scope for the body and leave it again. -/
theorem reads_lambda (hexpr : ReadsGood top expr) :
    Reads top scopes w (lambda expr) fun w n => Ready top (vars scopes) w n := by
  refine Reads.after (quiet_expect _) fun _ => ?_
  refine Reads.bind (Q := fun w params => ∀ v ∈ params, v.id < w.next ∧ v ∉ top)
    (Reads.iterate ?_ (by simp)) ?_
  · intro w acc hacc
    refine Reads.after quiet_advance fun _ => Reads.after quiet_expectIdent fun found => ?_
    refine Reads.after quiet_ty fun ty => Reads.after (quiet_expect _) fun _ => ?_
    have hrest : Reads top scopes w (do
        let v ← draw (Variable.alloc found.1 ty)
        Pure.pure (v :: acc, true)) fun w r => ∀ v ∈ r.1, v.id < w.next ∧ v ∉ top := by
      refine Reads.allocVariable.bind fun v w₁ hle₁ hv => Reads.pure fun u hu => ?_
      rcases List.mem_cons.1 hu with rfl | hu
      · exact hv
      · exact ⟨Nat.lt_of_lt_of_le (hacc u hu).1 hle₁.next_le, (hacc u hu).2⟩
    simp only
    split
    · exact Reads.after (quiet_report _) fun _ => hrest
    · exact hrest
  · intro params w₁ _ hparams
    refine Reads.after (quiet_expect _) fun _ => ?_
    intro s hs
    -- the body is read with the parameters in scope, and they leave it again
    let inner : ParseState := { s with scopes := params.map (fun v => (v.name, v)) ++ s.scopes }
    have hinner : Fit top (params.map (fun v => (v.name, v)) ++ scopes) w₁ inner := by
      refine ⟨congrArg (_ ++ ·) hs.scopes_eq, hs.supply_eq, hs.closures, fun p hp => ?_, hs.top_lt⟩
      rcases List.mem_append.1 hp with hp | hp
      · obtain ⟨v, hv, rfl⟩ := List.mem_map.1 hp
        exact (hparams v hv).1
      · exact hs.scopes_lt p hp
    obtain ⟨w₂, hle₂, hs₂, hbody⟩ := hexpr _ w₁ inner hinner
    refine ⟨w₂, hle₂, ?_, ?_⟩
    · show Fit top scopes w₂ { (expr inner).2 with scopes := s.scopes }
      exact ⟨hs.scopes_eq, hs₂.supply_eq, hs₂.closures,
        fun p hp => hs₂.scopes_lt p (List.mem_append_right _ hp), hs₂.top_lt⟩
    · show Ready top (vars scopes) w₂ (.lambdaOf params.reverse (expr inner).1)
      refine .lambda ⟨hbody.held, hbody.seals, fun v hv => ?_⟩ (fun p hp => ?_) (fun p hp => ?_) _
      -- the last parameter comes first in the scope, and the first one in the lambda
      · have hmem := hbody.bound v hv
        rw [vars, List.map_append, List.map_map] at hmem
        rcases List.mem_append.1 hmem with hmem | hmem
        · exact List.mem_append_left _ (by simpa using hmem)
        · exact List.mem_append_right _ hmem
      · have hlt := (hparams p (List.mem_reverse.1 hp)).1
        exact Nat.lt_of_lt_of_le hlt hle₂.next_le
      · exact (hparams p (List.mem_reverse.1 hp)).2

theorem reads_constructTail (hexpr : ReadsGood top expr) :
    Reads top scopes w (constructTail expr) fun w c =>
      GoodAll top (vars scopes) w c.args := by
  refine Reads.after quiet_ty fun _ => Reads.after (quiet_expect _) fun _ => ?_
  refine (reads_exprs hexpr).bind fun args w₁ _ hargs => ?_
  exact Reads.after (quiet_expect _) fun _ =>
    Reads.after (Quiet.manyForms quiet_memberRef) fun _ => Reads.pure hargs

theorem reads_constructForm (hexpr : ReadsGood top expr) :
    Reads top scopes w (constructForm expr) fun w c =>
      GoodAll top (vars scopes) w c.args := by
  refine Reads.after (quiet_expect _) fun _ => Reads.after quiet_expectIdent fun found => ?_
  have hrest : Reads top scopes w (do
      let call ← constructTail expr
      let _ ← expect .rparen
      Pure.pure call) fun w c => GoodAll top (vars scopes) w c.args :=
    (reads_constructTail hexpr).bind fun call w₁ _ hcall =>
      Reads.after (quiet_expect _) fun _ => Reads.pure hcall
  simp only
  split
  · exact Reads.after (quiet_report _) fun _ => hrest
  · exact hrest

theorem reads_element (hexpr : ReadsGood top expr) :
    Reads top scopes w (element expr) fun w i =>
      GoodAll top (vars scopes) w i.args := by
  refine Reads.after (quiet_expect _) fun _ => Reads.after quiet_expectIdent fun found => ?_
  have hrest : Reads top scopes w (do
      let member ← path
      let args ← exprs expr
      let _ ← expect .rparen
      Pure.pure
        (⟨{ owner := member.1, name := member.2, isStatic := false, ret := .unit }, args⟩ :
          ElementInit Expr))
      fun w i => GoodAll top (vars scopes) w i.args :=
    Reads.after quiet_path fun _ => (reads_exprs hexpr).bind fun args w₁ _ hargs =>
      Reads.after (quiet_expect _) fun _ => Reads.pure hargs
  simp only
  split
  · exact Reads.after (quiet_report _) fun _ => hrest
  · exact hrest

theorem reads_elements (hexpr : ReadsGood top expr) :
    Reads top scopes w (manyForms (element expr)) fun w es =>
      GoodAll top (vars scopes) w (es.flatMap (·.args)) := by
  have hmany : Reads top scopes w (manyForms (element expr)) fun w es =>
      ∀ i ∈ es, GoodAll top (vars scopes) w i.args :=
    Reads.many (P := fun w (i : ElementInit Expr) => GoodAll top (vars scopes) w i.args)
      GoodAll.mono fun w => reads_element hexpr
  refine hmany.imp fun w es hes e he => ?_
  obtain ⟨i, hi, he⟩ := List.mem_flatMap.1 he
  exact hes i hi e he

theorem mem_exprsOfAll {bs : List (Binding Expr)} {e : Expr} :
    e ∈ Binding.exprsOfAll bs ↔ ∃ b ∈ bs, e ∈ b.exprs := by
  induction bs with
  | nil => simp [Binding.exprsOfAll]
  | cons b bs ih => simp [Binding.exprsOfAll, ih]

theorem reads_bindingNested (hexpr : ReadsGood top expr) (nesting : Nat) :
    Reads top scopes w (bindingNested expr nesting) fun w b =>
      GoodAll top (vars scopes) w b.exprs := by
  induction nesting generalizing w with
  | zero => exact Reads.pure goodAll_nil
  | succ nesting ih =>
    refine Reads.after (quiet_expect _) fun opening => Reads.after (quiet_eat _) fun equals => ?_
    split
    · refine Reads.after quiet_memberRef fun member => ?_
      refine (hexpr _ _).bind fun e w₁ _ he => Reads.after (quiet_expect _) fun _ => ?_
      exact Reads.pure (goodAll_nil.cons he)
    · refine Reads.after quiet_expectIdent fun found => Reads.after quiet_memberRef fun member => ?_
      have hrest : ∀ {w b}, GoodAll top (vars scopes) w b.exprs → Reads top scopes w (do
          let _ ← expect .rparen
          Pure.pure b) fun w (b : Binding Expr) => GoodAll top (vars scopes) w b.exprs :=
        fun hb => Reads.after (quiet_expect _) fun _ => Reads.pure hb
      simp only
      split
      · have hmany : Reads top scopes w (manyForms (bindingNested expr nesting)) fun w bs =>
            ∀ b ∈ bs, GoodAll top (vars scopes) w b.exprs :=
          Reads.many (P := fun w (b : Binding Expr) => GoodAll top (vars scopes) w b.exprs)
            GoodAll.mono fun w => ih
        refine hmany.bind fun bs w₁ _ hbs => hrest fun e he => ?_
        obtain ⟨b, hb, he⟩ := mem_exprsOfAll.1 (by simpa only [Binding.exprs] using he)
        exact hbs b hb e he
      · exact (reads_elements hexpr).bind fun es w₁ _ hes => hrest (by rwa [Binding.exprs])
      · exact Reads.after (quiet_report _) fun _ => hrest goodAll_nil

theorem reads_bindings (hexpr : ReadsGood top expr) :
    Reads top scopes w (manyForms (binding expr)) fun w bs =>
      GoodAll top (vars scopes) w (Binding.exprsOfAll bs) := by
  have hmany : Reads top scopes w (manyForms (binding expr)) fun w bs =>
      ∀ b ∈ bs, GoodAll top (vars scopes) w b.exprs :=
    Reads.many (P := fun w (b : Binding Expr) => GoodAll top (vars scopes) w b.exprs)
      GoodAll.mono fun w => Reads.after quiet_get fun s => reads_bindingNested hexpr _
  refine hmany.imp fun w bs hbs e he => ?_
  obtain ⟨b, hb, he⟩ := mem_exprsOfAll.1 he
  exact hbs b hb e he

theorem reads_formBody (hexpr : ReadsGood top expr) (head : String) (span : Span) :
    Reads top scopes w (formBody expr head span) fun w n => Ready top (vars scopes) w n := by
  -- one case for each head of a form, in the order of the definition
  unfold formBody
  split
  · refine (hexpr _ _).bind fun operand w₁ _ hoperand => ?_
    split
    · exact Reads.after quiet_ty fun ty =>
        Reads.pure (.of_children rfl rfl rfl (goodAll_nil.cons hoperand))
    · exact Reads.pure (.of_children rfl rfl rfl (goodAll_nil.cons hoperand))
  split
  · refine (hexpr _ _).bind fun left w₁ _ hleft => (hexpr _ _).bind fun right w₂ hle hright => ?_
    exact Reads.pure (.of_children rfl rfl rfl ((goodAll_nil.cons hright).cons (hleft.mono hle)))
  split
  · exact (hexpr _ _).bind fun operand w₁ _ hoperand => Reads.after quiet_ty fun _ =>
      Reads.pure (.of_children rfl rfl rfl (goodAll_nil.cons hoperand))
  · refine (hexpr _ _).bind fun test w₁ _ htest => (hexpr _ _).bind fun yes w₂ hle₂ hyes =>
      (hexpr _ _).bind fun no w₃ hle₃ hno => Reads.pure ?_
    have htest₃ := htest.mono (Heap.le_trans hle₂ hle₃)
    exact .of_children rfl rfl rfl (((goodAll_nil.cons hno).cons (hyes.mono hle₃)).cons htest₃)
  · exact (reads_value hexpr).bind fun payload w₁ _ hpayload => Reads.after quiet_ty fun ty =>
      Reads.pure (.constant hpayload ty)
  · refine (hexpr _ _).bind fun tree w₁ _ htree => Reads.pure (.constant ⟨?_, by simp⟩ _)
    rintro _ ⟨⟩
    exact htree
  · exact reads_lambda hexpr
  · refine (hexpr _ _).bind fun target w₁ _ htarget =>
      (reads_exprs hexpr).bind fun args w₂ hle hargs => Reads.pure ?_
    exact .of_children rfl rfl rfl (hargs.cons (htarget.mono hle))
  · refine (hexpr _ _).bind fun target w₁ _ htarget =>
      (reads_exprs hexpr).bind fun args w₂ hle hargs => Reads.pure ?_
    exact .of_children rfl rfl rfl (hargs.cons (htarget.mono hle))
  · exact (hexpr _ _).bind fun query w₁ _ hquery =>
      Reads.pure (.of_children rfl rfl rfl (goodAll_nil.cons hquery))
  · exact (hexpr _ _).bind fun tree w₁ _ htree =>
      Reads.pure (.of_children rfl rfl rfl (goodAll_nil.cons htree))
  · exact (reads_object hexpr).bind fun object w₁ _ hobject =>
      Reads.after (quiet_memberTail _) fun _ => Reads.pure (.of_children rfl rfl rfl hobject)
  · exact (reads_object hexpr).bind fun object w₁ _ hobject =>
      Reads.after (quiet_memberTail _) fun _ => Reads.pure (.of_children rfl rfl rfl hobject)
  · refine (reads_object hexpr).bind fun object w₁ _ hobject => Reads.after quiet_path fun _ =>
      Reads.after (quiet_expect _) fun _ => (reads_exprs hexpr).bind fun args w₂ hle hargs => ?_
    exact Reads.after (quiet_expect _) fun _ => Reads.after quiet_ty fun _ =>
      Reads.pure (.of_children rfl rfl rfl ((hobject.mono hle).append hargs))
  · exact (reads_constructTail hexpr).bind fun call w₁ _ hcall =>
      Reads.pure (.of_children rfl rfl rfl hcall)
  · exact Reads.after quiet_ty fun _ => (reads_exprs hexpr).bind fun items w₁ _ hitems =>
      Reads.pure (.of_children rfl rfl rfl hitems)
  · exact Reads.after quiet_ty fun _ => (reads_exprs hexpr).bind fun items w₁ _ hitems =>
      Reads.pure (.of_children rfl rfl rfl hitems)
  · exact (reads_constructForm hexpr).bind fun call w₁ _ hcall =>
      (reads_bindings hexpr).bind fun bs w₂ hle hbs =>
        Reads.pure (.of_children rfl rfl rfl ((hcall.mono hle).append hbs))
  · exact (reads_constructForm hexpr).bind fun call w₁ _ hcall =>
      (reads_elements hexpr).bind fun es w₂ hle hes =>
        Reads.pure (.of_children rfl rfl rfl ((hcall.mono hle).append hes))
  · exact Reads.after quiet_expectIdent fun _ => Reads.after quiet_ty fun _ =>
      Reads.pure (.of_children rfl rfl rfl goodAll_nil)
  · exact Reads.after (quiet_report _) fun _ => Reads.after quiet_skipToClose fun _ =>
      Reads.pure ready_placeholder

/-- A declared type changes neither the parts of a node nor what it binds. -/
theorem Ready.withTy? {bound : List Variable} {n n' : Node} {ty : Ty} (h : Ready top bound w n)
    (hn : n.withTy? ty = some n') : Ready top bound w n' := by
  have hsame : n'.children = n.children ∧ n'.payload = n.payload ∧ n'.own = n.own ∧
      n'.params = n.params ∧ n'.quoted = n.quoted ∧ n'.captured = n.captured := by
    cases n with
    | call object method args =>
      simp only [Node.withTy?] at hn
      split at hn <;> cases hn
      exact ⟨rfl, rfl, rfl, rfl, rfl, rfl⟩
    | _ => cases hn <;> exact ⟨rfl, rfl, rfl, rfl, rfl, rfl⟩
  obtain ⟨hchildren, hpayload, hown, hparams, hquoted, hcaptured⟩ := hsame
  refine ⟨by rw [hchildren, hpayload]; exact h.parts, ⟨?_, ?_, ?_, ?_⟩, fun v hv => h.bound v ?_⟩
  · exact hown ▸ h.seals.own_lt
  · exact hparams ▸ h.seals.params_lt
  · exact hparams ▸ h.seals.params_inner
  · exact hcaptured ▸ h.seals.captured_closed
  · rw [Expr.mem_freeVars] at hv ⊢
    simp only [Expr.children, Expr.node_mk, hown, hparams, hchildren, hquoted] at hv ⊢
    exact hv

theorem reads_declareTy {n : Node} (hn : Ready top (vars scopes) w n) :
    Reads top scopes w (declareTy n) fun w n => Ready top (vars scopes) w n := by
  refine Reads.after (quiet_eat _) fun colon => ?_
  split
  · refine Reads.after quiet_peekSpan fun span => Reads.after quiet_ty fun ty => ?_
    split
    · exact Reads.pure (hn.withTy? ‹_›)
    · exact Reads.after (quiet_report _) fun _ => Reads.pure hn
  · exact Reads.pure hn

theorem reads_form (hexpr : ReadsGood top expr) :
    Reads top scopes w (form expr) fun w n => Ready top (vars scopes) w n := by
  refine Reads.after (quiet_expect _) fun opening => Reads.after quiet_peek fun l => ?_
  split
  · refine Reads.after quiet_peekSpan fun span => Reads.after quiet_advance fun _ => ?_
    refine (reads_formBody hexpr _ _).bind fun n w₁ _ hn => ?_
    refine (reads_declareTy hn).bind fun n w₂ _ hn => Reads.after (quiet_at? _) fun closed => ?_
    have hrest : Reads top scopes w₂ (do
        let _ ← eat .rparen
        Pure.pure n) fun w n => Ready top (vars scopes) w n :=
      Reads.after (quiet_eat _) fun _ => Reads.pure hn
    simp only
    split
    · exact Reads.after quiet_peek fun _ => Reads.after (quiet_reportHere _ _) fun _ =>
        Reads.after quiet_skipToClose fun _ => hrest
    · exact hrest
  · exact Reads.after (quiet_reportHere _ _) fun _ => Reads.after quiet_skipToClose fun _ =>
      Reads.after (quiet_eat _) fun _ => Reads.pure ready_placeholder

theorem reads_exprNode (hexpr : ReadsGood top expr) :
    Reads top scopes w (exprNode expr) fun w n => Ready top (vars scopes) w n := by
  have hliteral : ∀ (v : Value) (ty : Ty), (∀ t, v ≠ .tree t) → (∀ c, v ≠ .closure c) →
      Reads top scopes w (do
        advance
        Pure.pure (Node.constant v ty)) fun w n => Ready top (vars scopes) w n :=
    fun v ty htree hclosure => Reads.after quiet_advance fun _ =>
      Reads.pure (.constant (.of_no_trees htree hclosure) ty)
  have hother : ∀ other : Lexeme, Reads top scopes w (do
      reportHere ("expected expression, found " ++ other.describe) none
      if !endsForm other then advance
      Pure.pure placeholder) fun w n => Ready top (vars scopes) w n := by
    refine fun other => Reads.after (quiet_reportHere _ _) fun _ => ?_
    split
    · exact Reads.after quiet_advance fun _ => Reads.pure ready_placeholder
    · exact Reads.pure ready_placeholder
  refine Reads.after quiet_peek fun l => ?_
  cases l with
  | integer n => exact hliteral _ _ (by simp) (by simp)
  | float x => exact hliteral _ _ (by simp) (by simp)
  | str s => exact hliteral _ _ (by simp) (by simp)
  | true => exact hliteral _ _ (by simp) (by simp)
  | false => exact hliteral _ _ (by simp) (by simp)
  | null => exact hliteral _ _ (by simp) (by simp)
  | ident name =>
    exact Reads.after quiet_peekSpan fun _ => Reads.after quiet_advance fun _ =>
      reads_resolveName _ _
  | lparen => exact reads_form hexpr
  | _ => exact hother _

end Parts

/-- Expressions are read as good trees, at every nesting level. -/
theorem readsGood_expr (top : List Variable) (levels : Nat) : ReadsGood top (expr levels) := by
  induction levels with
  | zero =>
    exact fun scopes w => Reads.after (quiet_reportHere _ _) fun _ =>
      Reads.after quiet_skipForm fun _ => Reads.alloc ready_placeholder
  | succ levels ih =>
    exact fun scopes w => (reads_exprNode ih).bind fun n w₁ _ hn => Reads.alloc hn

/-! ## Sources -/

section Declarations

variable {scopes : List (String × Variable)} {w : Heap}

theorem reads_closureField (closure : String) {fields : List (String × Value)}
    (hfields : ∀ f ∈ fields, GoodValue (vars scopes) (vars scopes) w f.2) :
    Reads (vars scopes) scopes w (closureField closure fields) fun w fields =>
      ∀ f ∈ fields, GoodValue (vars scopes) (vars scopes) w f.2 := by
  refine Reads.after quiet_expectIdent fun found => Reads.after (quiet_expect _) fun _ => ?_
  refine (reads_value (readsGood_expr _ _)).bind fun v w₁ hle hv => ?_
  have hfields₁ : ∀ f ∈ fields, GoodValue (vars scopes) (vars scopes) w₁ f.2 :=
    fun f hf => (hfields f hf).mono hle
  -- a repeated field is reported and left out, and reading goes on alike
  have hrest : ∀ {result : List (String × Value)},
      (∀ f ∈ result, GoodValue (vars scopes) (vars scopes) w₁ f.2) →
      Reads (vars scopes) scopes w₁ (do
        if !(← eat .comma) && !(← at? .rbrace) then
          reportHere ("expected ',' or '\x7d' after closure field, found " ++ (← peek).describe)
            none
          advance
        Pure.pure result) fun w fields =>
          ∀ f ∈ fields, GoodValue (vars scopes) (vars scopes) w f.2 := by
    intro result hresult
    refine Reads.after (quiet_eat _) fun ate => Reads.after (quiet_at? _) fun closing => ?_
    simp only
    split
    · exact Reads.after quiet_peek fun _ => Reads.after (quiet_reportHere _ _) fun _ =>
        Reads.after quiet_advance fun _ => Reads.pure hresult
    · exact Reads.pure hresult
  simp only
  split
  · exact Reads.after (quiet_report _) fun _ => hrest hfields₁
  · refine hrest fun f hf => ?_
    rcases List.mem_cons.1 hf with rfl | hf
    · exact hv
    · exact hfields₁ f hf

/-- A closure declaration adds a closure whose trees have top-level variables only. -/
theorem reads_closureDecl : Reads (vars scopes) scopes w closureDecl fun _ _ => True := by
  refine Reads.after (quiet_expect _) fun _ => Reads.after quiet_expectIdent fun found => ?_
  refine Reads.after (quiet_expect _) fun _ => ?_
  refine Reads.bind
    (Q := fun w fields => ∀ f ∈ fields, GoodValue (vars scopes) (vars scopes) w f.2)
    (Reads.iterate ?_ (by simp)) fun fields w₁ _ hfields => ?_
  · intro w fields hfields
    exact (reads_closureField found.1 hfields).bind fun fields w₁ _ hfields => Reads.pure hfields
  refine Reads.after (quiet_expect _) fun _ => Reads.after (quiet_closure? _) fun declared => ?_
  split
  · intro s hs
    exact ⟨w₁, w₁.le_refl, hs.of_quiet (quiet_report _), trivial⟩
  · intro s hs
    -- the closure itself takes an identity, as a node would
    have hle : w₁ ≤ w₁.skipTo (w₁.next + 1) := Heap.le_skipTo (Nat.le_succ _)
    refine ⟨_, hle, ⟨hs.scopes_eq, congrArg (· + 1) hs.supply_eq, ?_, fun p hp => ?_,
      fun v hv => ?_⟩, trivial⟩
    · intro c hc t ht
      rcases List.mem_cons.1 hc with rfl | hc
      · obtain ⟨f, hf, ht⟩ := List.mem_flatMap.1 ht
        exact ((hfields f (List.mem_reverse.1 hf)).good_of_mem_trees ht).mono hle
      · exact (hs.closures c hc t ht).mono hle
    · exact Nat.lt_succ_of_lt (hs.scopes_lt p hp)
    · exact Nat.lt_succ_of_lt (hs.top_lt v hv)

/-- Between declarations, all variables in scope are top-level variables. -/
def TopFit (w : Heap) (s : ParseState) : Prop := Fit (vars s.scopes) s.scopes w s

/-- The reader goes from between declarations to between declarations. -/
def Declares (w : Heap) (x : Parser α) : Prop :=
  ∀ s, TopFit w s → ∃ w', w ≤ w' ∧ TopFit w' (x s).2

theorem Declares.of_quiet {x : Parser α} (hx : Quiet x) : Declares w x := by
  intro s hs
  have hfit := Fit.of_quiet hx hs
  rw [← (hx s).1] at hfit
  exact ⟨w, w.le_refl, hfit⟩

theorem Declares.after {x : Parser α} {f : α → Parser β} (hx : Quiet x)
    (hf : ∀ a, Declares w (f a)) : Declares w (x >>= f) := by
  intro s hs
  have hfit := Fit.of_quiet hx hs
  rw [← (hx s).1] at hfit
  exact hf (x s).1 (x s).2 hfit

/-- A tree stays good if a new variable becomes a top-level variable. -/
theorem Good.cons_top {top : List Variable} {e : Expr} (h : Good top top w e) {v : Variable}
    (hv : v.id = w.next) : Good (v :: top) (v :: top) (w.skipTo (w.next + 1)) e where
  held := h.held.mono (Heap.le_skipTo (Nat.le_succ _))
  seals := h.seals.imp fun _ ha => (ha.cons_top (Nat.le_of_eq hv.symm)).mono (Nat.le_succ _)
  bound u hu := List.mem_cons_of_mem _ (h.bound u hu)

/-- A free declaration makes a new variable a top-level variable. -/
theorem declares_freeDecl : Declares w freeDecl := by
  refine .after (quiet_expect _) fun _ => .after quiet_expectIdent fun found => ?_
  refine .after (quiet_expect _) fun _ => .after quiet_ty fun ty => .after quiet_get fun _ => ?_
  split
  · exact .of_quiet (quiet_report _)
  · intro s hs
    let v : Variable := ⟨s.supply.next, found.1, ty⟩
    have hv : v.id = w.next := hs.supply_eq
    have hlt : ∀ u ∈ v :: vars s.scopes, u.id < w.next + 1 := by
      intro u hu
      rcases List.mem_cons.1 hu with rfl | hu
      · exact Nat.lt_succ_of_le (Nat.le_of_eq hv)
      · exact Nat.lt_succ_of_lt (hs.top_lt u hu)
    refine ⟨w.skipTo (w.next + 1), Heap.le_skipTo (Nat.le_succ _), ⟨rfl,
      congrArg (· + 1) hs.supply_eq, fun c hc t ht => (hs.closures c hc t ht).cons_top hv,
      fun p hp => hlt p.2 (List.mem_map_of_mem hp), hlt⟩⟩

theorem declares_decl : Declares w decl := by
  refine .after (quiet_at? _) fun closure => ?_
  split
  · intro s hs
    obtain ⟨w₁, hle, hfit, -⟩ := reads_closureDecl s hs
    have hscopes := hfit.scopes_eq
    rw [← hscopes] at hfit
    exact ⟨w₁, hle, hfit⟩
  · exact declares_freeDecl

/-- All declarations of a source, one after the other. -/
theorem declares_many (more : Lexeme → Bool) : Declares w (many more decl) := by
  intro s hs
  refine iterate_invariant (I := fun _ s => ∃ w', w ≤ w' ∧ TopFit w' s) ?_ _ s ⟨w, w.le_refl, hs⟩
  rintro _ s ⟨w₁, hle₁, hs₁⟩
  obtain ⟨w₂, hle₂, hs₂⟩ := declares_decl s hs₁
  exact ⟨w₂, Heap.le_trans hle₁ hle₂, hs₂⟩

/-- The variables in scope carry the names they are found by, and no two have the same. -/
structure NamedApart (s : ParseState) : Prop where
  names : ∀ b ∈ s.scopes, b.2.name = b.1
  nodup : (s.scopes.map (·.1)).Nodup

theorem NamedApart.of_scopes {s s' : ParseState} (h : NamedApart s) (hscopes : s'.scopes = s.scopes) :
    NamedApart s' :=
  ⟨hscopes ▸ h.names, hscopes ▸ h.nodup⟩

/-- The reader keeps the names of variables apart. -/
def KeepsApart (x : Parser α) : Prop := ∀ s, NamedApart s → NamedApart (x s).2

theorem KeepsApart.after {x : Parser α} {f : α → Parser β} (hx : Quiet x)
    (hf : ∀ a, KeepsApart (f a)) : KeepsApart (x >>= f) :=
  fun s hs => hf (x s).1 (x s).2 (hs.of_scopes (hx s).1)

/-- A name that is declared already is reported. -/
theorem keepsApart_freeDecl : KeepsApart freeDecl := by
  refine .after (quiet_expect _) fun _ => .after quiet_expectIdent fun found => ?_
  refine .after (quiet_expect _) fun _ => .after quiet_ty fun ty => ?_
  intro s hs
  simp only [bind, StateT.bind, get, getThe, MonadStateOf.get, StateT.get, pure]
  split
  · exact hs.of_scopes (quiet_report _ s).1
  · next hnew =>
    have hnew : found.1 ∉ s.scopes.map (·.1) := by simpa using hnew
    refine ⟨fun b hb => ?_, List.nodup_cons.2 ⟨hnew, hs.nodup⟩⟩
    rcases List.mem_cons.1 hb with rfl | hb
    · rfl
    · exact hs.names b hb

theorem namedApart_many (more : Lexeme → Bool) {s : ParseState} (hfit : TopFit w s) (hs : NamedApart s) :
    NamedApart (many more decl s).2 := by
  refine (iterate_invariant (I := fun _ s => (∃ w, TopFit w s) ∧ NamedApart s) ?_ _ s ⟨⟨w, hfit⟩, hs⟩).2
  rintro _ s ⟨⟨w, hfit⟩, hs⟩
  obtain ⟨w₁, -, hfit₁⟩ := declares_decl s hfit
  refine ⟨⟨w₁, hfit₁⟩, ?_⟩
  have hdecl : decl s = (if (s.lexeme == .closure) = true then closureDecl else freeDecl) s := rfl
  change NamedApart (decl s).2
  rw [hdecl]
  split
  · obtain ⟨_, -, hclosure, -⟩ := reads_closureDecl s hfit
    exact hs.of_scopes hclosure.scopes_eq
  · exact keepsApart_freeDecl s hs

end Declarations

/-- At the start nothing has been read, and no heap cell is in use. -/
theorem topFit_start (tokens : List Token) (supply : Supply) :
    TopFit ⟨fun _ => default, supply.next⟩ { tokens, supply } :=
  ⟨rfl, rfl, by simp, by simp, by simp [vars]⟩

/-- The tree of a source, behind its declarations. -/
theorem reads_tree {scopes : List (String × Variable)} {w : Heap} : Reads (vars scopes) scopes w (do
    let e ← expr maxNesting
    if !(← at? .eof) then
      reportHere ("expected end of file, found " ++ (← peek).describe)
        (some "a file holds declarations followed by exactly one expression")
    Pure.pure e) fun w e => Good (vars scopes) (vars scopes) w e := by
  refine (readsGood_expr _ _ _ _).bind fun e w₁ _ he => Reads.after (quiet_at? _) fun ended => ?_
  simp only
  split
  · exact Reads.after quiet_peek fun _ => Reads.after (quiet_reportHere _ _) fun _ =>
      Reads.pure he
  · exact Reads.pure he

/-- A source is read as a good tree over the variables in scope at its end. -/
theorem good_file {s : ParseState} {w : Heap} (hs : TopFit w s) :
    ∃ w', TopFit w' (file s).2 ∧
      Good (vars (file s).2.scopes) (vars (file s).2.scopes) w' (file s).1 := by
  obtain ⟨w₁, -, hs₁⟩ := declares_many (fun l => l == .closure || l == .free) s hs
  obtain ⟨w₂, -, hs₂, he⟩ := reads_tree _ hs₁
  have hscopes : (file s).2.scopes = _ := hs₂.scopes_eq
  refine ⟨w₂, ?_, ?_⟩
  · unfold TopFit
    rw [hscopes]
    exact hs₂
  · rw [hscopes]
    exact he

end Parser

/-- The variables that the free declarations of a source introduce; they are in scope at its end. -/
def freeVariables (source : String) (supply : Supply) : List Variable :=
  (Parser.file.run { tokens := (tokenize source).tokens, supply }).2.scopes.map (·.2)

/-- No two free variables of a source have the same name. -/
theorem nodup_names_freeVariables (source : String) (supply : Supply) :
    ((freeVariables source supply).map (·.name)).Nodup := by
  let start : ParseState := { tokens := (tokenize source).tokens, supply }
  have hstart := Parser.topFit_start (tokenize source).tokens supply
  have hapart := Parser.namedApart_many (fun l => l == .closure || l == .free) hstart
    ⟨(fun b hb => nomatch hb), List.nodup_nil⟩
  obtain ⟨w, -, hfit⟩ := Parser.declares_many (fun l => l == .closure || l == .free) start hstart
  obtain ⟨w₁, -, hfit₁, -⟩ := Parser.reads_tree _ hfit
  have hfile : Parser.NamedApart (Parser.file start).2 := hapart.of_scopes hfit₁.scopes_eq
  have hnames : (freeVariables source supply).map (·.name) = (Parser.file start).2.scopes.map (·.1) := by
    rw [freeVariables, List.map_map]
    exact List.map_congr_left fun b hb => hfile.names b hb
  rw [hnames]
  exact hfile.nodup

/-- A tree that was read from a source with the given top-level variables. -/
structure Grounded (top : List Variable) (supply : Supply) (e : Expr) : Prop where
  coherent : e.Coherent supply
  seals : e.Everywhere (Sealed top supply.next)
  closed : ∀ v ∈ e.freeVars, v ∈ top
  top_lt : ∀ v ∈ top, v.id < supply.next

/-- The tree of an accepted source is coherent, and its free variables, also those of the trees in
its closures, are the declared ones. -/
theorem grounded_of_parseTree {source : String} {supply supply' : Supply} {e : Expr}
    (h : parseTree source supply = .ok (e, supply')) :
    Grounded (freeVariables source supply) supply' e := by
  let start : ParseState := { tokens := (tokenize source).tokens, supply }
  have hstart := Parser.topFit_start (tokenize source).tokens supply
  obtain ⟨w, hfit, hgood⟩ := Parser.good_file hstart
  have hrun : e = (Parser.file start).1 ∧ supply' = (Parser.file start).2.supply := by
    have htokens : parseTokens start.tokens supply =
        if (Parser.file start).2.faults.isEmpty
        then .ok ((Parser.file start).1, (Parser.file start).2.supply)
        else .error (Parser.file start).2.faults.toList := rfl
    simp only [parseTree] at h
    split at h
    · change parseTokens start.tokens supply = _ at h
      rw [htokens] at h
      split at h
      · cases h
        exact ⟨rfl, rfl⟩
      · cases h
    · cases h
  obtain ⟨rfl, rfl⟩ := hrun
  have hnext : (Parser.file start).2.supply = ⟨w.next⟩ := congrArg Supply.mk hfit.supply_eq
  rw [hnext]
  exact ⟨hgood.held.coherent, hgood.seals, hgood.bound, hfit.top_lt⟩

/-- Is the source accepted, and does its tree pass a check? -/
def accepts (source : String) (check : Expr → Bool) : Bool :=
  match parseTree source {} with
  | .ok (e, _) => check e
  | .error _ => false

theorem exists_tree_of_accepts {source : String} {check : Expr → Bool}
    (h : accepts source check = true) :
    ∃ e supply, parseTree source {} = .ok (e, supply) ∧ check e = true := by
  unfold accepts at h
  split at h
  · next e supply hparse =>
    exact ⟨e, supply, hparse, h⟩
  · cases h

/-- Is the source accepted, can its tree be expanded, and do both pass a check? -/
def passes (source : String) (limit : Nat) (check : Expr → Supply → Expanded → Bool) :
    Bool :=
  match parseTree source {} with
  | .ok (e, supply) =>
    match expand limit e supply with
    | .ok (r, _) => check e supply r
    | .error _ => false
  | .error _ => false

theorem exists_run_of_passes {source : String} {limit : Nat}
    {check : Expr → Supply → Expanded → Bool} (h : passes source limit check = true) :
    ∃ e supply r supply', parseTree source {} = .ok (e, supply) ∧
      expand limit e supply = .ok (r, supply') ∧ check e supply r = true := by
  unfold passes at h
  split at h
  · next e supply hparse =>
    split at h
    · next r supply' hexpand =>
      exact ⟨e, supply, r, supply', hparse, hexpand, h⟩
    · cases h
  · cases h

end ExprTree
