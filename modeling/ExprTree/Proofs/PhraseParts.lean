import ExprTree.Proofs.ClosureOrder
import ExprTree.Proofs.Grammar

/-!
# The expressions in a phrase

Expressions that are nested in a phrase of the grammar stand one after the other, and the identities that
are drawn for them ascend. `Sweep` says so of a list of expressions. For every production it is the list of
children of what the phrase means, and the tree that it quotes, in the very order of `Node.children`.
`NodeAt.written` collects this with what else a phrase of one node tells: its parameters have names of their
own and are drawn before what is nested in it, and its names stand for what they stand for around it.
-/

namespace ExprTree

namespace Grammar

variable {α : Type} {E : Phrase Expr} {Γ : Env} {p q r : Point}

/-- The next identity that is drawn. -/
abbrev Point.next (p : Point) : Nat := p.supply.next

/-! ## Expressions one after the other -/

/-- Expressions stand one after the other between two points, with other words between them. -/
inductive Sweep (E : Phrase Expr) (Γ : Env) : Point → List Expr → Point → Prop
  | nil {p q : Point} : p.next ≤ q.next → Sweep E Γ p [] q
  | cons {p p₁ p₂ q : Point} {e : Expr} {es : List Expr} : p.next ≤ p₁.next → E Γ p₁ e p₂ →
      Sweep E Γ p₂ es q → Sweep E Γ p (e :: es) q

theorem Sweep.behind {es : List Expr} (h : Sweep E Γ q es r) (hle : p.next ≤ q.next) : Sweep E Γ p es r := by
  cases h with
  | nil hle' => exact .nil (Nat.le_trans hle hle')
  | cons hle' he hes => exact .cons (Nat.le_trans hle hle') he hes

theorem Sweep.append {xs ys : List Expr} (h : Sweep E Γ p xs q) (h' : Sweep E Γ q ys r) :
    Sweep E Γ p (xs ++ ys) r := by
  induction h with
  | nil hle => exact h'.behind hle
  | cons hle he _ ih => exact .cons hle he (ih h')

theorem sweep_one {e : Expr} (h : E Γ p e q) : Sweep E Γ p [e] q :=
  .cons (Nat.le_refl _) h (.nil (Nat.le_refl _))

theorem Word.sweep {l : Lexeme} (h : Word l p q) : Sweep E Γ p [] q := by
  cases h
  exact .nil (Nat.le_refl _)

/-- Items one after the other, each with its expressions. -/
theorem Many.sweep {R : Point → α → Point → Prop} {exprs : α → List Expr} {as : List α}
    (h : Many R p as q) (hR : ∀ a ∈ as, ∀ {p q : Point}, R p a q → Sweep E Γ p (exprs a) q) :
    Sweep E Γ p (as.flatMap exprs) q := by
  induction h with
  | nil => exact .nil (Nat.le_refl _)
  | cons ha _ ih =>
    rw [List.forall_mem_cons] at hR
    exact (hR.1 ha).append (ih hR.2)

theorem Many.sweep_exprs {es : List Expr} (h : Many (E Γ) p es q) : Sweep E Γ p es q := by
  have hsweep : Sweep E Γ p (es.flatMap fun e => [e]) q := h.sweep fun e _ _ _ he => sweep_one he
  rwa [List.flatMap_singleton'] at hsweep

theorem CommaList.sweep {R : Point → α → Point → Prop} {exprs : α → List Expr} {as : List α}
    (h : CommaList R p as q) (hR : ∀ a ∈ as, ∀ {p q : Point}, R p a q → Sweep E Γ p (exprs a) q) :
    Sweep E Γ p (as.flatMap exprs) q := by
  induction h with
  | nil => exact .nil (Nat.le_refl _)
  | last ha =>
    rw [List.flatMap_singleton]
    exact hR _ List.mem_cons_self ha
  | cons ha hcomma _ ih =>
    rw [List.forall_mem_cons] at hR
    exact (hR.1 ha).append (hcomma.sweep.append (ih hR.2))

/-! ## Words in which nothing is nested -/

/-- Types have no expressions in them. -/
theorem TyAt.sweep : ∀ {t : Ty} {p q : Point}, TyAt p t q → Sweep E Γ p [] q
  | _, _, _, .builtin _ h => h.sweep
  | _, _, _, .named _ h _ _ => h.sweep
  | _, _, _, .array h₁ h₂ h₃ => h₁.sweep.append (h₂.sweep.append h₃.sweep)
  | .func ts _, _, _, .func h₁ h₂ h₃ h₄ h₅ h₆ => by
    have hts : Sweep E Γ _ (ts.flatMap fun _ => []) _ := h₃.sweep fun u _ _ _ hu => hu.sweep
    rw [List.flatMap_eq_nil_iff.2 fun _ _ => rfl] at hts
    exact h₁.sweep.append (h₂.sweep.append (hts.append (h₄.sweep.append (h₅.sweep.append h₆.sweep))))
  | _, _, _, .expr h₁ h₂ h₃ h₄ => h₁.sweep.append (h₂.sweep.append (h₃.sweep.append h₄.sweep))
termination_by t => sizeOf t

theorem PathAt.sweep {path : String × String} (h : PathAt p path q) : Sweep E Γ p [] q := by
  obtain ⟨h₁, h₂, h₃⟩ := h
  exact h₁.sweep.append (h₂.sweep.append h₃.sweep)

theorem MemberAt.sweep {kind : MemberKind} {Δ : Env} {m : Member} (h : MemberAt kind Δ p m q) :
    Sweep E Γ p [] q := by
  obtain ⟨h₁, h₂⟩ := h
  exact h₁.sweep.append h₂.sweep

theorem MemberRefAt.sweep {Δ : Env} {m : Member} (h : MemberRefAt Δ p m q) : Sweep E Γ p [] q := by
  obtain ⟨_, h₁, h₂, h₃, h₄⟩ := h
  exact h₁.sweep.append (h₂.sweep.append (h₃.sweep.append h₄.sweep))

/-! ## Parts of forms -/

/-- A payload holds the tree that is written there, or it is a closure that its name stands for. -/
theorem ValueAt.sweep {v : Value} (h : ValueAt E Γ p v q) : Sweep E Γ p (Parser.quotedTree v) q := by
  cases h with
  | literal hl h => cases hl <;> exact h.sweep
  | closure _ h => exact h.sweep
  | tree h₁ h₂ h₃ h₄ => exact h₁.sweep.append (h₂.sweep.append ((sweep_one h₃).append h₄.sweep))

theorem ValueAt.lookup {c : Closure Value} (h : ValueAt E Γ p (.closure c) q) :
    ∃ name, Γ.closures.lookup name = some c := by
  cases h with
  | literal hl => cases hl
  | closure hc => exact ⟨_, hc⟩

theorem ObjectAt.sweep {o : Option Expr} (h : ObjectAt E Γ p o q) : Sweep E Γ p o.toList q := by
  cases h with
  | static h => exact h.sweep
  | expr h => exact sweep_one h

theorem ConstructAt.sweep {c : Construct Expr} (h : ConstructAt E Γ p c q) : Sweep E Γ p c.args q := by
  obtain ⟨h₁, h₂, h₃, h₄, h₅⟩ := h
  have hmembers : Sweep E Γ _ (List.flatMap (fun _ => []) _) q := h₅.sweep fun m _ _ _ hm => hm.sweep
  rw [List.flatMap_eq_nil_iff.2 fun _ _ => rfl] at hmembers
  have hargs := h₁.sweep.append (h₂.sweep.append (h₃.sweep_exprs.append (h₄.sweep.append hmembers)))
  simpa using hargs

theorem ConstructFormAt.sweep {c : Construct Expr} (h : ConstructFormAt E Γ p c q) :
    Sweep E Γ p c.args q := by
  obtain ⟨h₁, h₂, h₃, h₄⟩ := h
  simpa using h₁.sweep.append (h₂.sweep.append (h₃.sweep.append h₄.sweep))

theorem ElementAt.sweep {i : ElementInit Expr} (h : ElementAt E Γ p i q) : Sweep E Γ p i.args q := by
  obtain ⟨h₁, h₂, h₃, h₄, h₅⟩ := h
  simpa using h₁.sweep.append (h₂.sweep.append (h₃.sweep.append (h₄.sweep_exprs.append h₅.sweep)))

theorem BindingAt.sweep : ∀ {b : Binding Expr} {p q : Point}, BindingAt E Γ p b q → Sweep E Γ p b.exprs q
  | _, _, _, .assign h₁ h₂ h₃ h₄ h₅ => by
    rw [Binding.exprs]
    exact h₁.sweep.append (h₂.sweep.append (h₃.sweep.append ((sweep_one h₄).append h₅.sweep)))
  | .nested _ bs, _, _, .nested h₁ h₂ h₃ h₄ h₅ => by
    rw [Binding.exprs, Binding.exprsOfAll_eq]
    have hbs : Sweep E Γ _ (bs.flatMap Binding.exprs) _ := h₄.sweep fun b _ _ _ hb => hb.sweep
    simpa using h₁.sweep.append (h₂.sweep.append (h₃.sweep.append (hbs.append h₅.sweep)))
  | .elements _ es, _, _, .elements h₁ h₂ h₃ h₄ h₅ => by
    rw [Binding.exprs]
    have hes : Sweep E Γ _ (es.flatMap (·.args)) _ := h₄.sweep fun i _ _ _ hi => hi.sweep
    simpa using h₁.sweep.append (h₂.sweep.append (h₃.sweep.append (hes.append h₅.sweep)))
termination_by b => sizeOf b

/-! ## Identities -/

theorem Sweep.le_of_nil (h : Sweep E Γ p [] q) : p.next ≤ q.next := by
  cases h with
  | nil hle => exact hle

theorem Drawn.variable_eq {name : String} {t : Ty} {v : Variable} (h : Drawn (Variable.alloc name t) p v q) :
    v = ⟨p.next, name, t⟩ ∧ q.next = p.next + 1 := by
  cases h
  exact ⟨rfl, rfl⟩

theorem Drawn.closure_eq {name : String} {fields : List (String × Value)} {c : Closure Value}
    (h : Drawn (Closure.alloc name fields) p c q) : c = ⟨p.next, name, fields⟩ ∧ q.next = p.next + 1 := by
  cases h
  exact ⟨rfl, rfl⟩

theorem Drawn.node_eq {n : Node} {e : Expr} (h : Drawn n.alloc p e q) : e.node = n ∧ q.next = p.next + 1 := by
  cases h
  exact ⟨rfl, rfl⟩

/-- A variable is drawn behind the words before it. -/
theorem Drawn.ascends {name : String} {t : Ty} {v : Variable} (h : Drawn (Variable.alloc name t) q v r)
    (hle : p.next ≤ q.next) : p.next ≤ r.next ∧ Parser.Ascends p.next r.next [v] := by
  obtain ⟨rfl, hr⟩ := h.variable_eq
  refine ⟨by omega, List.pairwise_singleton _ _, ?_, ?_⟩
  · simpa using hle
  · simpa using Nat.lt_of_lt_of_eq (Nat.lt_succ_self _) hr.symm

/-- Parameters draw identities in the order in which they are written. -/
theorem ascends_params {params : List Variable} (h : Many ParamAt p params q) :
    p.next ≤ q.next ∧ Parser.Ascends p.next q.next params := by
  induction h with
  | nil => exact ⟨Nat.le_refl _, Parser.ascends_nil _ _⟩
  | @cons p p₁ q v vs hv _ ih =>
    obtain ⟨h₁, h₂, h₃, h₄, h₅⟩ := hv
    have hwords : Sweep (fun _ _ _ _ => False) {} p [] _ :=
      h₁.sweep.append (h₂.sweep.append (h₃.sweep.append h₄.sweep))
    obtain ⟨hle, hv⟩ := h₅.ascends hwords.le_of_nil
    exact ⟨Nat.le_trans hle ih.1, hv.append ih.2 hle ih.1⟩

/-! ## Nodes -/

/-- What the phrase of a node tells of it. -/
structure Written (E : Phrase Expr) (Γ : Env) (p : Point) (n : Node) (q : Point) : Prop where
  /-- The parameters can be told apart by their names. -/
  names : (n.params.map (·.name)).Nodup
  /-- What is nested in the node stands behind its parameters, and they have a meaning there. -/
  inner : ∃ m : Point, p.next ≤ m.next ∧ Parser.Ascends p.next m.next n.params ∧
    Sweep E (Γ.under n.params) m (n.children ++ n.quoted) q
  own : ∀ v ∈ n.own, ∃ name, Γ.scopes.lookup name = some v
  reference : ∀ c ∈ n.reference, ∃ name, Γ.closures.lookup name = some c

/-- Most nodes bind no parameters, quote no tree and stand for nothing themselves. -/
theorem written_of_children {n : Node} (h : Sweep E Γ p n.children q) (hparams : n.params = [])
    (hquoted : n.quoted = []) (hown : n.own = []) (hreference : n.reference = []) :
    Written E Γ p n q where
  names := by simp [hparams]
  inner := by
    refine ⟨p, Nat.le_refl _, ?_, ?_⟩
    · rw [hparams]
      exact Parser.ascends_nil _ _
    · rw [hparams, hquoted, List.append_nil]
      exact h
  own := by simp [hown]
  reference := by simp [hreference]

/-- A constant has no children, but its payload may hold a tree or refer to a closure. -/
theorem written_constant {v : Value} {t : Ty} (h : Sweep E Γ p (Parser.quotedTree v) q)
    (hclosure : ∀ c, v = .closure c → ∃ name, Γ.closures.lookup name = some c) :
    Written E Γ p (.constant v t) q where
  names := List.nodup_nil
  inner := by
    refine ⟨p, Nat.le_refl _, Parser.ascends_nil _ _, ?_⟩
    have hquoted : (Node.constant v t).quoted = Parser.quotedTree v := by cases v <;> rfl
    rw [hquoted]
    exact h
  own := by simp [Node.own]
  reference c hc := by
    cases v with
    | closure d =>
      obtain rfl := List.mem_singleton.1 hc
      exact hclosure c rfl
    | _ => cases hc

theorem FormAt.written {n : Node} (h : FormAt E Γ p n q) : Written E Γ p n q := by
  cases h with
  | unary op _ h₁ h₂ => exact written_of_children (h₁.sweep.append (sweep_one h₂)) rfl rfl rfl rfl
  | conversion op _ h₁ h₂ h₃ =>
    exact written_of_children (h₁.sweep.append ((sweep_one h₂).append h₃.sweep)) rfl rfl rfl rfl
  | binary op h₁ h₂ h₃ =>
    exact written_of_children (h₁.sweep.append ((sweep_one h₂).append (sweep_one h₃))) rfl rfl rfl rfl
  | typeIs h₁ h₂ h₃ =>
    exact written_of_children (h₁.sweep.append ((sweep_one h₂).append h₃.sweep)) rfl rfl rfl rfl
  | conditional h₁ h₂ h₃ h₄ =>
    exact written_of_children (h₁.sweep.append ((sweep_one h₂).append ((sweep_one h₃).append (sweep_one h₄))))
      rfl rfl rfl rfl
  | constant h₁ h₂ h₃ =>
    refine written_constant ?_ fun c hc => ValueAt.lookup (hc ▸ h₂)
    simpa using h₁.sweep.append (h₂.sweep.append h₃.sweep)
  | tree h₁ h₂ => exact written_constant (h₁.sweep.append (sweep_one h₂)) nofun
  | lambda h₁ h₂ h₃ hnames h₄ h₅ =>
    obtain ⟨hle, hascends⟩ := ascends_params h₃
    have hwords : Sweep E Γ p [] _ := h₁.sweep.append h₂.sweep
    exact {
      names := hnames
      inner := ⟨_, Nat.le_trans hwords.le_of_nil hle, hascends.mono hwords.le_of_nil (Nat.le_refl _),
        h₄.sweep.append (sweep_one h₅)⟩
      own := by simp [Node.lambdaOf, Node.own]
      reference := by simp [Node.lambdaOf, Node.reference] }
  | invoke h₁ h₂ h₃ | invokeMarked h₁ h₂ h₃ =>
    exact written_of_children (h₁.sweep.append ((sweep_one h₂).append h₃.sweep_exprs)) rfl rfl rfl rfl
  | expandable h₁ h₂ | compile h₁ h₂ =>
    exact written_of_children (h₁.sweep.append (sweep_one h₂)) rfl rfl rfl rfl
  | memberAccess kind h₁ h₂ h₃ =>
    refine written_of_children ?_ rfl rfl rfl rfl
    simpa [Node.children] using h₁.sweep.append (h₂.sweep.append h₃.sweep)
  | call h₁ h₂ h₃ h₄ h₅ h₆ h₇ =>
    refine written_of_children ?_ rfl rfl rfl rfl
    have hargs := h₃.sweep.append (h₄.sweep.append (h₅.sweep_exprs.append (h₆.sweep.append h₇.sweep)))
    simpa [Node.children] using h₁.sweep.append (h₂.sweep.append hargs)
  | construct h₁ h₂ => exact written_of_children (h₁.sweep.append h₂.sweep) rfl rfl rfl rfl
  | array h₁ h₂ h₃ | arrayBounds h₁ h₂ h₃ =>
    exact written_of_children (h₁.sweep.append (h₂.sweep.append h₃.sweep_exprs)) rfl rfl rfl rfl
  | @memberInit _ _ _ _ c bs h₁ h₂ h₃ =>
    have hbs : Sweep E Γ _ (bs.flatMap Binding.exprs) _ := h₃.sweep fun b _ _ _ hb => hb.sweep
    rw [← Binding.exprsOfAll_eq] at hbs
    exact written_of_children (h₁.sweep.append (h₂.sweep.append hbs)) rfl rfl rfl rfl
  | @listInit _ _ _ _ c es h₁ h₂ h₃ =>
    have hes : Sweep E Γ _ (es.flatMap (·.args)) _ := h₃.sweep fun i _ _ _ hi => hi.sweep
    exact written_of_children (h₁.sweep.append (h₂.sweep.append hes)) rfl rfl rfl rfl
  | extension h₁ h₂ h₃ =>
    exact written_of_children (h₁.sweep.append (h₂.sweep.append h₃.sweep)) rfl rfl rfl rfl

theorem Written.between {n : Node} {p₁ q₁ : Point} (h : Written E Γ p₁ n q₁) (hp : p.next ≤ p₁.next)
    (hq : q₁.next ≤ q.next) : Written E Γ p n q where
  names := h.names
  inner := by
    obtain ⟨m, hle, hascends, hsweep⟩ := h.inner
    refine ⟨m, Nat.le_trans hp hle, hascends.mono hp (Nat.le_refl _), ?_⟩
    have hrest : Sweep E (Γ.under n.params) q₁ [] q := .nil hq
    simpa using hsweep.append hrest
  own := h.own
  reference := h.reference

/-- A declared type changes nothing else. -/
theorem Written.annotated {n n' : Node} {t : Ty} (h : Written E Γ p n q) (ht : Annotated t n n') :
    Written E Γ p n' q := by
  cases ht <;> exact ⟨h.names, h.inner, h.own, h.reference⟩

theorem NodeAt.written {n : Node} (h : NodeAt E Γ p n q) : Written E Γ p n q := by
  cases h with
  | literal hl h =>
    cases hl <;> exact written_constant h.sweep nofun
  | var hv h =>
    have hsweep : Sweep E Γ p [] q := h.sweep
    refine ⟨List.nodup_nil, ⟨p, Nat.le_refl _, Parser.ascends_nil _ _, hsweep⟩, ?_, nofun⟩
    intro w hw
    obtain rfl := List.mem_singleton.1 hw
    exact ⟨_, hv⟩
  | closure _ hc h =>
    refine written_constant h.sweep ?_
    rintro d ⟨⟩
    exact ⟨_, hc⟩
  | form h₁ h₂ h₃ =>
    have hopen : Sweep E Γ p [] _ := h₁.sweep
    have hclose : Sweep E Γ _ [] q := h₃.sweep
    cases h₂ with
    | plain h => exact h.written.between hopen.le_of_nil hclose.le_of_nil
    | declared h hcolon hty hannotated =>
      have htail : Sweep E Γ _ [] q := hcolon.sweep.append (hty.sweep.append hclose)
      exact (h.written.between hopen.le_of_nil htail.le_of_nil).annotated hannotated

end Grammar

end ExprTree
