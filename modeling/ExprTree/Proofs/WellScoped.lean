import ExprTree.Proofs.PhraseParts
import ExprTree.Proofs.PrintedTree
import ExprTree.Proofs.RecognizedSources

/-!
# Names in a source

A name of a source stands for the parameter of that name of the innermost lambda around it, or else for the
variable that was declared under it. `Expr.Stands` lists the parameters around an expression, lambda by
lambda, and `Expr.ScopedIn` says of a tree that every name in it was looked up in this way, behind given
declarations.

`parseTree_wellScoped` says so of the tree of an accepted source, behind all declarations, and of the trees in
the fields of its closures, behind those before the closure. Identities are drawn in the order of the text, so
no two parameters have the same one.
-/

namespace ExprTree

open Grammar

/-! ## Scopes -/

/-- `a.Stands e around`: the expression `a` is written inside `e`, and `around` are the parameters of the nodes
around it up to `e`, those of the innermost node first. Only lambdas have any. -/
inductive Expr.Stands (a : Expr) : Expr → List (List Variable) → Prop
  | here : Stands a a []
  | inner {c e : Expr} {around : List (List Variable)} (mem : c ∈ e.inner) (stands : Stands a c around) :
      Stands a e (around ++ [e.node.params])

theorem Expr.Inside.stands {a e : Expr} (h : a.Inside e) : ∃ around, a.Stands e around := by
  induction h with
  | here => exact ⟨[], .here⟩
  | inner hc _ ih =>
    obtain ⟨around, hstands⟩ := ih
    exact ⟨_, .inner hc hstands⟩

/-- No lambda around has a parameter of this name. -/
def Unbound (around : List (List Variable)) (name : String) : Prop :=
  ∀ params ∈ around, ∀ p ∈ params, p.name ≠ name

/-- A lambda around owns the variable, and no lambda between has a parameter of the same name. -/
def BoundIn (around : List (List Variable)) (v : Variable) : Prop :=
  ∃ between params rest, around = between ++ params :: rest ∧ v ∈ params ∧ Unbound between v.name

/-- The closure is the one that is declared under its name. -/
def DeclaredIn (ds : List Declaration) (c : Closure Value) : Prop :=
  .closure c ∈ ds ∧ ∀ d, .closure d ∈ ds → d.name = c.name → d = c

/-- Behind the declarations `ds` every name in the tree stands for what it should. -/
structure Expr.ScopedIn (ds : List Declaration) (t : Expr) : Prop where
  /-- A variable belongs to a lambda around it, or it is declared, and nothing nearer has its name. -/
  vars : ∀ {a : Expr} {around : List (List Variable)} {v : Variable}, a.Stands t around →
    a.node = .variable v → BoundIn around v ∨ .free v ∈ ds ∧ Unbound around v.name
  /-- The parameters of a lambda have different names. -/
  params : ∀ {a : Expr} {around : List (List Variable)}, a.Stands t around →
    (a.node.params.map (·.name)).Nodup
  /-- A constant that is a closure refers to the one of its name. -/
  closures : ∀ {a : Expr} {around : List (List Variable)} {c : Closure Value} {ty : Ty}, a.Stands t around →
    a.node = .constant (.closure c) ty → DeclaredIn ds c

/-- The variables that a declaration makes: the one that it declares, or the parameters in the trees of the
closure that it declares. -/
def Grammar.Declaration.vars : Declaration → List Variable
  | .free v => [v]
  | .closure c => c.ownTrees.flatMap Expr.binders

/-- All names in a tree and in what is declared before it stand for what they should. -/
structure WellScoped (ds : List Declaration) (e : Expr) : Prop where
  /-- No identity is that of two variables: every parameter belongs to one lambda, at one position. -/
  unique : ((ds.flatMap Declaration.vars ++ e.binders).map (·.id)).Nodup
  tree : e.ScopedIn ds
  /-- The fields of a closure know what is declared before it. -/
  fields : ∀ {before after : List Declaration} {c : Closure Value}, ds = before ++ .closure c :: after →
    ∀ f ∈ c.fields, (∀ t, f.2 = .tree t → t.ScopedIn before) ∧ ∀ d, f.2 = .closure d → DeclaredIn before d
  /-- Every closure that the tree reaches is declared. -/
  reached : ∀ c, e.Reaches c → .closure c ∈ ds
  /-- Whatever stands within the tree is written inside it or inside a tree of a declared closure. -/
  covered : ∀ a : Expr, a.Within e →
    a.Inside e ∨ ∃ c, .closure c ∈ ds ∧ ∃ t ∈ c.ownTrees, a.Inside t

/-! ## Looking names up -/

namespace Grammar

variable {Γ : Env} {p q : Point}

/-- What names stand for inside nested lambdas. -/
def Env.inside (Γ : Env) (around : List (List Variable)) : Env :=
  around.foldr (fun params Δ => Δ.under params) Γ

theorem lookup_names {vs : List Variable} {name : String} {v : Variable}
    (h : (vs.map fun v => (v.name, v)).lookup name = some v) : v ∈ vs ∧ v.name = name := by
  obtain ⟨l₁, l₂, hsplit, -⟩ := List.lookup_eq_some_iff.1 h
  have hmem : (name, v) ∈ vs.map fun v => (v.name, v) := hsplit ▸ by simp
  obtain ⟨w, hw, heq⟩ := List.mem_map.1 hmem
  cases heq
  exact ⟨hw, rfl⟩

/-- A name that is looked up inside nested lambdas is that of a parameter, or it is looked up around them. -/
theorem Env.lookup_inside {around : List (List Variable)} {name : String} {v : Variable}
    (h : (Γ.inside around).scopes.lookup name = some v) :
    v.name = name ∧ BoundIn around v ∨ Γ.scopes.lookup name = some v ∧ Unbound around name := by
  induction around with
  | nil => exact .inr ⟨h, by simp [Unbound]⟩
  | cons params around ih =>
    have hscopes : (Γ.inside (params :: around)).scopes =
        params.reverse.map (fun v => (v.name, v)) ++ (Γ.inside around).scopes := rfl
    rw [hscopes, List.lookup_append] at h
    cases hfirst : (params.reverse.map fun v => (v.name, v)).lookup name with
    | some w =>
      rw [hfirst] at h
      cases h
      obtain ⟨hmem, hname⟩ := lookup_names hfirst
      exact .inl ⟨hname, [], params, around, rfl, List.mem_reverse.1 hmem, by simp [Unbound]⟩
    | none =>
      rw [hfirst] at h
      have hnot : ∀ p ∈ params, p.name ≠ name := by
        intro p hp
        rw [List.lookup_eq_none_iff] at hfirst
        have hne := hfirst (p.name, p) (List.mem_map.2 ⟨p, List.mem_reverse.2 hp, rfl⟩)
        exact fun heq => by simp [heq] at hne
      obtain ⟨hname, between, ps, rest, rfl, hv, hbetween⟩ | ⟨hlookup, haround⟩ := ih h
      · refine .inl ⟨hname, params :: between, ps, rest, rfl, hv, ?_⟩
        exact List.forall_mem_cons.2 ⟨hname ▸ hnot, hbetween⟩
      · exact .inr ⟨hlookup, List.forall_mem_cons.2 ⟨hnot, haround⟩⟩

/-! ## Expressions -/

theorem Sweep.exists_of_mem {E : Phrase Expr} {es : List Expr} (h : Sweep E Γ p es q) {e : Expr}
    (he : e ∈ es) : ∃ p₁ q₁, E Γ p₁ e q₁ := by
  induction h with
  | nil => cases he
  | cons _ hfirst _ ih =>
    rcases List.mem_cons.1 he with rfl | he
    · exact ⟨_, _, hfirst⟩
    · exact ih he

/-- Names are looked up where they stand. -/
theorem ExprAt.looksUp {levels : Nat} {a e : Expr} {around : List (List Variable)} (h : ExprAt levels Γ p e q)
    (ha : a.Stands e around) : (a.node.params.map (·.name)).Nodup ∧
      (∀ v ∈ a.node.own, ∃ name, (Γ.inside around).scopes.lookup name = some v) ∧
      ∀ c ∈ a.node.reference, ∃ name, Γ.closures.lookup name = some c := by
  induction levels generalizing Γ p e q around with
  | zero => exact h.elim
  | succ levels ih =>
    obtain ⟨n, p₁, hnode, hdrawn⟩ := h
    obtain ⟨rfl, -⟩ := hdrawn.node_eq
    cases ha with
    | here => exact ⟨hnode.written.names, hnode.written.own, hnode.written.reference⟩
    | inner hc ha =>
      obtain ⟨m, -, -, hsweep⟩ := hnode.written.inner
      obtain ⟨_, _, hchild⟩ := hsweep.exists_of_mem hc
      have hlooks := ih hchild ha
      unfold Env.inside
      rw [List.foldr_append]
      exact hlooks

/-- Identities are drawn in the order of the text. -/
theorem Sweep.ascends {E : Phrase Expr} {es : List Expr} (h : Sweep E Γ p es q)
    (hE : ∀ {p e q}, E Γ p e q → p.next ≤ q.next ∧ Parser.Ascends p.next q.next e.binders) :
    p.next ≤ q.next ∧ Parser.Ascends p.next q.next (es.flatMap Expr.binders) := by
  induction h with
  | nil hle => exact ⟨hle, Parser.ascends_nil _ _⟩
  | cons hle he _ ih =>
    obtain ⟨hle₁, hascends⟩ := hE he
    have hle₂ := Nat.le_trans hle hle₁
    exact ⟨Nat.le_trans hle₂ ih.1, (hascends.mono hle (Nat.le_refl _)).append ih.2 hle₂ ih.1⟩

theorem ExprAt.ascends {levels : Nat} {e : Expr} (h : ExprAt levels Γ p e q) :
    p.next ≤ q.next ∧ Parser.Ascends p.next q.next e.binders := by
  induction levels generalizing Γ p e q with
  | zero => exact h.elim
  | succ levels ih =>
    obtain ⟨n, p₁, hnode, hdrawn⟩ := h
    obtain ⟨rfl, hq⟩ := hdrawn.node_eq
    obtain ⟨m, hle, hparams, hsweep⟩ := hnode.written.inner
    obtain ⟨hle', hinner⟩ := hsweep.ascends ih
    have hbinders : e.binders = e.node.params ++ e.inner.flatMap Expr.binders := Expr.gather_eq _ e
    rw [hbinders]
    refine ⟨by omega, (hparams.append hinner hle hle').mono (Nat.le_refl _) (by omega)⟩

/-! ## Declarations -/

/-- Declarations one after the other, each behind those before it. -/
inductive DeclListAt : Env → Point → List Declaration → Point → Prop
  | nil {Γ : Env} {p : Point} : DeclListAt Γ p [] p
  | cons {Γ : Env} {p p₁ q : Point} {d : Declaration} {ds : List Declaration} : DeclAt Γ p d p₁ →
      DeclListAt (Γ.declare d) p₁ ds q → DeclListAt Γ p (d :: ds) q

/-- What names stand for behind declarations. -/
def Env.behind (Γ : Env) (ds : List Declaration) : Env := ds.foldl Env.declare Γ

theorem DeclListAt.split {before after : List Declaration} {d : Declaration}
    (h : DeclListAt Γ p (before ++ d :: after) q) :
    ∃ p₁ p₂, DeclListAt Γ p before p₁ ∧ DeclAt (Γ.behind before) p₁ d p₂ := by
  induction before generalizing Γ p with
  | nil =>
    cases h with
    | cons hd _ => exact ⟨_, _, .nil, hd⟩
  | cons d' before ih =>
    cases h with
    | cons hd' hrest =>
      obtain ⟨p₁, p₂, hbefore, hd⟩ := ih hrest
      exact ⟨p₁, p₂, .cons hd' hbefore, hd⟩

section Lookup

variable {ds : List Declaration} {name : String}

theorem Env.scopes_behind {v : Variable} (h : (Γ.behind ds).scopes.lookup name = some v) :
    .free v ∈ ds ∧ v.name = name ∨ Γ.scopes.lookup name = some v := by
  induction ds generalizing Γ with
  | nil => exact .inr h
  | cons d ds ih =>
    obtain ⟨hmem, hname⟩ | hlookup := ih h
    · exact .inl ⟨List.mem_cons_of_mem _ hmem, hname⟩
    · cases d with
      | closure c => exact .inr hlookup
      | free w =>
        rw [show (Γ.declare (.free w)).scopes = (w.name, w) :: Γ.scopes from rfl, List.lookup_cons] at hlookup
        split at hlookup
        · next heq =>
          cases hlookup
          exact .inl ⟨List.mem_cons_self, (beq_iff_eq.1 heq).symm⟩
        · exact .inr hlookup

theorem Env.closures_behind {c : Closure Value} (h : (Γ.behind ds).closures.lookup name = some c) :
    .closure c ∈ ds ∧ c.name = name ∨ Γ.closures.lookup name = some c := by
  induction ds generalizing Γ with
  | nil => exact .inr h
  | cons d ds ih =>
    obtain ⟨hmem, hname⟩ | hlookup := ih h
    · exact .inl ⟨List.mem_cons_of_mem _ hmem, hname⟩
    · cases d with
      | free v => exact .inr hlookup
      | closure e =>
        rw [show (Γ.declare (.closure e)).closures = (e.name, e) :: Γ.closures from rfl,
          List.lookup_cons] at hlookup
        split at hlookup
        · next heq =>
          cases hlookup
          exact .inl ⟨List.mem_cons_self, (beq_iff_eq.1 heq).symm⟩
        · exact .inr hlookup

/-- A closure is declared under its name, and no other has this name. -/
theorem DeclAt.lookup_none {c : Closure Value} (h : DeclAt Γ p (.closure c) q) :
    Γ.closures.lookup c.name = none := by
  cases h with
  | closure _ _ _ _ _ _ hnew hdrawn =>
    obtain ⟨rfl, -⟩ := hdrawn.closure_eq
    exact hnew

/-- Later declarations leave the meaning of a closure name as it is. -/
theorem DeclListAt.lookup_closure {c : Closure Value} (h : DeclListAt Γ p ds q)
    (hc : Γ.closures.lookup name = some c) : (Γ.behind ds).closures.lookup name = some c := by
  induction h with
  | nil => exact hc
  | @cons Γ p p₁ q d ds hd _ ih =>
    refine ih ?_
    cases d with
    | free v => exact hc
    | closure e =>
      have hne : (name == e.name) = false := by
        refine beq_eq_false_iff_ne.2 ?_
        rintro rfl
        rw [hd.lookup_none] at hc
        cases hc
      rw [show (Γ.declare (.closure e)).closures = (e.name, e) :: Γ.closures from rfl, List.lookup_cons, hne]
      exact hc

/-- Behind the declarations the name of each closure stands for it. -/
theorem DeclListAt.lookup_of_mem {c : Closure Value} (h : DeclListAt Γ p ds q) (hc : .closure c ∈ ds) :
    (Γ.behind ds).closures.lookup c.name = some c := by
  induction h with
  | nil => cases hc
  | cons hd hrest ih =>
    rcases List.mem_cons.1 hc with rfl | hc
    · exact hrest.lookup_closure (by simp [Env.declare])
    · exact ih hc

theorem DeclListAt.declared {c : Closure Value} (h : DeclListAt {} p ds q)
    (hc : (({} : Env).behind ds).closures.lookup name = some c) : DeclaredIn ds c := by
  obtain ⟨hmem, rfl⟩ | hnone := Env.closures_behind hc
  · refine ⟨hmem, fun d hd hname => ?_⟩
    have hd := h.lookup_of_mem hd
    rw [hname, hc] at hd
    exact (Option.some.inj hd).symm
  · cases hnone

end Lookup

/-- Behind declarations every name in an expression stands for what it should. -/
theorem ExprAt.scopedIn {ds : List Declaration} {levels : Nat} {t : Expr} {p₁ q₁ : Point}
    (hds : DeclListAt {} p ds q) (h : ExprAt levels (({} : Env).behind ds) p₁ t q₁) : t.ScopedIn ds where
  vars ha hnode := by
    obtain ⟨name, hlookup⟩ := (h.looksUp ha).2.1 _ (Node.mem_own.2 hnode)
    obtain ⟨-, hbound⟩ | ⟨hlookup, hunbound⟩ := Env.lookup_inside hlookup
    · exact .inl hbound
    · obtain ⟨hfree, rfl⟩ | hnone := Env.scopes_behind hlookup
      · exact .inr ⟨hfree, hunbound⟩
      · cases hnone
  params ha := (h.looksUp ha).1
  closures {a around c ty} ha hnode := by
    have hreference : c ∈ a.node.reference := by
      rw [hnode]
      exact List.mem_singleton_self c
    obtain ⟨name, hlookup⟩ := (h.looksUp ha).2.2 c hreference
    exact hds.declared hlookup

/-! ## Fields -/

theorem CommaList.exists_of_mem {α : Type} {R : Point → α → Point → Prop} {as : List α}
    (h : CommaList R p as q) {a : α} (ha : a ∈ as) : ∃ p₁ q₁, R p₁ a q₁ := by
  induction h with
  | nil => cases ha
  | last hfirst =>
    obtain rfl := List.mem_singleton.1 ha
    exact ⟨_, _, hfirst⟩
  | cons hfirst _ _ ih =>
    rcases List.mem_cons.1 ha with rfl | ha
    · exact ⟨_, _, hfirst⟩
    · exact ih ha

theorem FieldAt.sweep {f : String × Value} (h : FieldAt Γ p f q) :
    Sweep (ExprAt depth) Γ p (Parser.quotedTree f.2) q := by
  obtain ⟨h₁, h₂, h₃⟩ := h
  exact h₁.sweep.append (h₂.sweep.append h₃.sweep)

/-- The fields of a closure know what is declared before it. -/
theorem DeclAt.fields {ds : List Declaration} {c : Closure Value} {p₁ q₁ : Point}
    (hds : DeclListAt {} p ds q) (h : DeclAt (({} : Env).behind ds) p₁ (.closure c) q₁) :
    ∀ f ∈ c.fields, (∀ t, f.2 = .tree t → t.ScopedIn ds) ∧ ∀ d, f.2 = .closure d → DeclaredIn ds d := by
  intro f hf
  cases h with
  | closure _ _ _ hfields _ _ _ hdrawn =>
    obtain ⟨rfl, -⟩ := hdrawn.closure_eq
    obtain ⟨_, _, hfield⟩ := hfields.exists_of_mem hf
    refine ⟨fun t ht => ?_, fun d hd => ?_⟩
    · have hsweep := hfield.sweep
      rw [ht] at hsweep
      obtain ⟨_, _, hexpr⟩ := hsweep.exists_of_mem (List.mem_singleton_self t)
      exact hexpr.scopedIn hds
    · obtain ⟨-, -, hvalue⟩ := hfield
      obtain rfl : _ = Value.closure d := hd
      obtain ⟨name, hlookup⟩ := hvalue.lookup
      exact hds.declared hlookup

theorem DeclAt.ascends {d : Declaration} (h : DeclAt Γ p d q) :
    p.next ≤ q.next ∧ Parser.Ascends p.next q.next d.vars := by
  cases h with
  | free h₁ h₂ h₃ h₄ _ hdrawn =>
    have hwords : Sweep (fun _ _ _ _ => False) {} p [] _ :=
      h₁.sweep.append (h₂.sweep.append (h₃.sweep.append h₄.sweep))
    exact hdrawn.ascends hwords.le_of_nil
  | @closure _ _ _ _ _ _ _ fields _ h₁ h₂ h₃ h₄ _ h₅ _ hdrawn =>
    have hfields : Sweep (ExprAt depth) Γ _ (fields.flatMap fun f => Parser.quotedTree f.2) _ :=
      h₄.sweep fun f _ _ _ hf => hf.sweep
    have hsweep := h₁.sweep.append (h₂.sweep.append (h₃.sweep.append (hfields.append h₅.sweep)))
    simp only [List.nil_append, List.append_nil] at hsweep
    obtain ⟨hle, hascends⟩ := hsweep.ascends ExprAt.ascends
    obtain ⟨rfl, hq⟩ := hdrawn.closure_eq
    exact ⟨by omega, hascends.mono (Nat.le_refl _) (by omega)⟩

theorem DeclListAt.ascends {ds : List Declaration} (h : DeclListAt Γ p ds q) :
    p.next ≤ q.next ∧ Parser.Ascends p.next q.next (ds.flatMap Declaration.vars) := by
  induction h with
  | nil => exact ⟨Nat.le_refl _, Parser.ascends_nil _ _⟩
  | cons hd _ ih =>
    obtain ⟨hle, hascends⟩ := hd.ascends
    exact ⟨Nat.le_trans hle ih.1, hascends.append ih.2 hle ih.1⟩

end Grammar

/-! ## Reading declarations -/

namespace Parser

/-- A declaration is read, and what it declares is kept. -/
def noteStep (found : List Declaration) : Parser (List Declaration × Bool) := do
  let d ← declaration
  modify (declared · d)
  return (d.toList ++ found, true)

/-- Reads the declarations of a source, and gives what they declare. -/
def readDeclarations : Parser (List Declaration) := do
  let found ← iterate moreDecls noteStep []
  return found.reverse

theorem noteStep_run (found : List Declaration) (s : ParseState) : noteStep found s =
    (((declaration s).1.toList ++ found, true), behindDecl s) := rfl

/-- Keeping what is declared changes nothing else. -/
theorem iterate_noteStep (found : List Declaration) (acc : List Unit) (s : ParseState) :
    (iterate moreDecls noteStep found s).2 = (iterate moreDecls declStep acc s).2 := by
  have hstate : ∀ found acc s, (noteStep found s).2 = (declStep acc s).2 := by
    intro found acc s
    rw [declStep_run, noteStep_run]
  have hgoes : ∀ found s, (noteStep found s).1.2 = true := fun _ _ => rfl
  fun_induction iterate moreDecls declStep acc s generalizing found with
  | case1 acc s hmore r hgo hshorter ih =>
    rw [iterate, if_pos hmore]
    simp only [hgoes, reduceIte, hstate found acc s]
    rw [if_pos hshorter]
    exact ih _
  | case2 acc s hmore r hgo hstuck =>
    rw [iterate, if_pos hmore]
    simp only [hgoes, reduceIte, hstate found acc s]
    rw [if_neg hstuck]
  | case3 acc s hmore r hend => exact absurd (congrArg (·.1.2) (declStep_run acc s)) hend
  | case4 acc s hmore => rw [iterate, if_neg hmore]

theorem file_eq_lastExpr (s : ParseState) : file s = lastExpr (readDeclarations s).2 := by
  rw [file_run, ← iterate_noteStep [] []]
  rfl

/-- Declarations that are read without a report stand one after the other. -/
theorem declares_of_iterate (found : List Declaration) (s : ParseState) (hs : s.point.Ends)
    (hfaults : (iterate moreDecls noteStep found s).2.faults.size = s.faults.size) :
    ∃ ds, (iterate moreDecls noteStep found s).1 = ds.reverse ++ found ∧
      DeclListAt s.env s.point ds (iterate moreDecls noteStep found s).2.point ∧
      (iterate moreDecls noteStep found s).2.env = s.env.behind ds := by
  fun_induction iterate moreDecls noteStep found s with
  | case1 found s hmore r hgo hshorter ih =>
    have hle : s.faults.size ≤ r.2.faults.size := faults_le_behindDecl s
    have hle' : r.2.faults.size ≤ (iterate moreDecls noteStep r.1.1 r.2).2.faults.size :=
      iterate_invariant (I := fun _ s' => r.2.faults.size ≤ s'.faults.size)
        (fun found s' h => Nat.le_trans h (faults_le_behindDecl s')) r.1.1 r.2 (Nat.le_refl _)
    have hfirst : r.2.faults.size = s.faults.size := by omega
    obtain ⟨-, d, hfound, hd, henv⟩ := sound_behindDecl hs hfirst
    obtain ⟨ds, hacc, hds, hbehind⟩ := ih (ends_behindDecl hs) (hfaults.trans hfirst.symm)
    rw [show r.1.1 = d :: found from congrArg (Option.toList · ++ found) hfound] at hacc hds hbehind ⊢
    rw [show r.2.env = _ from henv] at hds hbehind
    exact ⟨d :: ds, by rw [hacc]; simp, .cons hd hds, hbehind⟩
  | case2 found s hmore r hgo hstuck => exact absurd (sound_behindDecl hs hfaults).1 hstuck
  | case3 found s hmore r hend => exact absurd rfl hend
  | case4 found s hmore => exact ⟨[], rfl, .nil, rfl⟩

/-- The declarations of an accepted source stand before its expression. -/
theorem declListAt_of_file {s s' : ParseState} {e : Expr} (hs : s.point.Ends) (henv : s.env = {})
    (hrun : file s = (e, s')) (hfaults : s'.faults.size = s.faults.size) :
    ∃ p q, DeclListAt {} s.point (readDeclarations s).1 p ∧
      ExprAt depth (({} : Env).behind (readDeclarations s).1) p e q := by
  rw [file_eq_lastExpr] at hrun
  have hle : s.faults.size ≤ (readDeclarations s).2.faults.size :=
    iterate_invariant (I := fun _ s₁ => s.faults.size ≤ s₁.faults.size)
      (fun found s₁ h => Nat.le_trans h (faults_le_behindDecl s₁)) [] s (Nat.le_refl _)
  have hends : (readDeclarations s).2.point.Ends :=
    iterate_invariant (I := fun _ s₁ => s₁.point.Ends) (fun found _ h => ends_behindDecl h) [] s hs
  have hleads := recognizes_lastExpr.leads (readDeclarations s).2
  have hlast := recognizes_lastExpr.sound (readDeclarations s).2 hends trivial
  rw [hrun] at hleads hlast
  have hle' : _ ≤ s'.faults.size := hleads.faults
  obtain ⟨ds, hfound, hds, hbehind⟩ := declares_of_iterate [] s hs (by
    show (readDeclarations s).2.faults.size = _
    omega)
  have hlist : (readDeclarations s).1 = ds := by
    show (iterate moreDecls noteStep [] s).1.reverse = ds
    simp [hfound]
  obtain ⟨hexpr, -⟩ := hlast (by show s'.faults.size = _; omega)
  rw [henv] at hds hbehind
  rw [hlist]
  exact ⟨_, _, hds, hbehind ▸ hexpr⟩

end Parser

/-! ## The tokens of a source -/

namespace Lexer

/-- The end of file comes last and nowhere else. -/
theorem run_ends (c : Cursor) : ∃ ls, (run c).tokens.map (·.lexeme) = ls ++ [.eof] ∧ .eof ∉ ls := by
  fun_induction run c with
  | case1 => exact ⟨[], rfl, by simp⟩
  | case2 c first rest h start s later token ih =>
    obtain ⟨ls, hls, heof⟩ := ih
    refine ⟨s.lexeme.toList ++ ls, ?_, ?_⟩
    · rw [List.map_append, hls, List.append_assoc]
      cases hlexeme : s.lexeme <;> simp [token, hlexeme]
    · rw [List.mem_append, Option.mem_toList]
      rintro (hfirst | hrest)
      · exact scan_ne_eof _ _ _ hfirst
      · exact heof hrest

end Lexer

/-! ## The tree of a source -/

/-- What a source declares, in the order of the text. -/
def declarationsOf (source : String) (supply : Supply) : List Declaration :=
  (Parser.readDeclarations { tokens := (tokenize source).tokens, supply }).1

/-- The closures among declarations. -/
def closuresIn (ds : List Declaration) : List (Closure Value) := ds.flatMap fun
  | .closure c => [c]
  | .free _ => []

theorem mem_closuresIn {ds : List Declaration} {c : Closure Value} : c ∈ closuresIn ds ↔ .closure c ∈ ds := by
  rw [closuresIn, List.mem_flatMap]
  constructor
  · rintro ⟨d, hd, hc⟩
    cases d with
    | free v => cases hc
    | closure d =>
      obtain rfl := List.mem_singleton.1 hc
      exact hd
  · exact fun hc => ⟨_, hc, List.mem_singleton_self c⟩

theorem Expr.ScopedIn.references {ds : List Declaration} {t : Expr} (h : t.ScopedIn ds) :
    ∀ c ∈ t.references, .closure c ∈ ds := by
  intro c hc
  obtain ⟨a, ha, hc⟩ := Expr.mem_gather.1 hc
  obtain ⟨around, hstands⟩ := ha.stands
  have hnode : ∃ ty, a.node = .constant (.closure c) ty := by
    obtain ⟨l, n⟩ := a
    cases n with
    | constant v ty =>
      cases v with
      | closure d =>
        obtain rfl := List.mem_singleton.1 hc
        exact ⟨ty, rfl⟩
      | _ => cases hc
    | _ => cases hc
  obtain ⟨ty, hnode⟩ := hnode
  exact (h.closures hstands hnode).1

/-- Trees and fields refer only to what is declared. -/
theorem closes_of_scoped {ds : List Declaration} {e : Expr} (htree : e.ScopedIn ds)
    (hfields : ∀ {before after : List Declaration} {c : Closure Value}, ds = before ++ .closure c :: after →
      ∀ f ∈ c.fields, (∀ t, f.2 = .tree t → t.ScopedIn before) ∧
        ∀ d, f.2 = .closure d → DeclaredIn before d) : Closes (closuresIn ds) e where
  references r hr := mem_closuresIn.2 (htree.references r hr)
  closures c hc r hr := by
    rw [mem_closuresIn] at hc ⊢
    obtain ⟨before, after, hsplit⟩ := List.append_of_mem hc
    obtain ⟨⟨name, v⟩, hf, hr⟩ := List.mem_flatMap.1 hr
    obtain ⟨htrees, hclosures⟩ := hfields hsplit _ hf
    rw [hsplit]
    refine List.mem_append_left _ ?_
    cases v with
    | tree t => exact (htrees t rfl).references r hr
    | closure d =>
      obtain rfl := List.mem_singleton.1 hr
      exact (hclosures r rfl).1
    | _ => cases hr

/-- Parsed trees are well scoped and their binders are unique. In an accepted source no two parameters have the
same identity, wherever they are written, and none has that of a declared variable. Every variable in the tree
belongs to a lambda around it, and no lambda between the two has a parameter of its name, or it is a declared
variable and no lambda around it has a parameter of its name. The same is true of the trees in the fields of a
closure, but for them only what is declared before the closure counts. Every closure that is referred to is the
one that was declared before under its name. Nothing that stands within the tree is left out. -/
theorem parseTree_wellScoped (source : String) (supply supply' : Supply) (e : Expr)
    (hparse : parseTree source supply = .ok (e, supply')) :
    WellScoped (declarationsOf source supply) e := by
  obtain ⟨-, s, hrun, hfaults, -⟩ := parseTree_eq_ok_iff.1 hparse
  have hends : (ParseState.point { tokens := (tokenize source).tokens, supply }).Ends := Lexer.run_ends _
  obtain ⟨p, q, hds, hexpr⟩ := Parser.declListAt_of_file hends rfl hrun hfaults
  change DeclListAt {} _ (declarationsOf source supply) p at hds
  change ExprAt depth (({} : Env).behind (declarationsOf source supply)) p e q at hexpr
  generalize declarationsOf source supply = ds at hds hexpr
  have htree : e.ScopedIn ds := hexpr.scopedIn hds
  have hfields : ∀ {before after : List Declaration} {c : Closure Value}, ds = before ++ .closure c :: after →
      ∀ f ∈ c.fields, (∀ t, f.2 = .tree t → t.ScopedIn before) ∧
        ∀ d, f.2 = .closure d → DeclaredIn before d := by
    intro before after c hsplit
    obtain ⟨p₁, p₂, hbefore, hclosure⟩ := (hsplit ▸ hds).split
    exact hclosure.fields hbefore
  have hcloses : Closes (closuresIn ds) e := closes_of_scoped htree hfields
  refine ⟨?_, htree, hfields, fun c ⟨a, ha, hc⟩ => mem_closuresIn.1 (hcloses.mem_of_within ha hc),
    fun a ha => ?_⟩
  · have hascends := hds.ascends.2.append hexpr.ascends.2 hds.ascends.1 hexpr.ascends.1
    exact List.pairwise_map.2 (hascends.sorted.imp Nat.ne_of_lt)
  · obtain ⟨t, ht, hinside⟩ := hcloses.inside ha
    rcases List.mem_append.1 ht with ht | ht
    · obtain ⟨c, hc, ht⟩ := List.mem_flatMap.1 ht
      exact .inr ⟨c, mem_closuresIn.1 hc, t, ht, hinside⟩
    · rw [List.mem_singleton.1 ht] at hinside
      exact .inl hinside

/-- Parameters that hide each other and a declared variable, in the tree, in a quoted tree and in a field, and a
closure that refers to another one. -/
def hidingNames : String :=
  "free n: Int closure E { p = (tree (lambda ((n Int)) n)) } " ++
    "closure F { e = E, q = (tree (lambda ((x Int)) n)) } " ++
    "(lambda ((x Int)) (call static C::f (x n F (tree (lambda ((x Int)) x))) Int))"

theorem parseTree_wellScoped_on_hidingNames :
    ∃ e supply, parseTree hidingNames {} = .ok (e, supply) ∧
      ((declarationsOf hidingNames {}).flatMap Declaration.vars).map (·.name) = ["n", "n", "x"] ∧
      e.binders.map (·.name) = ["x", "x"] ∧ WellScoped (declarationsOf hidingNames {}) e := by
  have hcheck : accepts hidingNames (fun e => e.binders.map (·.name) == ["x", "x"]) = true := by
    decide +kernel
  obtain ⟨e, supply, hparse, hbinders⟩ := exists_tree_of_accepts hcheck
  refine ⟨e, supply, hparse, by decide +kernel, beq_iff_eq.1 hbinders, ?_⟩
  exact parseTree_wellScoped hidingNames {} supply e hparse

end ExprTree
