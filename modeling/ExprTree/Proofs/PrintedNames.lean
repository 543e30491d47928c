import Mathlib.Data.List.Nodup
import Mathlib.Data.List.Perm.Subperm
import ExprTree.Proofs.Recasting
import ExprTree.Proofs.ClosureOrder

/-!
# The names of printed variables

`Names.ofTree` names the variables of a tree and of the trees in its closures in the order in which
they are met. A name that was given stays (`Extends`), and at every moment the names given are
identifiers, differ from each other and from the names of closures, and the variables to be declared
are the top-level variables that have a name (`Fits`). One step of the scan keeps this (`Fits.enter`,
`Fits.occur`), so the scan does (`Fits.scan`), and the names of a tree keep its variables apart
(`given_ofTree`, `fits_ofTree`).
-/

namespace ExprTree

/-! ## Candidates -/

theorem isWord_of_isPlainName {name : String} (h : isPlainName name = true) : isWord name = true := by
  unfold isPlainName at h
  split at h
  · cases h
  · next c cs hname =>
    simp only [Bool.and_eq_true, Bool.not_eq_true', List.contains_eq_mem, decide_eq_false_iff_not] at h
    obtain ⟨⟨hfirst, hrest⟩, hreserved⟩ := h
    rw [isWord, isName, hname]
    simp only [hfirst, Bool.true_and, Bool.and_eq_true]
    refine ⟨?_, ?_⟩
    · have hnone : cs.dropWhile Lexer.isIdentRest = [] :=
        List.dropWhile_eq_nil_iff.2 (List.all_eq_true.1 hrest)
      rw [hnone]
      rfl
    · unfold Lexeme.keyword?
      split
      case h_7 => rfl
      all_goals exact absurd (by decide) hreserved

namespace Names

theorem toList_nthCandidate (base : String) (n : Nat) : (nthCandidate base n).toList =
    base.toList ++ if n = 0 then [] else '_' :: Nat.toDigits 10 n := by
  unfold nthCandidate
  split
  · next h => simp [beq_iff_eq.1 h]
  · next h =>
    rw [if_neg (fun hn => h (beq_iff_eq.2 hn))]
    simp only [String.toList_append, Nat.toString_eq_ofList_toDigits, String.toList_ofList,
      List.append_assoc]
    rfl

theorem nthCandidate_injective (base : String) : Function.Injective (nthCandidate base) := by
  intro m n h
  have hsuffix := congrArg String.toList h
  rw [toList_nthCandidate, toList_nthCandidate, List.append_cancel_left_eq] at hsuffix
  split at hsuffix <;> split at hsuffix
  · next hm hn => rw [hm, hn]
  · cases hsuffix
  · cases hsuffix
  · have hdigits : Nat.toDigits 10 m = Nat.toDigits 10 n := (List.cons.inj hsuffix).2
    rw [← Nat.ofDigitChars_ten_toDigits (n := m), hdigits, Nat.ofDigitChars_ten_toDigits]

theorem isPlainName_nthCandidate {base : String} (h : isPlainName base = true) (n : Nat) :
    isPlainName (nthCandidate base n) = true := by
  by_cases hn : n = 0
  · rw [hn]
    exact h
  have htext := toList_nthCandidate base n
  rw [if_neg hn] at htext
  unfold isPlainName at h ⊢
  split at h
  · cases h
  · next c cs hbase =>
    rw [hbase, List.cons_append] at htext
    simp only [Bool.and_eq_true, Bool.not_eq_true', List.contains_eq_mem, decide_eq_false_iff_not,
      List.all_eq_true] at h
    obtain ⟨⟨hfirst, hrest⟩, -⟩ := h
    rw [htext]
    simp only [hfirst, Bool.true_and, Bool.and_eq_true, Bool.not_eq_true', List.contains_eq_mem,
      decide_eq_false_iff_not, List.all_eq_true]
    refine ⟨?_, fun hreserved => ?_⟩
    · refine List.forall_mem_append.2 ⟨hrest, List.forall_mem_cons.2 ⟨rfl, fun d hd => ?_⟩⟩
      have hdigit : d.isDigit = true := Lexer.isDigit_of_mem_toDigits d hd
      simp [Lexer.isIdentRest, Char.isAlphanum, hdigit]
    · -- no reserved word has an underscore
      have hmarked : '_' ∈ (nthCandidate base n).toList := by simp [htext]
      have hunmarked : ∀ w ∈ reservedWords, '_' ∉ w.toList := by decide
      exact hunmarked _ hreserved hmarked

/-- The search for a name ends at the first candidate that is not taken, after at most as many steps
as there are taken names. -/
theorem exists_unusedName (taken : List String) (base : String) :
    ∃ n ≤ taken.length, nthCandidate base n ∉ taken ∧ (∀ m < n, nthCandidate base m ∈ taken) ∧
      unusedName taken base = nthCandidate base n := by
  unfold unusedName
  cases hfind : (List.range (taken.length + 1)).find? fun n => !taken.contains (nthCandidate base n) with
  | some n =>
    obtain ⟨hn, hrange, hlt⟩ := List.find?_range_eq_some.1 hfind
    refine ⟨n, ?_, by simpa using hn, fun m hm => by simpa using hlt m hm, rfl⟩
    have := List.mem_range.1 hrange
    omega
  | none =>
    -- there are more candidates than taken names
    have htaken : (List.range (taken.length + 1)).map (nthCandidate base) ⊆ taken := by
      intro name hname
      obtain ⟨n, hn, rfl⟩ := List.mem_map.1 hname
      simpa using List.find?_eq_none.1 hfind n hn
    have hnodup := List.Nodup.map (nthCandidate_injective base) (List.nodup_range (n := taken.length + 1))
    have hlength := (List.subperm_of_subset hnodup htaken).length_le
    simp only [List.length_map, List.length_range] at hlength
    omega

theorem unusedName_not_mem (taken : List String) (base : String) : unusedName taken base ∉ taken := by
  obtain ⟨n, -, hn, -, hname⟩ := exists_unusedName taken base
  rwa [hname]

theorem unusedName_of_not_mem {taken : List String} {base : String} (h : base ∉ taken) :
    unusedName taken base = base := by
  have hfind : (List.range (taken.length + 1)).find?
      (fun n => !taken.contains (nthCandidate base n)) = some 0 := by
    rw [List.range_succ_eq_map, List.find?_cons_of_pos]
    simpa [nthCandidate] using h
  rw [unusedName, hfind]
  rfl

/-- The name from which the candidates for a variable are made. -/
def base (v : Variable) : String := if isPlainName v.name then v.name else "v"

theorem isPlainName_base (v : Variable) : isPlainName (base v) = true := by
  unfold base
  split
  · assumption
  · decide

theorem assign_eq (ns : Names) (v : Variable) : ns.assign v =
    if (ns.assigned.lookup v).isSome then ns else
      { ns with
        assigned := (v, unusedName ns.taken (base v)) :: ns.assigned
        taken := unusedName ns.taken (base v) :: ns.taken } := rfl

/-! ## The scan -/

/-- Gives a parameter a name and binds it. -/
def enter (ns : Names) (v : Variable) : Names := { ns.assign v with bound := v :: ns.bound }

@[simp] theorem bound_assign (ns : Names) (v : Variable) : (ns.assign v).bound = ns.bound := by
  rw [assign_eq]
  split <;> rfl

@[simp] theorem free_assign (ns : Names) (v : Variable) : (ns.assign v).free = ns.free := by
  rw [assign_eq]
  split <;> rfl

@[simp] theorem bound_occur (ns : Names) (v : Variable) : (ns.occur v).bound = ns.bound := by
  unfold occur
  split
  · rfl
  · simp only
    split <;> simp

@[simp] theorem bound_foldl_occur (ns : Names) (vs : List Variable) :
    (vs.foldl occur ns).bound = ns.bound := by
  induction vs generalizing ns with
  | nil => rfl
  | cons v vs ih => rw [List.foldl_cons, ih, bound_occur]

@[simp] theorem bound_foldl_enter (ns : Names) (vs : List Variable) :
    (vs.foldl enter ns).bound = vs.reverse ++ ns.bound := by
  induction vs generalizing ns with
  | nil => rfl
  | cons v vs ih => rw [List.foldl_cons, ih, enter, List.reverse_cons, List.append_assoc]; rfl

theorem scan_variable {e : Expr} {v : Variable} (h : e.node = .variable v) (ns : Names) :
    scan e ns = ns.occur v := by
  obtain ⟨l, n⟩ := e
  obtain rfl : n = .variable v := h
  rw [scan]

theorem scan_lambda {e body : Expr} {params : List Variable} {ty : Ty}
    (h : e.node = .lambda params body ty) (ns : Names) :
    scan e ns = { scan body (params.foldl enter ns) with bound := ns.bound } := by
  obtain ⟨l, n⟩ := e
  obtain rfl : n = .lambda params body ty := h
  rw [scan]
  rfl

theorem scan_tree {e t : Expr} {ty : Ty} (h : e.node = .constant (.tree t) ty) (ns : Names) :
    scan e ns = scan t ns := by
  obtain ⟨l, n⟩ := e
  obtain rfl : n = .constant (.tree t) ty := h
  rw [scan]

theorem scan_children {e : Expr} (hown : e.node.own = [])
    (hlambda : ∀ ps b t, e.node ≠ .lambda ps b t) (hquoted : e.node.quoted = []) (ns : Names) :
    scan e ns = e.children.foldl (fun ns c => scan c ns) ns := by
  rw [scan.eq_4]
  · exact List.foldl_attach (f := fun ns c => scan c ns)
  · rintro l v rfl
    cases hown
  · rintro l ps b t rfl
    exact hlambda ps b t rfl
  · rintro l t ty rfl
    cases hquoted

/-- The four kinds of nodes that the scan tells apart. -/
theorem scan_cases (n : Node) : (∃ v, n = .variable v) ∨ (∃ ps b t, n = .lambda ps b t) ∨
    (∃ t ty, n = .constant (.tree t) ty) ∨
    n.own = [] ∧ n.params = [] ∧ (∀ ps b t, n ≠ .lambda ps b t) ∧ n.quoted = [] := by
  cases n with
  | «variable» v => exact .inl ⟨v, rfl⟩
  | lambda ps b t => exact .inr (.inl ⟨ps, b, t, rfl⟩)
  | constant v t =>
    cases v with
    | tree u => exact .inr (.inr (.inl ⟨u, t, rfl⟩))
    | _ => exact .inr (.inr (.inr ⟨rfl, rfl, by simp, rfl⟩))
  | _ => exact .inr (.inr (.inr ⟨rfl, rfl, by simp, rfl⟩))

@[simp] theorem bound_scan (e : Expr) : ∀ ns : Names, (scan e ns).bound = ns.bound := by
  induction e using Expr.innerInduction with
  | step e ih =>
    intro ns
    rcases scan_cases e.node with ⟨v, h⟩ | ⟨ps, b, t, h⟩ | ⟨u, t, h⟩ | ⟨hown, -, hlambda, hquoted⟩
    · rw [scan_variable h, bound_occur]
    · rw [scan_lambda h]
    · rw [scan_tree h]
      exact ih u (List.mem_append_right _ (by rw [h]; exact List.mem_singleton_self u)) ns
    · rw [scan_children hown hlambda hquoted]
      refine List.foldlRecOn (motive := fun ns' : Names => ns'.bound = ns.bound) _ _ rfl
        fun ns' hns' c hc => ?_
      rw [ih c (List.mem_append_left _ hc), hns']

theorem withBound_eq {ns ns' : Names} (h : ns'.bound = ns.bound) :
    { ns' with bound := ns.bound } = ns' := by
  rw [← h]

/-- At each expression the scan names the variable that occurs there, then the parameters, and then
what is written inside, where the parameters are bound. -/
theorem scan_eq (e : Expr) (ns : Names) : scan e ns =
    { e.inner.foldl (fun ns c => scan c ns) (e.node.params.foldl enter (e.node.own.foldl occur ns)) with
      bound := ns.bound } := by
  rcases scan_cases e.node with ⟨v, h⟩ | ⟨ps, b, t, h⟩ | ⟨u, t, h⟩ | ⟨hown, hparams, hlambda, hquoted⟩
  · rw [scan_variable h, Expr.inner, Expr.children, h]
    exact (withBound_eq (bound_occur ns v)).symm
  · rw [scan_lambda h, Expr.inner, Expr.children, h]
    rfl
  · rw [scan_tree h, Expr.inner, Expr.children, h]
    exact (withBound_eq (bound_scan u ns)).symm
  · rw [Expr.inner, hown, hparams, hquoted, List.append_nil]
    have hscan := scan_children hown hlambda hquoted ns
    refine Eq.trans ?_ (withBound_eq ?_).symm
    · exact hscan
    · exact hscan ▸ bound_scan e ns

/-! ## What the scan keeps -/

section Invariant

variable {P : Names → Prop} (hoccur : ∀ ns v, P ns → P (ns.occur v))
  (henter : ∀ ns v, P ns → P (ns.enter v)) (hbound : ∀ ns bound, P ns → P { ns with bound := bound })

include hoccur henter hbound

/-- What is kept where a variable is named and does not depend on what is bound, the scan keeps. -/
theorem scan_invariant (e : Expr) : ∀ {ns : Names}, P ns → P (scan e ns) := by
  induction e using Expr.innerInduction with
  | step e ih =>
    intro ns hns
    rw [scan_eq]
    refine hbound _ _ (List.foldlRecOn _ _ ?_ fun ns hns c hc => ih c hc hns)
    refine List.foldlRecOn _ _ ?_ fun ns hns v _ => henter ns v hns
    exact List.foldlRecOn _ _ hns fun ns hns v _ => hoccur ns v hns

end Invariant

/-- The variable has a name. -/
def Has (ns : Names) (v : Variable) : Prop := ∃ name, ns.assigned.lookup v = some name

/-- Names that were given stay. -/
def Extends (ns ns' : Names) : Prop :=
  ∀ v name, ns.assigned.lookup v = some name → ns'.assigned.lookup v = some name

section Extends

variable {ns ns₁ ns₂ : Names} {v : Variable}

theorem Extends.refl (ns : Names) : Extends ns ns := fun _ _ h => h

theorem Extends.trans (h : Extends ns ns₁) (h' : Extends ns₁ ns₂) : Extends ns ns₂ :=
  fun v name hv => h' v name (h v name hv)

theorem Extends.has (h : Extends ns ns₁) (hv : ns.Has v) : ns₁.Has v :=
  hv.imp fun name hname => h v name hname

theorem extends_foldl {α : Type} {f : Names → α → Names} {xs : List α}
    (h : ∀ x ∈ xs, ∀ ns, Extends ns (f ns x)) (ns : Names) : Extends ns (xs.foldl f ns) := by
  induction xs generalizing ns with
  | nil => exact .refl ns
  | cons x xs ih =>
    exact (h x List.mem_cons_self ns).trans (ih (fun y hy => h y (List.mem_cons_of_mem _ hy)) _)

theorem has_foldl {f : Names → Variable → Names} (hf : ∀ ns v, Extends ns (f ns v))
    (hhas : ∀ ns v, (f ns v).Has v) (vs : List Variable) (ns : Names) :
    ∀ v ∈ vs, (vs.foldl f ns).Has v := by
  induction vs generalizing ns with
  | nil => simp
  | cons v vs ih =>
    have hrest : Extends (f ns v) (vs.foldl f (f ns v)) := extends_foldl (fun v _ ns => hf ns v) _
    exact List.forall_mem_cons.2 ⟨hrest.has (hhas ns v), ih _⟩

theorem extends_assign (ns : Names) (v : Variable) : Extends ns (ns.assign v) := by
  rw [assign_eq]
  split
  · exact .refl ns
  · next hnone =>
    intro w name hw
    rw [List.lookup_cons]
    split
    · next heq =>
      rw [beq_iff_eq.1 heq] at hw
      exact absurd (Option.isSome_iff_exists.2 ⟨name, hw⟩) hnone
    · exact hw

theorem has_assign (ns : Names) (v : Variable) : (ns.assign v).Has v := by
  rw [assign_eq]
  split
  · next h => exact Option.isSome_iff_exists.1 h
  · exact ⟨_, List.lookup_cons_self⟩

theorem assigned_occur (ns : Names) (v : Variable) : (ns.occur v).assigned = (ns.assign v).assigned := by
  rw [occur]
  split
  · next h => rw [assign_eq, if_pos h]
  · simp only
    split <;> rfl

theorem extends_occur (ns : Names) (v : Variable) : Extends ns (ns.occur v) := by
  unfold Extends
  rw [assigned_occur]
  exact extends_assign ns v

theorem has_occur (ns : Names) (v : Variable) : (ns.occur v).Has v := by
  unfold Has
  rw [assigned_occur]
  exact has_assign ns v

theorem extends_enter (ns : Names) (v : Variable) : Extends ns (ns.enter v) := extends_assign ns v

theorem has_enter (ns : Names) (v : Variable) : (ns.enter v).Has v := has_assign ns v

theorem extends_scan (e : Expr) (ns : Names) : Extends ns (scan e ns) :=
  scan_invariant (P := Extends ns) (fun ns' v h => h.trans (extends_occur ns' v))
    (fun ns' v h => h.trans (extends_enter ns' v)) (fun _ _ h => h) e (.refl ns)

/-- All variables of an expression get names. -/
theorem has_scan (e : Expr) : ∀ (ns : Names), ∀ v ∈ e.gather Node.vars, (scan e ns).Has v := by
  induction e using Expr.innerInduction with
  | step e ih =>
    intro ns v hv
    have hinner : ∀ (es : List Expr) (ns : Names), (∀ c ∈ es, c ∈ e.inner) →
        Extends ns (es.foldl (fun ns c => scan c ns) ns) ∧
        ∀ v ∈ es.flatMap (Expr.gather Node.vars), (es.foldl (fun ns c => scan c ns) ns).Has v := by
      intro es
      induction es with
      | nil => exact fun ns _ => ⟨.refl ns, by simp⟩
      | cons c es ihes =>
        intro ns hes
        obtain ⟨hkept, hhas⟩ := ihes (scan c ns) fun d hd => hes d (List.mem_cons_of_mem _ hd)
        refine ⟨(extends_scan c ns).trans hkept, ?_⟩
        rw [List.flatMap_cons]
        refine List.forall_mem_append.2 ⟨fun v hv => hkept.has ?_, hhas⟩
        exact ih c (hes c List.mem_cons_self) ns v hv
    obtain ⟨hkept, hhas⟩ := hinner e.inner
      (e.node.params.foldl enter (e.node.own.foldl occur ns)) fun c hc => hc
    rw [scan_eq]
    rw [Expr.gather_eq, Node.vars, List.mem_append, List.mem_append] at hv
    rcases hv with (hv | hv) | hv
    · have hentered : Extends (e.node.own.foldl occur ns)
          (e.node.params.foldl enter (e.node.own.foldl occur ns)) :=
        extends_foldl (fun v _ ns => extends_enter ns v) _
      exact hkept.has (hentered.has (has_foldl extends_occur has_occur _ _ v hv))
    · exact hkept.has (has_foldl extends_enter has_enter _ _ v hv)
    · exact hhas v hv

end Extends

section OnlyNamed

variable {ns : Names} {v w : Variable}

theorem has_assign_iff : (ns.assign v).Has w ↔ ns.Has w ∨ w = v := by
  refine ⟨fun h => ?_, fun h => h.elim (extends_assign ns v).has fun h => h ▸ has_assign ns v⟩
  rw [assign_eq] at h
  split at h
  · exact .inl h
  · obtain ⟨name, hname⟩ := h
    rw [List.lookup_cons] at hname
    split at hname
    · next heq => exact .inr (beq_iff_eq.1 heq)
    · exact .inl ⟨name, hname⟩

theorem has_of_foldl {α : Type} {f : Names → α → Names} (vars : α → List Variable) {xs : List α}
    (hf : ∀ x ∈ xs, ∀ ns, (f ns x).Has v → ns.Has v ∨ v ∈ vars x) {ns : Names}
    (h : (xs.foldl f ns).Has v) : ns.Has v ∨ v ∈ xs.flatMap vars := by
  induction xs generalizing ns with
  | nil => exact .inl h
  | cons x xs ih =>
    rw [List.flatMap_cons, List.mem_append]
    rcases ih (fun y hy => hf y (List.mem_cons_of_mem _ hy)) h with h | h
    · exact (hf x List.mem_cons_self ns h).imp_right .inl
    · exact .inr (.inr h)

/-- Only the variables of an expression get names. -/
theorem has_of_scan (e : Expr) : ∀ {ns : Names}, (scan e ns).Has v → ns.Has v ∨ v ∈ e.gather Node.vars := by
  induction e using Expr.innerInduction with
  | step e ih =>
    intro ns h
    rw [scan_eq] at h
    have hstep : ∀ {f : Names → Variable → Names}, (∀ ns w, (f ns w).Has v → ns.Has v ∨ v = w) →
        ∀ {vs : List Variable} {ns : Names}, (vs.foldl f ns).Has v → ns.Has v ∨ v ∈ vs := by
      intro f hf vs ns h
      have hvs := has_of_foldl (fun w => [w])
        (fun w _ ns h => (hf ns w h).imp_right List.mem_singleton.2) h
      simpa using hvs
    have hoccur : ∀ (ns : Names) (w : Variable), (ns.occur w).Has v → ns.Has v ∨ v = w := by
      intro ns w h
      unfold Has at h
      rw [assigned_occur] at h
      exact has_assign_iff.1 h
    have henter : ∀ (ns : Names) (w : Variable), (ns.enter w).Has v → ns.Has v ∨ v = w :=
      fun ns w h => has_assign_iff.1 h
    rw [Expr.gather_eq, List.mem_append, Node.vars, List.mem_append]
    rcases has_of_foldl _ (fun c hc ns h => ih c hc h) h with h | h
    · rcases hstep henter h with h | h
      · exact (hstep hoccur h).imp_right fun h => .inl (.inl h)
      · exact .inr (.inl (.inr h))
    · exact .inr (.inr h)

end OnlyNamed

/-- The names given are identifiers that differ from each other and from the reserved ones. -/
structure Given (reserved : List String) (ns : Names) : Prop where
  taken : ns.taken = ns.assigned.map (·.2) ++ reserved
  nodup : (ns.assigned.map (·.2)).Nodup
  apart : ∀ b ∈ ns.assigned, b.2 ∉ reserved
  plain : ∀ b ∈ ns.assigned, isPlainName b.2 = true

section Given

variable {reserved : List String} {ns : Names} {v w : Variable}

theorem Given.assign (h : Given reserved ns) (v : Variable) : Given reserved (ns.assign v) := by
  rw [assign_eq]
  split
  · exact h
  · have hunused := unusedName_not_mem ns.taken (base v)
    have hsplit := hunused
    rw [h.taken, List.mem_append, not_or, ← h.taken] at hsplit
    exact ⟨by rw [h.taken]; rfl, List.nodup_cons.2 ⟨hsplit.1, h.nodup⟩,
      List.forall_mem_cons.2 ⟨hsplit.2, h.apart⟩,
      List.forall_mem_cons.2 ⟨isPlainName_nthCandidate (isPlainName_base v) _, h.plain⟩⟩

theorem Given.congr {ns' : Names} (h : Given reserved ns) (hassigned : ns'.assigned = ns.assigned)
    (htaken : ns'.taken = ns.taken) : Given reserved ns' := by
  obtain ⟨h₁, h₂, h₃, h₄⟩ := h
  rw [← hassigned] at h₁ h₂ h₃ h₄
  exact ⟨htaken.trans h₁, h₂, h₃, h₄⟩

theorem Given.occur (h : Given reserved ns) (v : Variable) : Given reserved (ns.occur v) := by
  unfold Names.occur
  split
  · exact h
  · simp only
    split
    · exact h.assign v
    · exact (h.assign v).congr rfl rfl

theorem mem_of_lookup {name : String} (h : ns.assigned.lookup v = some name) : (v, name) ∈ ns.assigned := by
  obtain ⟨l₁, l₂, hsplit, -⟩ := List.lookup_eq_some_iff.1 h
  simp [hsplit]

theorem Has.mem (h : ns.Has v) : (v, ns.name v) ∈ ns.assigned := by
  obtain ⟨name, hname⟩ := h
  rw [Names.name, hname]
  exact mem_of_lookup hname

/-- Different variables have different names. -/
theorem Given.name_inj (h : Given reserved ns) (hv : ns.Has v) (hw : ns.Has w)
    (heq : ns.name v = ns.name w) : v = w :=
  congrArg Prod.fst (List.inj_on_of_nodup_map h.nodup hv.mem hw.mem heq)

theorem Given.isPlainName_name (h : Given reserved ns) (hv : ns.Has v) :
    isPlainName (ns.name v) = true := h.plain _ hv.mem

theorem Given.name_not_reserved (h : Given reserved ns) (hv : ns.Has v) : ns.name v ∉ reserved :=
  h.apart _ hv.mem

end Given

/-- What is bound has a name, and the top-level variables with a name are those to be declared. -/
structure Fits (T : Variable → Prop) (reserved : List String) (ns : Names) : Prop
    extends Given reserved ns where
  bound : ∀ v ∈ ns.bound, ns.Has v
  free : ∀ v, v ∈ ns.free ↔ T v ∧ ns.Has v
  free_nodup : ns.free.Nodup

section Fits

variable {T : Variable → Prop} {reserved : List String} {ns : Names} {v : Variable}

theorem Fits.enter (h : Fits T reserved ns) (hv : ¬ T v) : Fits T reserved (ns.enter v) where
  toGiven := (h.toGiven.assign v).congr rfl rfl
  bound w hw := by
    refine has_assign_iff.2 ?_
    rcases List.mem_cons.1 hw with rfl | hw
    · exact .inr rfl
    · exact .inl (h.bound w hw)
  free w := by
    show w ∈ (ns.assign v).free ↔ T w ∧ (ns.assign v).Has w
    rw [free_assign, h.free, has_assign_iff]
    refine and_congr_right fun hw => ⟨.inl, fun h => h.resolve_right ?_⟩
    rintro rfl
    exact hv hw
  free_nodup := by
    show (ns.assign v).free.Nodup
    rw [free_assign]
    exact h.free_nodup

/-- A variable that has no name yet is not bound, so it is a top-level variable. -/
theorem Fits.occur (h : Fits T reserved ns) (hv : T v ∨ v ∈ ns.bound) :
    Fits T reserved (ns.occur v) := by
  unfold Names.occur
  split
  · exact h
  · next hnone =>
    have hnew : ¬ ns.Has v := fun hhas => hnone (Option.isSome_iff_exists.2 hhas)
    have hunbound : v ∉ ns.bound := fun hbound => hnew (h.bound v hbound)
    simp only [List.contains_eq_mem, hunbound, decide_false, Bool.false_eq_true, if_false]
    refine ⟨(h.toGiven.assign v).congr rfl rfl, fun w hw => ?_, fun w => ?_, ?_⟩
    · exact has_assign_iff.2 (.inl (h.bound w (bound_assign ns v ▸ hw)))
    · show w ∈ v :: (ns.assign v).free ↔ T w ∧ (ns.assign v).Has w
      rw [List.mem_cons, free_assign, h.free, has_assign_iff]
      constructor
      · rintro (rfl | ⟨hw, hhas⟩)
        · exact ⟨hv.resolve_right hunbound, .inr rfl⟩
        · exact ⟨hw, .inl hhas⟩
      · rintro ⟨hw, hhas | rfl⟩
        · exact .inr ⟨hw, hhas⟩
        · exact .inl rfl
    · show (v :: (ns.assign v).free).Nodup
      rw [free_assign]
      exact List.nodup_cons.2 ⟨fun hmem => hnew ((h.free v).1 hmem).2, h.free_nodup⟩

/-- Expressions that are scanned one after the other, each with the same variables bound. -/
theorem Fits.foldl_scan (es : List Expr) (bound : List Variable) (h : Fits T reserved ns)
    (hbound : ns.bound = bound) (hes : ∀ e ∈ es, ∀ {ns : Names}, Fits T reserved ns → ns.bound = bound →
      Fits T reserved (scan e ns)) : Fits T reserved (es.foldl (fun ns e => scan e ns) ns) := by
  refine (List.foldlRecOn (motive := fun ns => Fits T reserved ns ∧ ns.bound = bound) _ _
    ⟨h, hbound⟩ fun ns hns e he => ?_).1
  exact ⟨hes e he hns.1 hns.2, (bound_scan e ns).trans hns.2⟩

/-- The scan keeps this where every free variable is bound or a top-level variable, and no parameter
is a top-level variable. -/
theorem Fits.scan (e : Expr) : ∀ {ns : Names}, Fits T reserved ns →
    (∀ v ∈ e.freeVars, T v ∨ v ∈ ns.bound) → (∀ v ∈ e.binders, ¬ T v) →
    Fits T reserved (scan e ns) := by
  induction e using Expr.innerInduction with
  | step e ih =>
    intro ns h hfree hbinders
    have hown : Fits T reserved (e.node.own.foldl Names.occur ns) := by
      refine (List.foldlRecOn (motive := fun ns' => Fits T reserved ns' ∧ ns'.bound = ns.bound) _ _
        ⟨h, rfl⟩ fun ns' hns' v hv => ?_).1
      refine ⟨hns'.1.occur ?_, (bound_occur ns' v).trans hns'.2⟩
      rw [hns'.2]
      exact hfree v (Expr.mem_freeVars.2 (.inl hv))
    have hparams : Fits T reserved (e.node.params.foldl Names.enter (e.node.own.foldl Names.occur ns)) :=
      List.foldlRecOn (motive := Fits T reserved) _ _ hown fun ns' hns' v hv =>
        hns'.enter (hbinders v (Expr.mem_gather_here hv))
    -- inside, the parameters are bound too
    have hinner := hparams.foldl_scan e.inner
      (e.node.params.reverse ++ ns.bound) (by simp) fun c hc ns' hns' hbound =>
        ih c hc hns' (fun v hv => by
          rw [hbound, List.mem_append, List.mem_reverse]
          by_cases hparam : v ∈ e.node.params
          · exact .inr (.inl hparam)
          · exact (hfree v (Expr.mem_freeVars.2 (.inr ⟨hparam, c, hc, hv⟩))).imp_right .inr)
          fun v hv => hbinders v (Expr.mem_gather_of_inner hc hv)
    have houter := extends_scan e ns
    rw [scan_eq] at houter ⊢
    exact ⟨hinner.toGiven.congr rfl rfl, fun v hv => houter.has (h.bound v hv), hinner.free,
      hinner.free_nodup⟩

end Fits

/-! ## The names of a tree -/

/-- The trees that are scanned one after the other: those of the closures and then the tree itself. -/
def scanned (closures : List (Closure Value)) (e : Expr) : List Expr :=
  closures.flatMap Closure.ownTrees ++ [e]

theorem scanFields_eq {ns : Names} (h : ns.bound = []) (c : Closure Value) :
    ns.scanFields c = c.ownTrees.foldl (fun ns t => scan t ns) ns := by
  unfold scanFields Closure.ownTrees
  induction c.fields generalizing ns with
  | nil => rfl
  | cons f fields ih =>
    obtain ⟨name, v⟩ := f
    cases v with
    | tree t =>
      have hscan : ({ scan t { ns with bound := [] } with bound := ns.bound } : Names) = scan t ns := by
        rw [← h]
        exact withBound_eq (bound_scan t ns)
      rw [List.foldl_cons, List.flatMap_cons, List.foldl_append]
      simp only [hscan]
      exact ih ((bound_scan t ns).trans h)
    | _ => exact ih h

theorem ofTree_eq (closures : List (Closure Value)) (e : Expr) : ofTree closures e =
    (scanned closures e).foldl (fun ns t => scan t ns) { taken := closures.map (·.name) } := by
  have hclosures : ∀ ns : Names, ns.bound = [] → closures.foldl scanFields ns =
      (closures.flatMap Closure.ownTrees).foldl (fun ns t => scan t ns) ns := by
    induction closures with
    | nil => exact fun _ _ => rfl
    | cons c closures ih =>
      intro ns h
      rw [List.foldl_cons, List.flatMap_cons, List.foldl_append, scanFields_eq h]
      refine ih _ ?_
      exact List.foldlRecOn (motive := fun ns : Names => ns.bound = []) _ _ h fun ns' hns' t _ =>
        (bound_scan t ns').trans hns'
  rw [ofTree, scanned, List.foldl_append, hclosures _ rfl]
  rfl

/-- Only the variables of the scanned trees get names. -/
theorem exists_of_has {closures : List (Closure Value)} {e : Expr} {v : Variable}
    (h : (ofTree closures e).Has v) : ∃ t ∈ scanned closures e, v ∈ t.gather Node.vars := by
  rw [ofTree_eq] at h
  rcases has_of_foldl _ (fun t _ ns h => has_of_scan t h) h with h | h
  · obtain ⟨_, hname⟩ := h
    cases hname
  · exact List.mem_flatMap.1 h

/-- What the scan keeps holds of the names of a tree. -/
theorem ofTree_invariant {P : Names → Prop} (hoccur : ∀ ns v, P ns → P (ns.occur v))
    (henter : ∀ ns v, P ns → P (ns.enter v)) (hbound : ∀ ns bound, P ns → P { ns with bound := bound })
    {closures : List (Closure Value)} (e : Expr) (hstart : P { taken := closures.map (·.name) }) :
    P (ofTree closures e) := by
  rw [ofTree_eq]
  exact List.foldlRecOn _ _ hstart fun ns hns t _ => scan_invariant hoccur henter hbound t hns

/-- All variables of the scanned trees get names. -/
theorem has_ofTree {closures : List (Closure Value)} {e t : Expr} (ht : t ∈ scanned closures e)
    {v : Variable} (hv : v ∈ t.gather Node.vars) : (ofTree closures e).Has v := by
  rw [ofTree_eq]
  obtain ⟨before, after, hsplit⟩ := List.append_of_mem ht
  rw [hsplit, List.foldl_append, List.foldl_cons]
  exact (extends_foldl (fun t _ ns => extends_scan t ns) _).has (has_scan t _ v hv)

/-- The names of a tree are identifiers that differ from each other and from the names of closures. -/
theorem given_ofTree (closures : List (Closure Value)) (e : Expr) :
    Given (closures.map (·.name)) (ofTree closures e) :=
  ofTree_invariant (fun _ v h => h.occur v) (fun _ v h => (h.assign v).congr rfl rfl)
    (fun _ _ h => h.congr rfl rfl) e ⟨rfl, .nil, by simp, by simp⟩

/-- The variables to be declared have names. -/
theorem has_of_mem_free {closures : List (Closure Value)} {e : Expr} :
    ∀ v ∈ (ofTree closures e).free, (ofTree closures e).Has v := by
  refine ofTree_invariant (P := fun ns => ∀ v ∈ ns.free, ns.Has v) (fun ns v h => ?_)
    (fun ns v h w hw => ?_) (fun _ _ h => h) e (by simp)
  · rw [occur]
    split
    · exact h
    · have hassigned : ∀ w ∈ (ns.assign v).free, (ns.assign v).Has w := fun w hw =>
        (extends_assign ns v).has (h w (free_assign ns v ▸ hw))
      simp only
      split
      · exact hassigned
      · exact List.forall_mem_cons.2 ⟨has_assign ns v, hassigned⟩
  · exact (extends_enter ns v).has (h w (free_assign ns v ▸ hw))

/-- If the free variables of the scanned trees are top-level variables and their parameters are not,
then the top-level variables among those that get names are the ones that are declared. -/
theorem fits_ofTree {T : Variable → Prop} {closures : List (Closure Value)} {e : Expr}
    (hfree : ∀ t ∈ scanned closures e, ∀ v ∈ t.freeVars, T v)
    (hbinders : ∀ t ∈ scanned closures e, ∀ v ∈ t.binders, ¬ T v) :
    Fits T (closures.map (·.name)) (ofTree closures e) := by
  have hstart : Fits T (closures.map (·.name)) { taken := closures.map (·.name) } :=
    ⟨⟨rfl, .nil, by simp, by simp⟩, by simp, fun v => by simp [Has], .nil⟩
  rw [ofTree_eq]
  exact hstart.foldl_scan (scanned closures e) _ rfl fun t ht _ hns _ =>
    hns.scan t (fun v hv => .inl (hfree t ht v hv)) (hbinders t ht)

end Names

end ExprTree
