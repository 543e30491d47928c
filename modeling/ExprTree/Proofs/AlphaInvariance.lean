import ExprTree.Proofs.Reading
import ExprTree.Proofs.Recasting

/-!
# Fingerprints and the names of parameters

In the bytes of a tree a bound variable is the distance to its binder, so other parameters give the
same bytes. A tree carried in a constant is an exception: it is written with no binder in scope, and
a parameter of a lambda outside it is given by its name there. So renaming keeps the fingerprint of
the tree of a source if it keeps the names of what carried trees expose
(`normalize_eq_of_renamed_parameters`), and may change it otherwise
(`normalize_ne_on_openTree`).
-/

namespace ExprTree

/-- Let the parameters in the tree of a source be replaced by other variables of the same types,
different ones for different ones, wherever they stand, and its closures be made anew. If the
replacements of variables that a carried tree exposes have the names of these variables, then the
bytes of the tree stay the same, and so does its digest under every hash. -/
theorem normalize_eq_of_renamed_parameters (source : String) (supply₀ supply : Supply) (e e' : Expr)
    (r : Recasting) (hparse : parseTree source supply₀ = .ok (e, supply))
    (hrecast : e'.recast {} = e.recast r) (hfaithful : r.Faithful e) (howner : r.owner = id)
    (hdeclared : ∀ v ∈ freeVariables source supply₀, r.var v = v)
    (hcarried : ∀ a : Expr, a.Within e → ∀ t ∈ a.node.quoted, ∀ v ∈ t.exposed,
      (r.var v).name = v.name) :
    e'.normalize = e.normalize ∧ ∀ hash, e'.digest hash = e.digest hash := by
  have hground := grounded_of_parseTree hparse
  have hnames : ∀ v, e.GivesByName v → (r.var v).name = v.name := by
    rintro v (hv | ⟨a, ha, t, ht, hv⟩)
    · rw [hdeclared v (hground.closed v (Expr.mem_freeVars_of_exposed hv))]
    · rcases Node.mem_payload.1 ht with hquoted | hcaptured
      · exact hcarried a ha t hquoted v hv
      · have hfree := (hground.seals a ha).captured_closed t hcaptured v
          (Expr.mem_freeVars_of_exposed hv)
        rw [hdeclared v hfree]
  have hbytes := Expr.normalize_eq_of_recast hrecast hfaithful howner hnames
  exact ⟨hbytes, Expr.digest_congr hbytes⟩

/-- Variables from the identity `base` on are replaced; the new ones have longer names, except those
for the identities `kept`. -/
def renamedFrom (base : Nat) (kept : List Nat) : Recasting where
  var v := if v.id < base then v else
    { v with id := v.id + base, name := if v.id ∈ kept then v.name else v.name ++ "_" }

theorem Variable.ext : ∀ {v w : Variable}, v.id = w.id → v.name = w.name → v.ty = w.ty → v = w
  | ⟨_, _, _⟩, ⟨_, _, _⟩, rfl, rfl, rfl => rfl

theorem faithful_renamedFrom (base : Nat) (kept : List Nat) (e : Expr) :
    (renamedFrom base kept).Faithful e where
  var_inj := by
    intro v w _ _ h
    have hid := congrArg Variable.id h
    have hname := congrArg Variable.name h
    have hty := congrArg Variable.ty h
    by_cases hv : v.id < base <;> by_cases hw : w.id < base <;>
      simp only [renamedFrom, hv, hw, if_true, if_false] at hid hname hty
    · exact Variable.ext hid hname hty
    · omega
    · omega
    · have hsame : v.id = w.id := by omega
      rw [hsame] at hname
      -- the same identity, so both names are kept or both are longer
      split at hname
      · exact Variable.ext hsame hname hty
      · exact Variable.ext hsame ((String.append_left_inj "_").1 hname) hty
  ty_eq v _ := by
    simp only [renamedFrom]
    split <;> rfl
  closure_inj _ _ _ _ h := h

theorem recast_renamedFrom (base : Nat) (kept : List Nat) (e : Expr) :
    (e.recast (renamedFrom base kept)).recast {} = e.recast (renamedFrom base kept) :=
  Expr.recast_recast _ {} e

/-- A parameter that stands in a carried tree. -/
def openTree : String := "(lambda ((x Int)) (tree x))"

/-- Replacing a parameter that a carried tree exposes by one of another name changes the bytes. -/
theorem normalize_ne_on_openTree :
    ∃ (e e' : Expr) (supply : Supply) (r : Recasting),
      parseTree openTree {} = .ok (e, supply) ∧ e'.recast {} = e.recast r ∧ r.Faithful e ∧ r.owner = id ∧
      (∀ v ∈ freeVariables openTree {}, r.var v = v) ∧ e'.normalize ≠ e.normalize := by
  have hcheck : accepts openTree (fun e =>
      decide ((e.recast (renamedFrom 0 [])).normalize ≠ e.normalize)) = true := by decide +kernel
  have hnone : freeVariables openTree {} = [] := by decide +kernel
  obtain ⟨e, supply, hparse, hbytes⟩ := exists_tree_of_accepts hcheck
  refine ⟨e, e.recast (renamedFrom 0 []), supply, renamedFrom 0 [], hparse,
    recast_renamedFrom 0 [] e, faithful_renamedFrom 0 [] e, rfl, ?_, of_decide_eq_true hbytes⟩
  simp [hnone]

/-- Two parameters called `x`, one shadowing the other, and a parameter `y` that a carried tree
exposes beside its own parameter `z`. -/
def shadowedParameters : String :=
  "free n: Int (lambda ((x Int) (y Int)) (invoke (lambda ((x Int)) " ++
    "(call static C::f (x y n (tree (lambda ((z Int)) (add y z)))) Int)) x))"

/-- All parameters are replaced, and all but `y` get another name. -/
theorem normalize_eq_on_shadowedParameters :
    ∃ (e e' : Expr) (supply : Supply), parseTree shadowedParameters {} = .ok (e, supply) ∧
      e'.recast {} = e.recast (renamedFrom 1 [2]) ∧
      (∃ a : Expr, a.Within e ∧ ∃ t ∈ a.node.quoted, ∃ v ∈ t.exposed, v.name = "y") ∧
      e'.normalize = e.normalize ∧ e'.fingerprint = e.fingerprint := by
  have hcheck : accepts shadowedParameters (fun e =>
      (e.within.all fun a => a.node.quoted.all fun t => t.exposed.all fun v => v.id == 2) &&
      e.within.any fun a => a.node.quoted.any fun t => t.exposed.any fun v => v.name == "y")
      = true := by decide +kernel
  have hdeclared : (freeVariables shadowedParameters {}).all (fun v => decide (v.id < 1)) = true := by
    decide +kernel
  obtain ⟨e, supply, hparse, hvars⟩ := exists_tree_of_accepts hcheck
  simp only [Bool.and_eq_true, List.all_eq_true, List.any_eq_true, beq_iff_eq, Expr.mem_within]
    at hvars
  simp only [List.all_eq_true, decide_eq_true_eq] at hdeclared
  obtain ⟨hbytes, hdigests⟩ := normalize_eq_of_renamed_parameters shadowedParameters {} supply e _
    (renamedFrom 1 [2]) hparse (recast_renamedFrom 1 [2] e) (faithful_renamedFrom 1 [2] e) rfl
    (fun v hv => if_pos (hdeclared v hv))
    fun a ha t ht v hv => by simp [renamedFrom, hvars.1 a ha t ht v hv]
  exact ⟨e, e.recast (renamedFrom 1 [2]), supply, hparse, recast_renamedFrom 1 [2] e, hvars.2, hbytes,
    hdigests Blake3.hash⟩

end ExprTree
