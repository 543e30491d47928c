import ExprTree.Proofs.Reprinting

/-!
# Names in a printed file

A printed file writes the variables of a tree, of the trees quoted in it, of the trees in the fields
of its closures, and the free variables that it declares. All of them have a name before the first
line is printed, so that the printer never writes the name that a variable came with
(`Printer.expr_of_names`, `Printer.closureDecl_of_names`), and no two of them share it
(`printed_names_unambiguous`). Nothing is asked of the tree: it need not come from a source, its
variables may have any names, and any part of it may be shared.
-/

namespace ExprTree

/-! ## The printer writes given names only -/

namespace Printer

variable {e : Expr} {ns : Names}

/-- A tree that is written in the file is printed from the given names alone. -/
theorem expr_of_names (hns : ∀ v, e.names.Has v → ns.name v = e.names.name v) {t : Expr}
    (ht : t ∈ e.printed) : expr ns t = expr e.names t := by
  have halike : PrintsAlike {} e.names ns t :=
    printsAlike (fun _ => rfl) t fun v hv => ⟨hns v (Names.has_ofTree ht hv), rfl⟩
  have hself : PrintsAlike {} ns ns t := printsAlike (fun _ => rfl) t fun _ _ => ⟨rfl, rfl⟩
  exact hself.1.symm.trans halike.1

/-- A payload of a closure of the file is printed from the given names alone. -/
theorem value_of_names (hns : ∀ v, e.names.Has v → ns.name v = e.names.name v) {c : Closure Value}
    (hc : c ∈ closuresOf e) {f : String × Value} (hf : f ∈ c.fields) :
    value ns f.2 = value e.names f.2 := by
  cases hv : f.2 with
  | tree t =>
    have ht : t ∈ e.printed := List.mem_append_left _ (List.mem_flatMap.2 ⟨c, hc,
      Closure.mem_ownTrees.2 ⟨f.1, hv ▸ hf⟩⟩)
    rw [value, value, expr_of_names hns ht]
  | _ => simp only [value]

/-- A closure of the file is declared from the given names alone. -/
theorem closureDecl_of_names (hns : ∀ v, e.names.Has v → ns.name v = e.names.name v)
    {c : Closure Value} (hc : c ∈ closuresOf e) : closureDecl ns c = closureDecl e.names c := by
  have hfields : c.fields.map (fun f => (f.1, value ns f.2)) =
      c.fields.map fun f => (f.1, value e.names f.2) :=
    List.map_congr_left fun f hf => congrArg (Prod.mk f.1) (value_of_names hns hc hf)
  rw [closureDecl, closureDecl, hfields]

end Printer

/-! ## The names of a file -/

/-- A name that may be given is cut into one identifier. -/
theorem tokenize_of_isPlainName {name : String} (h : isPlainName name = true) :
    (tokenize name).lexemes = [.ident name, .eof] ∧ (tokenize name).faults = [] :=
  (Lexer.spells_word (isWord_of_isPlainName h)).tokenize

theorem not_reserved_of_isPlainName {name : String} (h : isPlainName name = true) :
    name ∉ reservedWords := by
  unfold isPlainName at h
  split at h
  · cases h
  · simp only [Bool.and_eq_true, Bool.not_eq_true', List.contains_eq_mem,
      decide_eq_false_iff_not] at h
    exact h.2

/-- Each variable that a printed file writes has been given a name, and the text depends on no other
names. A name belongs to one variable, is cut into one identifier, is not reserved and is not the name
of a closure of the file. The search for a name ends. -/
theorem printed_names_unambiguous (e : Expr) :
    (∀ t ∈ e.printed, ∀ v ∈ t.gather Node.vars, e.names.Has v) ∧
    (∀ v ∈ e.names.free, e.names.Has v) ∧
    (∀ ns : Names, (∀ v, e.names.Has v → ns.name v = e.names.name v) →
      Printer.expr ns e = Printer.expr e.names e ∧
      (∀ c ∈ closuresOf e, Printer.closureDecl ns c = Printer.closureDecl e.names c) ∧
      ∀ v ∈ e.names.free, Printer.freeDecl ns v = Printer.freeDecl e.names v) ∧
    (∀ v w, e.names.Has v → e.names.Has w → e.names.name v = e.names.name w → v = w) ∧
    (∀ v, e.names.Has v →
      (tokenize (e.names.name v)).lexemes = [.ident (e.names.name v), .eof] ∧
      (tokenize (e.names.name v)).faults = [] ∧
      e.names.name v ∉ reservedWords ∧
      ∀ c ∈ closuresOf e, e.names.name v ≠ c.name) ∧
    ∀ taken base, ∃ n ≤ taken.length, Names.nthCandidate base n ∉ taken ∧
      (∀ m < n, Names.nthCandidate base m ∈ taken) ∧
      Names.unusedName taken base = Names.nthCandidate base n := by
  have hgiven := Names.given_ofTree (closuresOf e) e
  refine ⟨fun t ht v hv => Names.has_ofTree ht hv, fun v hv => Names.has_of_mem_free v hv,
    fun ns hns => ⟨?_, fun c hc => ?_, fun v hv => ?_⟩, fun v w => hgiven.name_inj, fun v hv => ?_,
    Names.exists_unusedName⟩
  · exact Printer.expr_of_names hns (List.mem_append_right _ (List.mem_singleton_self e))
  · exact Printer.closureDecl_of_names hns hc
  · rw [Printer.freeDecl, Printer.freeDecl, hns v (Names.has_of_mem_free v hv)]
  · have hplain := hgiven.isPlainName_name hv
    obtain ⟨hlexemes, hfaults⟩ := tokenize_of_isPlainName hplain
    refine ⟨hlexemes, hfaults, not_reserved_of_isPlainName hplain, fun c hc heq => ?_⟩
    exact hgiven.name_not_reserved hv (heq ▸ List.mem_map_of_mem hc)

-- two variables `x`, one with the name that the second of them gets, a reserved word and a closure `v`
example :
    let reads := [("x", 0), ("x", 1), ("x_1", 2), ("free", 3)].map fun v =>
      Expr.mk v.2 (.variable ⟨v.2, v.1, .int⟩)
    let closure := Expr.mk 4 (.constant (.closure ⟨0, "v", []⟩) (.named "v"))
    (Expr.mk 5 (.newArray .elements .int (reads ++ [closure]))).names.assigned.map (·.2) =
      ["v_1", "x_1_1", "x_1", "x"] := by
  decide +kernel

end ExprTree
