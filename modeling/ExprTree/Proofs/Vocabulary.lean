import ExprTree.Proofs.Derivation

/-!
# What an expanded tree is made of

The nodes that only expansion can interpret are *foreign* to its results (`Node.isForeign`). A
result is put together from rebuilt nodes, replacements, inlined bodies and resolved captures.
Replacements are results themselves and are not visited again, so the invariant is on the scope: no
replacement has a foreign node. One step of a derivation keeps it, and an induction on the
derivation gives it for the whole run (`Expands.plain`).
-/

namespace ExprTree

namespace Expr

/-- What holds of all nodes of a tree holds of its root and of all nodes of its children. -/
theorem forall_mem_nodes_iff {P : Expr → Prop} {e : Expr} :
    (∀ a ∈ e.nodes, P a) ↔ P e ∧ ∀ c ∈ e.children, ∀ a ∈ c.nodes, P a := by
  simp only [nodes_eq e, List.mem_cons, List.mem_flatten, List.mem_map, forall_eq_or_imp]
  constructor
  · rintro ⟨here, below⟩
    exact ⟨here, fun c hc a ha => below a ⟨_, ⟨c, hc, rfl⟩, ha⟩⟩
  · rintro ⟨here, below⟩
    refine ⟨here, ?_⟩
    rintro a ⟨_, ⟨c, hc, rfl⟩, ha⟩
    exact below c hc a ha

/-- No node of the tree is foreign. Trees in constants are not entered. -/
def Plain (e : Expr) : Prop := ∀ c ∈ e.nodes, c.node.isForeign = false

theorem plain_iff {e : Expr} : e.Plain ↔ e.node.isForeign = false ∧ ∀ c ∈ e.children, c.Plain :=
  forall_mem_nodes_iff

/-- An expression without children is plain if its node is. -/
theorem plain_of_leaf {e : Expr} (hforeign : e.node.isForeign = false) (hleaf : e.children = []) :
    e.Plain :=
  plain_iff.2 ⟨hforeign, by simp [hleaf]⟩

end Expr

@[simp] theorem Node.isForeign_shape (n : Node) : n.shape.isForeign = n.isForeign := by
  cases n <;> rfl

/-- Whatever expands in a scope of plain replacements expands to a plain tree. -/
theorem Expands.plain {watch : Watch} {n : Nat} {s : Scope} {e out : Expr}
    (h : Expands watch n s e out) (hscope : ∀ p ∈ s.bindings, p.2.Plain) : out.Plain := by
  induction h with
  | found _ hlookup => exact hscope _ (Scope.mem_bindings_of_lookup? hlookup)
  | unbound haction =>
    refine Expr.plain_of_leaf ?_ ?_
    · rw [Expr.node_of_look haction]
      rfl
    · rw [Expr.children, Expr.node_of_look haction]
      rfl
  | pass haction =>
    obtain ⟨value, ty, hnode⟩ := Expr.node_of_pass haction
    refine Expr.plain_of_leaf ?_ ?_
    · rw [hnode]
      rfl
    · rw [Expr.children, hnode]
      rfl
  | inline _ _ _ hlength _ hextend _ ihargs ihbody =>
    -- the body need not be part of `e`; what counts is that all replacements are plain
    refine ihbody (Scope.forall_bindings_extend hextend hscope fun r hr => ?_)
    obtain ⟨a, -, hpair⟩ := exists_mem_zip hlength hr
    exact ihargs _ hpair hscope
  | capture _ _ ih => exact ih hscope
  | unwrap _ _ ih => exact ih hscope
  | descend haction _ hshape hlength _ ih =>
    refine Expr.plain_iff.2 ⟨?_, fun c hc => ?_⟩
    · rw [← Node.isForeign_shape, hshape, Node.isForeign_shape]
      exact (Expr.plain_of_descend haction).1
    · obtain ⟨a, -, hpair⟩ := exists_mem_zip hlength hc
      exact ih _ hpair hscope

/-- The result of an expansion is plain. -/
theorem plain_of_expand {limit : Nat} {e : Expr} {supply supply' : Supply} {r : Expanded}
    (he : e.Coherent supply) (h : expand limit e supply = .ok (r, supply')) : r.tree.Plain :=
  (expands_of_expand he h).2.plain (by simp [Scope.root, Scope.bindings])

/-! ## The residue of a plain tree -/

namespace Residue

/-- Nothing that must be expanded is counted, captured reads aside. -/
structure NoneForeign (r : Residue) : Prop where
  invocations : r.invocations = 0
  invokeCalls : r.invokeCalls = 0
  expandableCalls : r.expandableCalls = 0

theorem NoneForeign.add {a b : Residue} (ha : a.NoneForeign) (hb : b.NoneForeign) :
    (a + b).NoneForeign where
  invocations := by
    show a.invocations + b.invocations = 0
    rw [ha.invocations, hb.invocations]
  invokeCalls := by
    show a.invokeCalls + b.invokeCalls = 0
    rw [ha.invokeCalls, hb.invokeCalls]
  expandableCalls := by
    show a.expandableCalls + b.expandableCalls = 0
    rw [ha.expandableCalls, hb.expandableCalls]

theorem NoneForeign.foldl {rs : List Residue} : ∀ {a : Residue}, a.NoneForeign →
    (∀ r ∈ rs, r.NoneForeign) → (rs.foldl (· + ·) a).NoneForeign := by
  induction rs with
  | nil => exact fun ha _ => ha
  | cons r rs ih =>
    intro a ha hrs
    exact ih (ha.add (hrs r (by simp))) fun x hx => hrs x (by simp [hx])

theorem noneForeign_ofNode {n : Node} (h : n.isForeign = false) : (ofNode n).NoneForeign := by
  cases n with
  | invocation => cases h
  | call object method args =>
    simp only [Node.isForeign, Bool.or_eq_false_iff, beq_eq_false_iff_ne] at h
    simp only [ofNode]
    split
    · exact absurd ‹_› h.1
    · exact absurd ‹_› h.2
    · exact ⟨rfl, rfl, rfl⟩
  | memberAccess object member =>
    simp only [ofNode]
    split <;> exact ⟨rfl, rfl, rfl⟩
  | _ => exact ⟨rfl, rfl, rfl⟩

end Residue

theorem Expr.Plain.residue {e : Expr} (h : e.Plain) : e.residue.NoneForeign := by
  induction e using Expr.childInduction with
  | step e ih =>
    obtain ⟨hforeign, hchildren⟩ := Expr.plain_iff.1 h
    rw [Expr.residue, Expr.fold_eq]
    refine (Residue.noneForeign_ofNode hforeign).foldl fun r hr => ?_
    obtain ⟨c, hc, rfl⟩ := List.mem_map.1 hr
    exact ih c hc (hchildren c hc)

/-- A successful expansion leaves no invocation, no marker call that invokes or marks a query, and
no node of unknown kind anywhere in its result, and accordingly none is counted as residue. -/
theorem expand_leaves_no_foreign_node (limit : Nat) (e : Expr) (supply supply' : Supply)
    (r : Expanded) (he : e.Coherent supply) (h : expand limit e supply = .ok (r, supply')) :
    (∀ c ∈ r.tree.nodes, c.kind ≠ .invocation ∧ c.kind ≠ .extension ∧
      ∀ object method args, c.node = .call object method args →
        method.marker ≠ some .invoke ∧ method.marker ≠ some .asExpandable) ∧
    r.tree.residue.invocations = 0 ∧ r.tree.residue.invokeCalls = 0 ∧
      r.tree.residue.expandableCalls = 0 := by
  have hplain : r.tree.Plain := plain_of_expand he h
  obtain ⟨hinvocations, hinvokes, hexpandables⟩ := hplain.residue
  refine ⟨fun c hc => ?_, hinvocations, hinvokes, hexpandables⟩
  have hforeign := hplain c hc
  obtain ⟨l, n⟩ := c
  refine ⟨?_, ?_, ?_⟩
  · intro hkind
    cases n <;> simp_all [Expr.kind, Node.kind, Node.isForeign]
  · intro hkind
    cases n <;> simp_all [Expr.kind, Node.kind, Node.isForeign]
  · rintro object method args hnode
    rw [hnode] at hforeign
    simpa [Node.isForeign] using hforeign

/-- The expansion of a marked query leaves the query. -/
theorem expand_marked_query_leaves_no_foreign_node :
    ∃ r supply', expand 2 (.mk 1 (.expandableOf (.mk 0 (.int 5)))) ⟨2⟩ = .ok (r, supply') ∧
      (∀ c ∈ r.tree.nodes, c.kind ≠ .invocation ∧ c.kind ≠ .extension ∧
        ∀ object method args, c.node = .call object method args →
          method.marker ≠ some .invoke ∧ method.marker ≠ some .asExpandable) ∧
      r.tree.residue.invocations = 0 ∧ r.tree.residue.invokeCalls = 0 ∧
        r.tree.residue.expandableCalls = 0 := by
  have hquery : Made ⟨1⟩ [.mk 0 (.int 5)] :=
    Made.node (.int 5) (.start ⟨0⟩) (by simp [Node.int, Node.children, Node.payload, Value.trees])
  have hmarked : Made ⟨2⟩ [.mk 1 (.expandableOf (.mk 0 (.int 5))), .mk 0 (.int 5)] :=
    hquery.node (.expandableOf (.mk 0 (.int 5)))
      (by simp [Node.expandableOf, Node.children, Node.payload])
  have hcoherent := hmarked.coherent List.mem_cons_self
  exact ⟨_, _, rfl, expand_leaves_no_foreign_node 2 _ _ _ _ hcoherent rfl⟩

end ExprTree
