import ExprTree.Proofs.FirstOrder
import ExprTree.Proofs.Residues
import ExprTree.Walk.Standard

/-!
# How deep the tree of a source is

The reader counts the expressions that it is inside of, and gives up on those that stand too deep. A walk
counts the nodes that it is inside of. The reader counts trees that constants hold as well, which a walk does
not enter, so a walk through the tree of an accepted source needs no more levels than the reader has
(`parseTree_nesting_limit`).
-/

namespace ExprTree

open Walk

/-! ## Chains -/

namespace Expr

/-- Expressions of which each is a child of the one before it, or the tree that the one before it holds as a
constant. -/
def Descends (chain : List Expr) : Prop :=
  chain.IsChain fun a c => c ∈ a.children ∨ ∃ ty, a.node = .constant (.tree c) ty

theorem mem_inner {c e : Expr} : c ∈ e.inner ↔ c ∈ e.children ∨ ∃ ty, e.node = .constant (.tree c) ty := by
  rw [inner, List.mem_append, Node.mem_quoted]

/-- No chain is longer than expressions nest. -/
theorem Descends.length_le {a : Expr} {chain : List Expr} (h : Descends (a :: chain)) :
    (a :: chain).length ≤ a.nesting := by
  induction chain generalizing a with
  | nil => exact a.nesting_pos
  | cons c chain ih =>
    obtain ⟨hc, hchain⟩ := List.isChain_cons_cons.1 h
    have hlt : c.nesting < a.nesting := nesting_lt_of_mem_inner (mem_inner.2 hc)
    have hle := ih hchain
    rw [List.length_cons]
    omega

theorem Inside.nesting_le {a e : Expr} (h : a.Inside e) : a.nesting ≤ e.nesting := by
  induction h with
  | here => exact Nat.le_refl _
  | inner hc _ ih => exact Nat.le_trans ih (Nat.le_of_lt (nesting_lt_of_mem_inner hc))

theorem height_le {e : Expr} {levels : Nat} (h : ∀ c ∈ e.children, c.height ≤ levels) :
    e.height ≤ levels + 1 := by
  by_contra hlow
  obtain ⟨c, hc, hlt⟩ := exists_child_of_lt_height (Nat.not_le.1 hlow)
  exact absurd (h c hc) (Nat.not_le.2 hlt)

/-- A walk enters fewer expressions than are written inside one another. -/
theorem height_le_nesting (e : Expr) : e.height ≤ e.nesting := by
  induction e using childInduction with
  | step e ih =>
    obtain ⟨levels, hlevels⟩ := Nat.exists_eq_add_one.2 e.nesting_pos
    rw [hlevels]
    refine height_le fun c hc => Nat.le_trans (ih c hc) ?_
    have hlt : c.nesting < e.nesting := nesting_lt_of_mem_inner (mem_inner.2 (.inl hc))
    omega

end Expr

/-- In the tree of a source no expression nests deeper than the reader goes, wherever it stands. -/
theorem FromSource.nesting_le {a e : Expr} (h : FromSource e) (ha : a.Within e) :
    a.nesting ≤ Parser.maxNesting := by
  obtain ⟨t, ht, hinside⟩ := h.closes.inside ha
  exact Nat.le_trans hinside.nesting_le (h.nesting t ht)

/-! ## Levels of a walk -/

/-- A walk that does nothing of its own at a node needs as many levels as the tree is high. -/
theorem Walker.ends_visit {σ : Type} {e : Expr} {levels : Nat} (h : e.height ≤ levels) :
    Ends levels (({} : Walker σ).visit e) fun _ => True := by
  induction e using Expr.childInduction generalizing levels with
  | step e ih =>
    obtain ⟨levels, rfl⟩ : ∃ n, levels = n + 1 := ⟨levels - 1, by rw [Expr.height_eq] at h; omega⟩
    have hchildren : Ends levels (Walk.children e fun c _ => ({} : Walker σ).visit c) fun _ => True :=
      Ends.children fun c hc => ih c hc (by have := Expr.height_lt_of_mem_children hc; omega)
    rw [Walker.visit]
    refine (ends_pure (Q := fun _ => True) trivial).bind fun _ _ => Ends.guarded ?_
    obtain ⟨l, n⟩ := e
    cases n with
    | constant | «variable» => exact ends_pure trivial
    | extension => exact ends_throw rfl
    | _ => exact hchildren

/-- Accepted trees are at most 256 deep. In the tree of a source, in the trees that its constants hold and in
those in the fields of the closures that it reaches, a chain that goes from an expression to a child of it or
to the tree that it holds has at most 256 members, wherever it starts. So the default walk of any of them, for
which 256 levels are let in, is never stopped for its depth. -/
theorem parseTree_nesting_limit (source : String) (supply supply' : Supply) (e : Expr)
    (hparse : parseTree source supply = .ok (e, supply')) (a : Expr) (ha : a.Within e) :
    (∀ chain, Expr.Descends (a :: chain) → (a :: chain).length ≤ 256) ∧
      ∀ (σ : Type) (own : σ) (supply : Supply) (limit : Nat),
        (({} : Walker σ).run (some 256) own a supply).1 ≠ .error (.depthExceeded limit) := by
  have hnesting : a.nesting ≤ 256 := (fromSource_of_parseTree hparse).nesting_le ha
  refine ⟨fun chain hchain => Nat.le_trans hchain.length_le hnesting, ?_⟩
  intro σ own supply limit hrun
  have hheight : a.height ≤ 256 := Nat.le_trans a.height_le_nesting hnesting
  change (({} : Walker σ).visit a ⟨supply, some ⟨256, 0⟩, own⟩).1 = _ at hrun
  obtain ⟨out, st, hyields, -⟩ | ⟨failure, ⟨st, hfails⟩, hown⟩ :=
    Walker.ends_visit (σ := σ) hheight ⟨supply, some ⟨256, 0⟩, own⟩ ⟨_, rfl, Nat.le_refl _⟩
  · rw [show ({} : Walker σ).visit a _ = _ from hyields] at hrun
    cases hrun
  · rw [hfails] at hrun
    cases hrun
    cases hown

/-- A closure that holds a tree with a quoted tree in it. -/
def quotedInField : String :=
  "closure E { p = (tree (lambda ((x Int)) (tree (lambda ((y Int)) (add x y))))) } (field E E::p Int)"

theorem parseTree_nesting_limit_on_quotedInField :
    ∃ e supply, parseTree quotedInField {} = .ok (e, supply) ∧ e.height = 2 ∧
      (∃ t : Expr, t.Within e ∧ t.nesting = 5) ∧ ∀ a : Expr, a.Within e →
        (∀ chain, Expr.Descends (a :: chain) → (a :: chain).length ≤ 256) ∧
        (Walker.plain.run (some 256) () a supply).1 ≠ .error (.depthExceeded 256) := by
  have hcheck : accepts quotedInField (fun e => e.height == 2 && e.within.any fun t => t.nesting == 5) =
      true := by decide +kernel
  obtain ⟨e, supply, hparse, hcheck⟩ := exists_tree_of_accepts hcheck
  simp only [Bool.and_eq_true, beq_iff_eq, List.any_eq_true, Expr.mem_within] at hcheck
  refine ⟨e, supply, hparse, hcheck.1, hcheck.2, fun a ha => ?_⟩
  obtain ⟨hchains, hruns⟩ := parseTree_nesting_limit quotedInField {} supply e hparse a ha
  exact ⟨hchains, hruns Unit () supply 256⟩

end ExprTree
