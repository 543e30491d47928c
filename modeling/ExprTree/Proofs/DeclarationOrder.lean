import ExprTree.Proofs.PrintedTree

/-!
# The closures that are declared before a tree

A printed tree is preceded by the declarations of its closures, and a declaration can only use what is
declared before it. `closuresOf_in_order` says that the list of closures is right for that: it
holds every closure that the tree reaches, through children, quoted trees and the fields of other
closures, it holds each one once and nothing else, and whatever the fields of a closure reach stands
before the closure.

The list comes out of one scan through a graph in which trees and closures alternate and closures are
shared. The scan looks for references only one step away; that the list is complete follows from its
order, since the part of it before a closure is closed under references (`Ordered.closes_behind`).
-/

namespace ExprTree

/-- The payload refers to the closure, perhaps through the fields of others or from inside a tree. -/
def Value.Reaches (v : Value) (c : Closure Value) : Prop :=
  c ∈ v.closures ∨ ∃ t ∈ v.trees, t.Reaches c

/-- A constant reaches what its payload reaches. -/
theorem Expr.reaches_constant {l : Nat} {v : Value} {ty : Ty} {c : Closure Value} :
    (Expr.mk l (.constant v ty)).Reaches c ↔ v.Reaches c := by
  constructor
  · rintro ⟨a, ha, hc⟩
    cases ha with
    | here => exact .inl hc
    | part ht ha => exact .inr ⟨_, ht, a, ha, hc⟩
  · rintro (hc | ⟨t, ht, a, ha, hc⟩)
    · exact ⟨_, .here _, hc⟩
    · exact ⟨a, .part ht ha, hc⟩

namespace Ordered

variable {D : Closure Value → Prop} {before cs : List (Closure Value)} {c : Closure Value}

theorem behind (h : Ordered D (before ++ c :: cs)) : Ordered D cs := by
  induction before with
  | nil =>
    cases h with
    | cons hrest => exact hrest
  | cons d before ih =>
    cases h with
    | cons hrest => exact ih hrest

/-- What stands behind a closure holds all that a constant with one of its fields refers to. -/
theorem closes_behind (h : Ordered D (before ++ c :: cs)) {f : String × Value} (hf : f ∈ c.fields) :
    Closes cs (.mk 0 (.constant f.2 .object)) where
  references r hr := by
    rw [Expr.references_constant rfl] at hr
    exact h.references_behind r (List.mem_flatMap.2 ⟨f, hf, hr⟩)
  closures := h.behind.closed

end Ordered

/-- Closures are declared once and before they are used. Let an identity stand for one closure among
those that a tree reaches. Then the list of the closures to be declared has no identity twice, holds
exactly the closures that the tree reaches, and has in front of each closure all that its fields
reach. -/
theorem closuresOf_in_order (e : Expr)
    (hid : ∀ c d, e.Reaches c → e.Reaches d → c.id = d.id → c = d) :
    ((closuresOf e).map (·.id)).Nodup ∧ (∀ c, c ∈ closuresOf e ↔ e.Reaches c) ∧
      ∀ before c after, closuresOf e = before ++ c :: after →
        ∀ f ∈ c.fields, ∀ d, f.2.Reaches d → d ∈ before := by
  have hapart : Apart e.Reaches := ⟨hid, fun c hc r hr => hc.references hr⟩
  obtain ⟨hordered, hreferences⟩ := ordered_closuresOf hapart (e := e) fun r hr =>
    Expr.reaches_of_mem_references (.here e) hr
  have hreached : ∀ c ∈ closuresOf e, e.Reaches c := fun c hc =>
    hordered.declared c (List.mem_reverse.2 hc)
  have hcloses : Closes (closuresOf e) e := ⟨hreferences, fun c hc r hr =>
    List.mem_reverse.1 (hordered.closed c (List.mem_reverse.2 hc) r hr)⟩
  refine ⟨?_, fun c => ⟨hreached c, hcloses.mem_of_reaches⟩, ?_⟩
  · refine List.Nodup.map_on (fun c hc d hd => hid c d (hreached c hc) (hreached d hd)) ?_
    exact List.nodup_reverse.1 hordered.nodup
  · intro before c after hsplit f hf d hd
    have hreversed : (closuresOf e).reverse = after.reverse ++ c :: before.reverse := by
      rw [hsplit]
      simp
    rw [hreversed] at hordered
    exact List.mem_reverse.1 ((hordered.closes_behind hf).mem_of_reaches (Expr.reaches_constant.2 hd))

/-- Two closures, the first of which the tree reaches in four ways: by itself, through a field of the
second one, and through trees that are quoted there and in the tree. -/
def sharedCaptures : String :=
  "closure A { n = 1 } closure B { t = (tree (tree A)), a = A } (array Object (tree B) A (tree A) B)"

theorem closuresOf_in_order_on_sharedCaptures :
    ∃ e supply, parseTree sharedCaptures {} = .ok (e, supply) ∧
      (closuresOf e).map (·.name) = ["A", "B"] ∧ ((closuresOf e).map (·.id)).Nodup ∧
      (∀ c, c ∈ closuresOf e ↔ e.Reaches c) ∧
      ∀ before c after, closuresOf e = before ++ c :: after →
        ∀ f ∈ c.fields, ∀ d, f.2.Reaches d → d ∈ before := by
  have hcheck : accepts sharedCaptures
      (fun e => (closuresOf e).map (·.name) == ["A", "B"]) = true := by decide +kernel
  obtain ⟨e, supply, hparse, hnames⟩ := exists_tree_of_accepts hcheck
  have hsource := fromSource_of_parseTree hparse
  exact ⟨e, supply, hparse, beq_iff_eq.1 hnames,
    closuresOf_in_order e fun c d hc hd => hsource.eq_of_id hc hd⟩

end ExprTree
