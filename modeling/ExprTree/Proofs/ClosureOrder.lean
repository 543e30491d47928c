import ExprTree.Surface.Naming
import ExprTree.Proofs.Acceptance

/-!
# The order of closures

A closure is made after everything in its fields, so the closures that its fields refer to are smaller
than it is. So the scan for the closures of a tree never comes back to a closure whose fields it is
still looking at, and it lists each closure that the tree refers to once, behind those that its fields
refer to (`ordered_closuresOf`). All it needs is that an identity stands for one closure, as it does
among the closures of a source (`Settled.apart`).

While the fields of a closure are scanned, everything that was met is settled, or it lies on the way
from the root and is not smaller than the closure. This is what `Fits` says for a bound on the size of
the closures that can still be met.
-/

namespace ExprTree

/-! ## References -/

/-- The closures that a payload refers to. -/
def Value.references : Value → List (Closure Value)
  | .tree t => t.references
  | .closure c => [c]
  | _ => []

/-- The closures that the fields of a closure refer to. -/
def Closure.references (c : Closure Value) : List (Closure Value) :=
  c.fields.flatMap fun f => f.2.references

theorem Expr.sizeOf_lt_of_mem_references {r : Closure Value} {e : Expr} (h : r ∈ e.references) :
    sizeOf r < sizeOf e := by
  induction e using innerInduction with
  | step e ih =>
    rw [references, gather_eq, List.mem_append, List.mem_flatMap] at h
    rcases h with h | ⟨c, hc, h⟩
    · obtain ⟨l, n⟩ := e
      cases n with
      | constant v t =>
        cases v with
        | closure c =>
          obtain rfl := List.mem_singleton.1 h
          simp only [Expr.mk.sizeOf_spec, Node.constant.sizeOf_spec, Value.closure.sizeOf_spec]
          omega
        | _ => cases h
      | _ => cases h
    · exact Nat.lt_trans (ih c hc h) (sizeOf_lt_of_mem_inner hc)

theorem Value.sizeOf_lt_of_mem_references {r : Closure Value} {v : Value} (h : r ∈ v.references) :
    sizeOf r < sizeOf v := by
  cases v with
  | tree t =>
    have hlt : sizeOf r < sizeOf t := Expr.sizeOf_lt_of_mem_references h
    simp only [Value.tree.sizeOf_spec]
    omega
  | closure c =>
    obtain rfl := List.mem_singleton.1 h
    simp only [Value.closure.sizeOf_spec]
    omega
  | _ => cases h

/-- The closures that the fields of a closure refer to are smaller. -/
theorem Closure.sizeOf_lt_of_mem_references {c r : Closure Value} (h : r ∈ c.references) :
    sizeOf r < sizeOf c := by
  obtain ⟨f, hf, hr⟩ := List.mem_flatMap.1 h
  exact Nat.lt_trans (Value.sizeOf_lt_of_mem_references hr) (Closure.sizeOf_lt_of_mem hf)

/-- The closures of a set have different identities, and their fields refer to closures of the
set. -/
structure Apart (D : Closure Value → Prop) : Prop where
  inj : ∀ c d, D c → D d → c.id = d.id → c = d
  references : ∀ c, D c → ∀ r ∈ c.references, D r

/-- Closures of a set, each one once and before those that its fields refer to. -/
inductive Ordered (D : Closure Value → Prop) : List (Closure Value) → Prop
  | nil : Ordered D []
  | cons {c : Closure Value} {cs : List (Closure Value)} (rest : Ordered D cs) (declared : D c)
      (new : c ∉ cs) (references : ∀ r ∈ c.references, r ∈ cs) : Ordered D (c :: cs)

section Ordered

variable {D : Closure Value → Prop} {cs : List (Closure Value)}

theorem Ordered.declared (h : Ordered D cs) : ∀ c ∈ cs, D c := by
  induction h with
  | nil => simp
  | cons _ hc _ _ ih => exact List.forall_mem_cons.2 ⟨hc, ih⟩

theorem Ordered.nodup (h : Ordered D cs) : cs.Nodup := by
  induction h with
  | nil => exact .nil
  | cons _ _ hnew _ ih => exact List.nodup_cons.2 ⟨hnew, ih⟩

/-- What a closure in the list refers to stands behind it. -/
theorem Ordered.references_behind {before : List (Closure Value)} {c : Closure Value}
    (h : Ordered D (before ++ c :: cs)) : ∀ r ∈ c.references, r ∈ cs := by
  induction before with
  | nil =>
    cases h with
    | cons _ _ _ hreferences => exact hreferences
  | cons d before ih =>
    cases h with
    | cons hrest => exact ih hrest

end Ordered

/-! ## The scan -/

namespace ClosureScan

variable {D : Closure Value → Prop} {n : Nat} {s s₁ s₂ : ClosureScan}
  {rs rs' : List (Closure Value)}

/-- The settled closures are in order, and what was met but is not settled has at least the size
`n`. -/
structure Fits (D : Closure Value → Prop) (n : Nat) (s : ClosureScan) : Prop where
  ordered : Ordered D s.settled
  settled : ∀ c ∈ s.settled, c.id ∈ s.seen
  seen : ∀ i ∈ s.seen, (∃ c ∈ s.settled, c.id = i) ∨ ∃ c, D c ∧ c.id = i ∧ n ≤ sizeOf c

/-- From the first state to the second, the given closures are settled, and none of at least the size
`n`. -/
structure Settles (D : Closure Value → Prop) (n : Nat) (rs : List (Closure Value))
    (s s' : ClosureScan) : Prop where
  fits : Fits D n s'
  kept : ∀ c ∈ s.settled, c ∈ s'.settled
  seen_kept : ∀ i ∈ s.seen, i ∈ s'.seen
  references : ∀ c ∈ rs, c ∈ s'.settled
  new : ∀ c ∈ s'.settled, c ∈ s.settled ∨ sizeOf c < n
  seen : ∀ i ∈ s'.seen, i ∈ s.seen ∨ ∃ c ∈ s'.settled, c.id = i

theorem Fits.settles (h : Fits D n s) (hrs : ∀ c ∈ rs, c ∈ s.settled) : Settles D n rs s s where
  fits := h
  kept _ hc := hc
  seen_kept _ hi := hi
  references := hrs
  new _ hc := .inl hc
  seen _ hi := .inl hi

theorem Settles.trans (h : Settles D n rs s s₁) (h' : Settles D n rs' s₁ s₂) :
    Settles D n (rs ++ rs') s s₂ where
  fits := h'.fits
  kept c hc := h'.kept c (h.kept c hc)
  seen_kept i hi := h'.seen_kept i (h.seen_kept i hi)
  references := List.forall_mem_append.2 ⟨fun c hc => h'.kept c (h.references c hc), h'.references⟩
  new c hc := (h'.new c hc).elim (h.new c) .inr
  seen i hi := (h'.seen i hi).elim
    (fun hi => (h.seen i hi).imp_right (Exists.imp fun c hc => ⟨h'.kept c hc.1, hc.2⟩)) .inr

theorem settles_foldl {α : Type} {f : ClosureScan → α → ClosureScan}
    {R : α → List (Closure Value)} {xs : List α}
    (h : ∀ x ∈ xs, ∀ s, Fits D n s → Settles D n (R x) s (f s x)) (hs : Fits D n s) :
    Settles D n (xs.flatMap R) s (xs.foldl f s) := by
  induction xs generalizing s with
  | nil => exact hs.settles (by simp)
  | cons x xs ih =>
    have hx := h x List.mem_cons_self s hs
    exact hx.trans (ih (fun y hy => h y (List.mem_cons_of_mem _ hy)) hx.fits)

/-- A closure that was met before is settled: it does not lie on the way. -/
theorem Fits.settled_of_seen (hD : Apart D) (h : Fits D n s) {c : Closure Value} (hc : D c)
    (hlt : sizeOf c < n) (hseen : c.id ∈ s.seen) : c ∈ s.settled := by
  rcases h.seen c.id hseen with ⟨d, hd, hid⟩ | ⟨d, hd, hid, hle⟩
  · rwa [← hD.inj d c (h.ordered.declared d hd) hc hid]
  · rw [hD.inj d c hd hc hid] at hle
    exact absurd hlt (Nat.not_lt.2 hle)

/-- A new closure is marked, its fields are scanned, and it is settled. -/
theorem Settles.closure (hs : Fits D n s) {c : Closure Value} (hc : D c) (hlt : sizeOf c < n)
    (hunseen : c.id ∉ s.seen) {inner : ClosureScan}
    (h : Settles D (sizeOf c) c.references { s with seen := c.id :: s.seen } inner) :
    Settles D n [c] s { inner with settled := c :: inner.settled } := by
  have hnew : c ∉ inner.settled := fun hmem =>
    (h.new c hmem).elim (fun hmem => hunseen (hs.settled c hmem)) (Nat.lt_irrefl _)
  have hseen : ∀ i ∈ inner.seen, i ∈ s.seen ∨ ∃ d ∈ c :: inner.settled, d.id = i := by
    intro i hi
    rcases h.seen i hi with hi | ⟨d, hd, hid⟩
    · rcases List.mem_cons.1 hi with rfl | hi
      · exact .inr ⟨c, List.mem_cons_self, rfl⟩
      · exact .inl hi
    · exact .inr ⟨d, List.mem_cons_of_mem _ hd, hid⟩
  refine ⟨⟨.cons h.fits.ordered hc hnew h.references, ?_, ?_⟩, ?_, ?_, ?_, ?_, hseen⟩
  · exact List.forall_mem_cons.2 ⟨h.seen_kept c.id List.mem_cons_self, h.fits.settled⟩
  · intro i hi
    rcases hseen i hi with hi | hsettled
    · exact (hs.seen i hi).imp_left (Exists.imp fun d hd => ⟨List.mem_cons_of_mem _ (h.kept d hd.1), hd.2⟩)
    · exact .inl hsettled
  · exact fun d hd => List.mem_cons_of_mem _ (h.kept d hd)
  · exact fun i hi => h.seen_kept i (List.mem_cons_of_mem _ hi)
  · exact List.forall_mem_singleton.2 List.mem_cons_self
  · refine List.forall_mem_cons.2 ⟨.inr hlt, fun d hd => (h.new d hd).imp_right fun hsize => ?_⟩
    exact Nat.lt_trans hsize hlt

end ClosureScan

namespace Expr

variable {e : Expr} {v : Value} {t : Ty}

theorem sizeOf_lt_of_constant (h : e.node = .constant v t) : sizeOf v < sizeOf e := by
  obtain ⟨l, n⟩ := e
  obtain rfl : n = .constant v t := h
  simp only [Expr.mk.sizeOf_spec, Node.constant.sizeOf_spec]
  omega

theorem references_constant (h : e.node = .constant v t) : e.references = v.references := by
  rw [references, gather_eq, inner, children, h]
  cases v <;> simp [Value.references, references, Node.reference, Node.quoted, Node.children]

theorem references_of_children (h : ∀ v t, e.node ≠ .constant v t) :
    e.references = e.children.flatMap references := by
  rw [references, gather_eq]
  obtain ⟨l, n⟩ := e
  cases n with
  | constant v t => exact absurd rfl (h v t)
  | _ => simp [inner, Node.reference, Node.quoted]

theorem scanClosures_constant (h : e.node = .constant v t) (s : ClosureScan) :
    e.scanClosures s = v.scanClosures s := by
  obtain ⟨l, n⟩ := e
  obtain rfl : n = .constant v t := h
  rw [Expr.scanClosures]

theorem scanClosures_of_children (h : ∀ v t, e.node ≠ .constant v t) (s : ClosureScan) :
    e.scanClosures s = e.children.foldl (fun s c => c.scanClosures s) s := by
  rw [Expr.scanClosures.eq_2 _ _ fun l v t he => h v t (by rw [he]; rfl)]
  exact List.foldl_attach (f := fun s c => Expr.scanClosures c s)

end Expr

theorem Value.scanClosures_closure (c : Closure Value) (s : ClosureScan) :
    (Value.closure c).scanClosures s = if s.seen.contains c.id then s else
      let inner := c.fields.foldl (fun s f => f.2.scanClosures s) { s with seen := c.id :: s.seen }
      { inner with settled := c :: inner.settled } := by
  rw [Value.scanClosures, List.foldl_attach (f := fun s (f : String × Value) => f.2.scanClosures s)]

section Scan

open ClosureScan

variable {D : Closure Value → Prop}

mutual

/-- The scan settles what an expression refers to. -/
theorem Expr.settles_scan (hD : Apart D) : ∀ (e : Expr) {n : Nat} {s : ClosureScan},
    (∀ r ∈ e.references, D r ∧ sizeOf r < n) → Fits D n s →
    Settles D n e.references s (e.scanClosures s)
  | e, n, s, hr, hs => by
    by_cases hconstant : ∃ v t, e.node = .constant v t
    · obtain ⟨v, t, hnode⟩ := hconstant
      rw [Expr.references_constant hnode] at hr ⊢
      rw [Expr.scanClosures_constant hnode]
      exact Value.settles_scan hD v hr hs
    · have hother : ∀ v t, e.node ≠ .constant v t := fun v t h => hconstant ⟨v, t, h⟩
      rw [Expr.references_of_children hother] at hr ⊢
      rw [Expr.scanClosures_of_children hother]
      refine settles_foldl (fun c hc s hs => Expr.settles_scan hD c (fun r hrc => ?_) hs) hs
      exact hr r (List.mem_flatMap.2 ⟨c, hc, hrc⟩)
termination_by e => sizeOf e
decreasing_by
  · exact Expr.sizeOf_lt_of_constant hnode
  · exact Expr.sizeOf_lt_of_mem_children hc

/-- The scan settles what a payload refers to. -/
theorem Value.settles_scan (hD : Apart D) : ∀ (v : Value) {n : Nat} {s : ClosureScan},
    (∀ r ∈ v.references, D r ∧ sizeOf r < n) → Fits D n s →
    Settles D n v.references s (v.scanClosures s)
  | .tree t, n, s, hr, hs => by
    rw [Value.scanClosures]
    exact Expr.settles_scan hD t hr hs
  | .closure c, n, s, hr, hs => by
    obtain ⟨hc, hlt⟩ := hr c (List.mem_singleton_self c)
    rw [Value.scanClosures_closure]
    by_cases hseen : c.id ∈ s.seen
    · rw [if_pos (List.contains_iff_mem.2 hseen)]
      exact hs.settles (List.forall_mem_singleton.2 (hs.settled_of_seen hD hc hlt hseen))
    · rw [if_neg (fun h => hseen (List.contains_iff_mem.1 h))]
      refine Settles.closure hs hc hlt hseen (settles_foldl (fun f hf s hs => ?_) ?_)
      · refine Value.settles_scan hD f.2 (fun r hrf => ?_) hs
        have hr : r ∈ c.references := List.mem_flatMap.2 ⟨f, hf, hrf⟩
        exact ⟨hD.references c hc r hr, Closure.sizeOf_lt_of_mem_references hr⟩
      · -- what lies on the way is not smaller than the closure
        refine ⟨hs.ordered, fun d hd => List.mem_cons_of_mem _ (hs.settled d hd), ?_⟩
        intro i hi
        rcases List.mem_cons.1 hi with rfl | hi
        · exact .inr ⟨c, hc, rfl, Nat.le_refl _⟩
        · refine (hs.seen i hi).imp_right (Exists.imp fun d hd => ⟨hd.1, hd.2.1, ?_⟩)
          exact Nat.le_trans (Nat.le_of_lt hlt) hd.2.2
  | .null, _, _, _, hs | .bool _, _, _, _, hs | .int _, _, _, _, hs | .float _, _, _, _, hs
  | .str _, _, _, _, hs => by
    simp only [Value.scanClosures, Value.references]
    exact hs.settles (by simp)
termination_by v => sizeOf v
decreasing_by
  · simp only [Value.tree.sizeOf_spec]
    omega
  · have := Closure.sizeOf_lt_of_mem hf
    simp only [Value.closure.sizeOf_spec]
    omega

end

/-- The closures of a tree, the last one first, each one before those that its fields refer to. -/
theorem ordered_closuresOf (hD : Apart D) {e : Expr} (he : ∀ r ∈ e.references, D r) :
    Ordered D (closuresOf e).reverse ∧ ∀ r ∈ e.references, r ∈ closuresOf e := by
  have hstart : Fits D (sizeOf e) {} := ⟨.nil, by simp, by simp⟩
  have hscan := Expr.settles_scan hD e
    (fun r hr => ⟨he r hr, Expr.sizeOf_lt_of_mem_references hr⟩) hstart
  rw [closuresOf, List.reverse_reverse]
  exact ⟨hscan.fits.ordered, fun r hr => List.mem_reverse.2 (hscan.references r hr)⟩

end Scan

/-! ## The closures of a source -/

/-- The trees that are written in the fields of a closure. -/
def Closure.ownTrees (c : Closure Value) : List Expr := c.fields.flatMap fun f => Parser.quotedTree f.2

namespace Parser

/-- The closure is declared under its name. -/
def Known (closures : List (String × Closure Value)) (c : Closure Value) : Prop :=
  closures.lookup c.name = some c

/-- What is known of a declared closure: its fields have different names, the trees in them do not
nest too deep, and the variables bound there are newer than all closures declared before. -/
structure ClosureAccepted (closures : List (String × Closure Value)) (c : Closure Value) : Prop where
  names : (c.fields.map (·.1)).Nodup
  words : ∀ f ∈ c.fields, isWord f.1 = true
  nesting : ∀ t ∈ c.ownTrees, t.nesting ≤ maxNesting
  binders : ∃ lo, Ascends lo c.id (c.ownTrees.flatMap Expr.binders) ∧
    ∀ d, Known closures d → d.id < c.id → d.id < lo

section Settled

variable {next : Nat} {closures : List (String × Closure Value)}

theorem known_cons {b : String × Closure Value} {c : Closure Value} (hb : b.2.name = b.1)
    (hnew : closures.lookup b.1 = none) :
    Known (b :: closures) c ↔ c = b.2 ∨ Known closures c := by
  obtain ⟨name, d⟩ := b
  obtain rfl : d.name = name := hb
  rw [Known, Known, List.lookup_cons]
  by_cases hname : c.name = d.name
  · rw [hname, beq_self_eq_true]
    simp only [Option.some.injEq]
    rw [show closures.lookup d.name = none from hnew]
    simp [eq_comm]
  · rw [beq_eq_false_iff_ne.2 hname]
    simp only [iff_or_self]
    rintro rfl
    exact absurd rfl hname

theorem FieldsAccepted.known {lo hi : Nat} {fields : List (String × Value)}
    (h : FieldsAccepted closures lo hi fields) :
    ∀ r ∈ fields.flatMap (fun f => f.2.references), Known closures r := by
  intro r hr
  obtain ⟨⟨name, v⟩, hf, hr⟩ := List.mem_flatMap.1 hr
  cases v with
  | tree t =>
    exact h.trees.references t (List.mem_flatMap.2 ⟨_, hf, List.mem_singleton_self t⟩) r hr
  | closure c =>
    obtain rfl := List.mem_singleton.1 hr
    exact (h.closures _ hf r rfl).1
  | _ => cases hr

theorem Settled.id_lt (h : Settled next closures) : ∀ c, Known closures c → c.id < next := by
  induction h with
  | nil => intro c hc; cases hc
  | cons _ hnew _ hlo hhi hid ih =>
    intro c hc
    rcases (known_cons rfl hnew).1 hc with rfl | hc
    · exact hid
    · have := ih c hc
      omega

theorem Settled.nodup_ids (h : Settled next closures) :
    (closures.map (·.2.id)).Nodup ∧ ∀ b ∈ closures, b.2.id < next := by
  induction h with
  | nil => exact ⟨.nil, by simp⟩
  | cons _ _ _ hlo hhi hid ih =>
    refine ⟨List.nodup_cons.2 ⟨fun hmem => ?_, ih.1⟩, List.forall_mem_cons.2 ⟨hid, fun b hb => ?_⟩⟩
    · obtain ⟨b, hb, heq⟩ := List.mem_map.1 hmem
      have := ih.2 b hb
      simp only at heq
      omega
    · have := ih.2 b hb
      omega

/-- The closures of a source have different identities. -/
theorem Settled.apart (h : Settled next closures) : Apart (Known closures) := by
  induction h with
  | nil => exact ⟨fun _ _ hc => (by cases hc), fun _ hc => by cases hc⟩
  | cons hbefore hnew hfields hlo hhi hid ih =>
    have hlt := hbefore.id_lt
    refine ⟨fun c d hc hd heq => ?_, fun c hc r hr => ?_⟩
    · rcases (known_cons rfl hnew).1 hc with rfl | hc <;> rcases (known_cons rfl hnew).1 hd with rfl | hd
      · rfl
      · have := hlt d hd
        simp only at heq
        omega
      · have := hlt c hc
        simp only at heq
        omega
      · exact ih.inj c d hc hd heq
    · refine (known_cons rfl hnew).2 (.inr ?_)
      rcases (known_cons rfl hnew).1 hc with rfl | hc
      · exact hfields.known r hr
      · exact ih.references c hc r hr

theorem Settled.accepted (h : Settled next closures) : ∀ c, Known closures c → ClosureAccepted closures c := by
  induction h with
  | nil => intro c hc; cases hc
  | cons hbefore hnew hfields hlo hhi hid ih =>
    have hlt := hbefore.id_lt
    intro c hc
    rcases (known_cons rfl hnew).1 hc with rfl | hc
    · refine ⟨hfields.names, hfields.words, hfields.trees.nesting, _,
        hfields.trees.binders.mono (Nat.le_refl _) hhi, fun d hd hdc => ?_⟩
      rcases (known_cons rfl hnew).1 hd with rfl | hd
      · exact absurd hdc (Nat.lt_irrefl _)
      · exact hlt d hd
    · obtain ⟨hnames, hwords, hnesting, lo', hascends, hbelow⟩ := ih c hc
      refine ⟨hnames, hwords, hnesting, lo', hascends, fun d hd hdc => ?_⟩
      rcases (known_cons rfl hnew).1 hd with rfl | hd
      · have := hlt c hc
        simp only at hdc
        omega
      · exact hbelow d hd hdc

/-- No variable is bound twice in the closures of a source. -/
theorem Settled.nodup_binders (h : Settled next closures) {cs : List (Closure Value)}
    (hknown : ∀ c ∈ cs, Known closures c) (hnodup : cs.Nodup) :
    (cs.flatMap fun c => c.ownTrees.flatMap Expr.binders).Nodup := by
  refine List.nodup_flatMap.2 ⟨fun c hc => ?_, ?_⟩
  · obtain ⟨lo, hascends, -⟩ := (h.accepted c (hknown c hc)).binders
    exact hascends.nodup
  · -- of two closures, the bound variables of the newer one are newer than the other one
    have hdisjoint : ∀ c d, Known closures c → Known closures d → c.id < d.id → ∀ v,
        v ∈ c.ownTrees.flatMap Expr.binders → v ∉ d.ownTrees.flatMap Expr.binders := by
      intro c d hc hd hlt v hvc hvd
      obtain ⟨lo, hascends, -⟩ := (h.accepted c hc).binders
      obtain ⟨lo', hascends', hbelow⟩ := (h.accepted d hd).binders
      have h₁ := hascends.lt_hi v hvc
      have h₂ := hbelow c hc hlt
      have h₃ := hascends'.lo_le v hvd
      omega
    refine hnodup.imp_of_mem fun {c d} hc hd hne v hvc hvd => ?_
    rcases Nat.lt_trichotomy c.id d.id with hlt | heq | hlt
    · exact hdisjoint c d (hknown c hc) (hknown d hd) hlt v hvc hvd
    · exact hne (h.apart.inj c d (hknown c hc) (hknown d hd) heq)
    · exact hdisjoint d c (hknown d hd) (hknown c hc) hlt v hvd hvc

end Settled

end Parser

end ExprTree
