import ExprTree.Surface.Naming

/-!
# Labels as identities

A walk decides by labels whether a child came back as itself. That decision is right only if a label
stands for one node: wherever two expressions of a tree carry the same label, they are the same
expression. `Expr.Coherent` says so of a tree, and every tree that is made node by node from a
supply has the property (`Made.coherent`).

The expressions *within* a tree are reached through children and through the trees that constants
carry, in closures too. A `Heap` assigns to each label drawn so far the node it was given; a tree is
held by a heap if all expressions within it agree with the heap. Heaps grow as labels are drawn, and
what a heap holds, every later heap holds.
-/

namespace ExprTree

/-- The maximum of a list is the least bound of its items. -/
theorem foldr_max_le_iff {ns : List Nat} {k : Nat} : ns.foldr max 0 ≤ k ↔ ∀ n ∈ ns, n ≤ k := by
  induction ns with
  | nil => simp
  | cons n ns ih => rw [List.foldr_cons, Nat.max_le, ih, List.forall_mem_cons]

theorem le_foldr_max {n : Nat} {ns : List Nat} (h : n ∈ ns) : n ≤ ns.foldr max 0 :=
  foldr_max_le_iff.1 (Nat.le_refl _) n h

/-! ## The expressions within a tree -/

/-- The trees that a value carries, also in the fields of a closure. -/
def Value.trees : Value → List Expr
  | .tree t => [t]
  | .closure c => c.fields.attach.flatMap fun f => f.1.2.trees
  | _ => []
termination_by v => sizeOf v
decreasing_by
  have := Closure.sizeOf_lt_of_mem f.2
  simp only [Value.closure.sizeOf_spec]
  omega

/-- The trees in the fields of a closure. -/
def Closure.trees (c : Closure Value) : List Expr := c.fields.flatMap fun f => f.2.trees

@[simp] theorem Value.trees_tree (t : Expr) : (Value.tree t).trees = [t] := by
  rw [Value.trees]

@[simp] theorem Value.trees_closure (c : Closure Value) : (Value.closure c).trees = c.trees := by
  have hmap : (c.fields.attach.map fun f => f.1.2.trees) = c.fields.map fun f => f.2.trees := by
    rw [← List.attach_map_val (f := fun f : String × Value => f.2.trees)]
  rw [Value.trees, Closure.trees, List.flatMap_def, List.flatMap_def, hmap]

/-- A carried tree is smaller than its value. -/
theorem Value.sizeOf_lt_of_mem_trees {t : Expr} : ∀ {v : Value}, t ∈ v.trees → sizeOf t < sizeOf v
  | .tree u, h => by
    have h : t = u := by simpa using h
    simp only [h, Value.tree.sizeOf_spec]
    omega
  | .closure c, h => by
    rw [Value.trees_closure, Closure.trees, List.mem_flatMap] at h
    obtain ⟨f, hf, ht⟩ := h
    have hfield := Closure.sizeOf_lt_of_mem hf
    have htree := Value.sizeOf_lt_of_mem_trees ht
    simp only [Value.closure.sizeOf_spec]
    omega
  | .null, h | .bool _, h | .int _, h | .float _, h | .str _, h => by
    simp only [Value.trees, List.not_mem_nil] at h
termination_by v => sizeOf v
decreasing_by
  simp only [Value.closure.sizeOf_spec]
  omega

/-- The trees that the constant at a node carries. -/
def Node.payload : Node → List Expr
  | .constant v _ => v.trees
  | _ => []

namespace Expr

/-- What an expression is made of: its children and the trees it carries as data. -/
def parts (e : Expr) : List Expr := e.children ++ e.node.payload

theorem mem_parts_of_mem_children {c e : Expr} (h : c ∈ e.children) : c ∈ e.parts :=
  List.mem_append_left _ h

/-- Every part is smaller than its expression. -/
theorem sizeOf_lt_of_mem_parts {c e : Expr} (h : c ∈ e.parts) : sizeOf c < sizeOf e := by
  rcases List.mem_append.1 h with h | h
  · exact sizeOf_lt_of_mem_children h
  · cases e with
    | mk l n =>
      cases n with
      | constant v ty =>
        have := Value.sizeOf_lt_of_mem_trees h
        simp only [Expr.mk.sizeOf_spec, Node.constant.sizeOf_spec]
        omega
      | _ => simp [Node.payload] at h

/-- Everything that holds of an expression once it holds of its parts holds of every tree. -/
theorem partInduction {P : Expr → Prop} (step : ∀ e, (∀ c ∈ e.parts, P c) → P e) (e : Expr) : P e :=
  step e fun c _ => partInduction step c
termination_by sizeOf e
decreasing_by exact sizeOf_lt_of_mem_parts ‹_›

/-- `a.Within e`: the expression `a` stands somewhere in `e`, `e` itself included. -/
inductive Within : Expr → Expr → Prop
  | here (e : Expr) : Within e e
  | part {a c e : Expr} : c ∈ e.parts → Within a c → Within a e

theorem within_of_mem_parts {c e : Expr} (h : c ∈ e.parts) : c.Within e := .part h (.here c)

theorem within_of_mem_children {c e : Expr} (h : c ∈ e.children) : c.Within e :=
  within_of_mem_parts (mem_parts_of_mem_children h)

theorem Within.trans {a b c : Expr} (hab : a.Within b) (hbc : b.Within c) : a.Within c := by
  induction hbc with
  | here => exact hab
  | part hc _ ih => exact .part hc ih

/-- What is within a tree is not larger than it. -/
theorem Within.sizeOf_le {a e : Expr} (h : a.Within e) : sizeOf a ≤ sizeOf e := by
  induction h with
  | here => exact Nat.le_refl _
  | part hc _ ih => exact Nat.le_trans ih (Nat.le_of_lt (sizeOf_lt_of_mem_parts hc))

/-- A property of every expression within a tree. -/
def Everywhere (P : Expr → Prop) (e : Expr) : Prop := ∀ a, a.Within e → P a

section Everywhere

variable {P Q : Expr → Prop} {e c : Expr}

theorem everywhere_iff : e.Everywhere P ↔ P e ∧ ∀ c ∈ e.parts, c.Everywhere P := by
  constructor
  · intro h
    exact ⟨h e (.here e), fun c hc a ha => h a (.part hc ha)⟩
  · rintro ⟨here, below⟩ a ha
    cases ha with
    | here => exact here
    | part hc ha => exact below _ hc a ha

theorem Everywhere.here (h : e.Everywhere P) : P e := h e (.here e)

theorem Everywhere.part (h : e.Everywhere P) (hc : c ∈ e.parts) : c.Everywhere P :=
  fun a ha => h a (.part hc ha)

theorem Everywhere.child (h : e.Everywhere P) (hc : c ∈ e.children) : c.Everywhere P :=
  h.part (mem_parts_of_mem_children hc)

theorem Everywhere.within (h : e.Everywhere P) (hc : c.Within e) : c.Everywhere P :=
  fun a ha => h a (ha.trans hc)

theorem Everywhere.imp (h : e.Everywhere P) (himp : ∀ a, P a → Q a) : e.Everywhere Q :=
  fun a ha => himp a (h a ha)

end Everywhere

end Expr

/-! ## Heaps -/

/-- The nodes of the labels below `next`. -/
structure Heap where
  node : Nat → Node
  next : Nat

namespace Heap

/-- A later heap has the nodes of an earlier one. -/
protected structure Le (h h' : Heap) : Prop where
  next_le : h.next ≤ h'.next
  node_eq : ∀ l < h.next, h'.node l = h.node l

instance : LE Heap := ⟨Heap.Le⟩

protected theorem le_refl (h : Heap) : h ≤ h := ⟨Nat.le_refl _, fun _ _ => rfl⟩

protected theorem le_trans {h₁ h₂ h₃ : Heap} (h₁₂ : h₁ ≤ h₂) (h₂₃ : h₂ ≤ h₃) : h₁ ≤ h₃ where
  next_le := Nat.le_trans h₁₂.next_le h₂₃.next_le
  node_eq l hl := by
    rw [h₂₃.node_eq l (Nat.lt_of_lt_of_le hl h₁₂.next_le), h₁₂.node_eq l hl]

/-- Every expression within the tree has a label below `next` and the node the heap has for it. -/
def Holds (h : Heap) (e : Expr) : Prop :=
  e.Everywhere fun a => a.label < h.next ∧ h.node a.label = a.node

theorem Holds.mono {h h' : Heap} {e : Expr} (he : h.Holds e) (hle : h ≤ h') : h'.Holds e :=
  he.imp fun a ⟨hlt, hnode⟩ =>
    ⟨Nat.lt_of_lt_of_le hlt hle.next_le, by rw [hle.node_eq a.label hlt, hnode]⟩

/-- Two held expressions of one label are the same expression. -/
theorem Holds.eq_of_label {h : Heap} {a b : Expr} (ha : h.Holds a) (hb : h.Holds b)
    (hlabel : a.label = b.label) : a = b := by
  have hnode : a.node = b.node := by rw [← ha.here.2, ← hb.here.2, hlabel]
  cases a
  cases b
  simp only [Expr.label_mk, Expr.node_mk] at hlabel hnode
  rw [hlabel, hnode]

/-- Two lists of held expressions with the same labels are the same list. -/
theorem eq_of_map_label {h : Heap} : ∀ {as bs : List Expr}, (∀ a ∈ as, h.Holds a) →
    (∀ b ∈ bs, h.Holds b) → as.map (·.label) = bs.map (·.label) → as = bs
  | [], [], _, _, _ => rfl
  | a :: as, b :: bs, ha, hb, hlabels => by
    simp only [List.map_cons, List.cons.injEq] at hlabels
    have hhead := (ha a (by simp)).eq_of_label (hb b (by simp)) hlabels.1
    have htail := eq_of_map_label (fun x hx => ha x (by simp [hx]))
      (fun x hx => hb x (by simp [hx])) hlabels.2
    rw [hhead, htail]

/-- The heap in which the next label is given to a node. -/
def push (h : Heap) (n : Node) : Heap where
  node l := if l = h.next then n else h.node l
  next := h.next + 1

theorem le_push (h : Heap) (n : Node) : h ≤ h.push n where
  next_le := Nat.le_succ _
  node_eq _ hl := if_neg (Nat.ne_of_lt hl)

/-- The heap in which labels are drawn and given to no node. -/
def skipTo (h : Heap) (next : Nat) : Heap := { h with next := next }

theorem le_skipTo {h : Heap} {next : Nat} (hle : h.next ≤ next) : h ≤ h.skipTo next :=
  ⟨hle, fun _ _ => rfl⟩

/-- A new node around held parts is held with the next label. -/
theorem holds_push {h : Heap} {n : Node} (hparts : ∀ c ∈ (Expr.mk h.next n).parts, h.Holds c) :
    (h.push n).Holds (.mk h.next n) :=
  Expr.everywhere_iff.2 ⟨⟨Nat.lt_succ_self _, if_pos rfl⟩,
    fun c hc => (hparts c hc).mono (h.le_push n)⟩

end Heap

/-! ## Coherent trees -/

/-- The labels within a tree are identities drawn from a supply: they are used up there, and equal
labels stand at equal expressions. -/
structure Expr.Coherent (supply : Supply) (e : Expr) : Prop where
  unique : ∀ a b : Expr, a.Within e → b.Within e → a.label = b.label → a = b
  drawn : e.Everywhere fun a => a.label < supply.next

/-- What a heap holds is coherent. -/
theorem Heap.Holds.coherent {h : Heap} {e : Expr} (he : h.Holds e) : e.Coherent ⟨h.next⟩ where
  unique _ _ ha hb := Holds.eq_of_label (he.within ha) (he.within hb)
  drawn := he.imp fun _ h => h.1

open Classical in
/-- A coherent tree is held by some heap. -/
theorem Expr.Coherent.exists_heap {supply : Supply} {e : Expr} (he : e.Coherent supply) :
    ∃ h : Heap, h.next = supply.next ∧ h.Holds e := by
  let nodeOf (l : Nat) : Node :=
    if h : ∃ a : Expr, a.Within e ∧ a.label = l then h.choose.node else default
  refine ⟨⟨nodeOf, supply.next⟩, rfl, fun a ha => ⟨he.drawn a ha, ?_⟩⟩
  have hex : ∃ b : Expr, b.Within e ∧ b.label = a.label := ⟨a, ha, rfl⟩
  have hchoose : hex.choose = a :=
    he.unique _ a hex.choose_spec.1 ha hex.choose_spec.2
  show nodeOf a.label = a.node
  simp only [nodeOf, dif_pos hex, hchoose]

/-- Expressions made one after the other, each around parts made before it. Between two nodes labels
may be drawn for other things. -/
inductive Made : Supply → List Expr → Prop
  | start (supply : Supply) : Made supply []
  | node {supply : Supply} {es : List Expr} (n : Node) : Made supply es →
      (∀ c ∈ n.children ++ n.payload, c ∈ es) →
      Made (n.alloc.run supply).2 ((n.alloc.run supply).1 :: es)
  | later {supply supply' : Supply} {es : List Expr} : Made supply es →
      supply.next ≤ supply'.next → Made supply' es

/-- The node made next has the next label. -/
theorem Made.next {l : Nat} {es : List Expr} (hes : Made ⟨l⟩ es) (n : Node)
    (hparts : ∀ c ∈ n.children ++ n.payload, c ∈ es) : Made ⟨l + 1⟩ (.mk l n :: es) :=
  hes.node n hparts

/-- One heap holds everything that was made. -/
theorem Made.exists_heap {supply : Supply} {es : List Expr} (hmade : Made supply es) :
    ∃ h : Heap, h.next = supply.next ∧ ∀ e ∈ es, h.Holds e := by
  induction hmade with
  | start supply => exact ⟨⟨fun _ => default, supply.next⟩, rfl, by simp⟩
  | node n _ hparts ih =>
    obtain ⟨h, hnext, hes⟩ := ih
    refine ⟨h.push n, congrArg (· + 1) hnext, ?_⟩
    intro e he
    rcases List.mem_cons.1 he with rfl | he
    · show (h.push n).Holds (.mk _ n)
      rw [← hnext]
      exact Heap.holds_push fun c hc => hes c (hparts c hc)
    · exact (hes e he).mono (h.le_push n)
  | later _ hle ih =>
    obtain ⟨h, hnext, hes⟩ := ih
    exact ⟨h.skipTo _, rfl, fun e he => (hes e he).mono (Heap.le_skipTo (hnext ▸ hle))⟩

/-- Every tree that is made node by node is coherent, whatever it shares. -/
theorem Made.coherent {supply : Supply} {es : List Expr} (hmade : Made supply es) {e : Expr}
    (he : e ∈ es) : e.Coherent supply := by
  obtain ⟨h, hnext, hes⟩ := hmade.exists_heap
  have := (hes e he).coherent
  rwa [hnext] at this

end ExprTree
