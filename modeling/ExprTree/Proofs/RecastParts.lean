import ExprTree.Proofs.PrintedTree

/-!
# The parts of a recast tree

Recasting a tree recasts its parts: what is written inside a recast expression is what was written
there, recast, and so are the parameters, the references to closures and everything else that is
gathered from a tree (`Expr.gather_recast`).

A recasting counts only on the identities that a tree has (`Expr.recast_congr`). And if it keeps the
closures of a tree apart, then the scan for closures finds the recast ones in the same order
(`closuresOf_recast`).
-/

namespace ExprTree

/-! ## Parts -/

/-- The closure under a recasting. -/
def Closure.recast (r : Recasting) (c : Closure Value) : Closure Value :=
  ⟨r.closure c.id, c.name, Value.recastFields r c.fields⟩

section Parts

variable (r : Recasting)

@[simp] theorem Value.recast_closure (c : Closure Value) :
    (Value.closure c).recast r = .closure (c.recast r) := by
  obtain ⟨i, name, fs⟩ := c
  rw [Value.recast]
  rfl

theorem Expr.recastList_eq_map (es : List Expr) : Expr.recastList r es = es.map (·.recast r) := by
  induction es with
  | nil => rfl
  | cons e es ih => rw [Expr.recastList, ih, List.map_cons]

theorem Expr.toList_recastOption (o : Option Expr) :
    (Expr.recastOption r o).toList = o.toList.map (·.recast r) := by
  cases o <;> rfl

theorem Value.recastFields_eq_map (fs : List (String × Value)) :
    Value.recastFields r fs = fs.map fun f => (f.1, f.2.recast r) := by
  induction fs with
  | nil => rfl
  | cons f fs ih => rw [Value.recastFields, ih, List.map_cons]

theorem Expr.args_recastConstruct (c : Construct Expr) :
    (Expr.recastConstruct r c).args = c.args.map (·.recast r) := by
  obtain ⟨t, as, ms⟩ := c
  exact Expr.recastList_eq_map r as

theorem Expr.args_recastElements (es : List (ElementInit Expr)) :
    (Expr.recastElements r es).flatMap (·.args) = (es.flatMap (·.args)).map (·.recast r) := by
  induction es with
  | nil => rfl
  | cons i es ih =>
    rw [Expr.recastElements, List.flatMap_cons, List.flatMap_cons, List.map_append, ih,
      Expr.recastList_eq_map]

mutual

theorem Expr.exprs_recastBinding : ∀ b : Binding Expr,
    (Expr.recastBinding r b).exprs = b.exprs.map (·.recast r)
  | .assign _ e => by simp only [Expr.recastBinding, Binding.exprs, List.map_cons, List.map_nil]
  | .nested _ bs => by simp only [Expr.recastBinding, Binding.exprs, Expr.exprs_recastBindings bs]
  | .elements _ es => by simp only [Expr.recastBinding, Binding.exprs, Expr.args_recastElements]

theorem Expr.exprs_recastBindings : ∀ bs : List (Binding Expr),
    Binding.exprsOfAll (Expr.recastBindings r bs) = (Binding.exprsOfAll bs).map (·.recast r)
  | [] => rfl
  | b :: bs => by
    simp only [Expr.recastBindings, Binding.exprsOfAll, List.map_append, Expr.exprs_recastBinding b,
      Expr.exprs_recastBindings bs]

end

namespace Node

theorem children_recast (n : Node) : (n.recast r).children = n.children.map (·.recast r) := by
  cases n with
  | binary op x y c lifted m t =>
    simp only [Node.recast, children, Expr.toList_recastOption, List.map_cons]
  | memberAccess o m => simp only [Node.recast, children, Expr.toList_recastOption]
  | call o m as =>
    simp only [Node.recast, children, Expr.toList_recastOption, Expr.recastList_eq_map, List.map_append]
  | construct c => simp only [Node.recast, children, Expr.args_recastConstruct]
  | newArray k t es => simp only [Node.recast, children, Expr.recastList_eq_map]
  | invocation e as t => simp only [Node.recast, children, Expr.recastList_eq_map, List.map_cons]
  | memberInit c bs =>
    simp only [Node.recast, children, Expr.args_recastConstruct, Expr.exprs_recastBindings,
      List.map_append]
  | listInit c es =>
    simp only [Node.recast, children, Expr.args_recastConstruct, Expr.args_recastElements,
      List.map_append]
  | _ => rfl

theorem quoted_recast (n : Node) : (n.recast r).quoted = n.quoted.map (·.recast r) := by
  cases n with
  | constant v t => cases v <;> simp only [Node.recast, Value.recast, quoted, List.map_cons, List.map_nil]
  | _ => rfl

theorem own_recast (n : Node) : (n.recast r).own = n.own.map r.var := by cases n <;> rfl

theorem params_recast (n : Node) : (n.recast r).params = n.params.map r.var := by cases n <;> rfl

end Node

namespace Expr

theorem node_recast (e : Expr) : (e.recast r).node = e.node.recast r := by
  obtain ⟨l, n⟩ := e
  rfl

theorem inner_recast (e : Expr) : (e.recast r).inner = e.inner.map (·.recast r) := by
  rw [inner, inner, children, children, node_recast, Node.children_recast, Node.quoted_recast,
    List.map_append]

/-- What is gathered from a recast tree, if it is recast at every node. -/
theorem gather_recast {β : Type} {f : Node → List β} {g : β → β}
    (h : ∀ n : Node, f (n.recast r) = (f n).map g) (e : Expr) :
    (e.recast r).gather f = (e.gather f).map g := by
  induction e using innerInduction with
  | step e ih =>
    rw [gather_eq, gather_eq, node_recast, h, inner_recast, List.map_append, List.flatMap_map,
      List.map_flatMap]
    congr 1
    exact List.flatMap_congr ih

theorem binders_recast (e : Expr) : (e.recast r).binders = e.binders.map r.var :=
  gather_recast r (Node.params_recast r) e

end Expr

theorem Value.quotedTree_recast (v : Value) :
    Parser.quotedTree (v.recast r) = (Parser.quotedTree v).map (·.recast r) := by
  cases v <;> simp [Value.recast, Parser.quotedTree]

theorem Closure.ownTrees_recast (c : Closure Value) :
    (c.recast r).ownTrees = c.ownTrees.map (·.recast r) := by
  rw [Closure.ownTrees, Closure.ownTrees, Closure.recast, Value.recastFields_eq_map, List.flatMap_map,
    List.map_flatMap]
  exact List.flatMap_congr fun f _ => Value.quotedTree_recast r f.2

end Parts

/-! ## Recastings that agree -/

section Congr

variable {r s : Recasting}

theorem Expr.recastList_congr {es : List Expr} (h : ∀ e ∈ es, e.recast r = e.recast s) :
    Expr.recastList r es = Expr.recastList s es := by
  rw [recastList_eq_map, recastList_eq_map]
  exact List.map_congr_left h

theorem Expr.recastOption_congr {o : Option Expr} (h : ∀ e ∈ o.toList, e.recast r = e.recast s) :
    Expr.recastOption r o = Expr.recastOption s o := by
  cases o with
  | none => rfl
  | some e => rw [recastOption, recastOption, h e (List.mem_singleton_self e)]

theorem Member.recast_congr (howner : r.owner = s.owner) (m : Member) : m.recast r = m.recast s := by
  rw [Member.recast, Member.recast, howner]

theorem Expr.recastConstruct_congr (howner : r.owner = s.owner) {c : Construct Expr}
    (h : ∀ e ∈ c.args, e.recast r = e.recast s) :
    Expr.recastConstruct r c = Expr.recastConstruct s c := by
  obtain ⟨t, as, ms⟩ := c
  have hmembers : (fun ms : List Member => ms.map (·.recast r)) = fun ms => ms.map (·.recast s) := by
    funext ms
    exact List.map_congr_left fun m _ => m.recast_congr howner
  rw [recastConstruct, recastConstruct, recastList_congr h, hmembers]

theorem Expr.recastElements_congr {es : List (ElementInit Expr)}
    (h : ∀ e ∈ es.flatMap (·.args), e.recast r = e.recast s) :
    Expr.recastElements r es = Expr.recastElements s es := by
  induction es with
  | nil => rfl
  | cons i es ih =>
    obtain ⟨m, as⟩ := i
    rw [List.flatMap_cons, List.forall_mem_append] at h
    rw [recastElements, recastElements, recastList_congr h.1, ih h.2]

mutual

theorem Expr.recastBinding_congr (howner : r.owner = s.owner) : ∀ {b : Binding Expr},
    (∀ e ∈ b.exprs, e.recast r = e.recast s) → Expr.recastBinding r b = Expr.recastBinding s b
  | .assign m e, h => by
    rw [recastBinding, recastBinding, h e (by simp [Binding.exprs]), m.recast_congr howner]
  | .nested m bs, h => by
    rw [recastBinding, recastBinding, recastBindings_congr howner (by rwa [Binding.exprs] at h),
      m.recast_congr howner]
  | .elements m es, h => by
    rw [recastBinding, recastBinding, recastElements_congr (by rwa [Binding.exprs] at h),
      m.recast_congr howner]

theorem Expr.recastBindings_congr (howner : r.owner = s.owner) : ∀ {bs : List (Binding Expr)},
    (∀ e ∈ Binding.exprsOfAll bs, e.recast r = e.recast s) →
    Expr.recastBindings r bs = Expr.recastBindings s bs
  | [], _ => rfl
  | b :: bs, h => by
    rw [Binding.exprsOfAll, List.forall_mem_append] at h
    rw [recastBindings, recastBindings, recastBinding_congr howner h.1, recastBindings_congr howner h.2]

end

theorem Value.recast_congr (v : Value) (htrees : ∀ t ∈ v.trees, t.recast r = t.recast s)
    (hclosures : ∀ c ∈ v.closures, r.closure c.id = s.closure c.id) : v.recast r = v.recast s := by
  cases v with
  | tree t => rw [recast, recast, htrees t (by simp)]
  | closure c =>
    rw [trees_closure, Closure.trees] at htrees
    rw [closures_closure] at hclosures
    have hfields : ∀ f ∈ c.fields, f.2.recast r = f.2.recast s := fun f hf =>
      Value.recast_congr f.2 (fun t ht => htrees t (List.mem_flatMap.2 ⟨f, hf, ht⟩)) fun d hd =>
        hclosures d (List.mem_cons_of_mem _ (List.mem_flatMap.2 ⟨f, hf, hd⟩))
    rw [recast_closure, recast_closure, Closure.recast, Closure.recast,
      hclosures c List.mem_cons_self, recastFields_eq_map, recastFields_eq_map,
      List.map_congr_left fun f hf => by rw [hfields f hf]]
  | _ => simp only [recast]
termination_by sizeOf v
decreasing_by
  have hsize := Closure.sizeOf_lt_of_mem hf
  subst_vars
  simp only [Value.closure.sizeOf_spec]
  omega

theorem Node.recast_congr {n : Node} (hchildren : ∀ c ∈ n.children, c.recast r = c.recast s)
    (hpayload : ∀ t ∈ n.payload, t.recast r = t.recast s) (hvars : ∀ v ∈ n.vars, r.var v = s.var v)
    (hclosures : ∀ c ∈ n.closures, r.closure c.id = s.closure c.id) (howner : r.owner = s.owner) :
    n.recast r = n.recast s := by
  cases n with
  | unary op x t m | typeIs x t => simp only [Node.recast, hchildren x (List.mem_singleton_self x)]
  | binary op x y c lifted m t =>
    simp only [children, List.forall_mem_cons] at hchildren
    simp only [Node.recast, hchildren.1, hchildren.2.1, Expr.recastOption_congr hchildren.2.2]
  | conditional x y z t =>
    simp only [children, List.forall_mem_cons] at hchildren
    simp only [Node.recast, hchildren.1, hchildren.2.1, hchildren.2.2.1]
  | constant v t => simp only [Node.recast, v.recast_congr hpayload hclosures]
  | «variable» v =>
    simp only [Node.recast, hvars v (List.mem_append_left _ (List.mem_singleton_self v))]
  | memberAccess o m =>
    simp only [Node.recast, Expr.recastOption_congr hchildren, m.recast_congr howner]
  | call o m as =>
    rw [children, List.forall_mem_append] at hchildren
    simp only [Node.recast, Expr.recastOption_congr hchildren.1, Expr.recastList_congr hchildren.2]
  | lambda ps x t =>
    have hps : ps.map r.var = ps.map s.var :=
      List.map_congr_left fun p hp => hvars p (List.mem_append_right _ hp)
    simp only [Node.recast, hchildren x (List.mem_singleton_self x), hps]
  | construct c => simp only [Node.recast, Expr.recastConstruct_congr howner hchildren]
  | newArray k t es =>
    rw [children] at hchildren
    simp only [Node.recast, Expr.recastList_congr hchildren]
  | invocation x as t =>
    rw [children, List.forall_mem_cons] at hchildren
    simp only [Node.recast, hchildren.1, Expr.recastList_congr hchildren.2]
  | memberInit c bs =>
    rw [children, List.forall_mem_append] at hchildren
    simp only [Node.recast, Expr.recastConstruct_congr howner hchildren.1,
      Expr.recastBindings_congr howner hchildren.2]
  | listInit c es =>
    rw [children, List.forall_mem_append] at hchildren
    simp only [Node.recast, Expr.recastConstruct_congr howner hchildren.1,
      Expr.recastElements_congr hchildren.2]
  | extension k t => simp only [Node.recast]

/-- Recastings that agree on the identities of a tree give the same tree. -/
theorem Expr.recast_congr {e : Expr} (hvars : ∀ v, e.Uses v → r.var v = s.var v)
    (hclosures : ∀ i, e.UsesClosure i → r.closure i = s.closure i) (howner : r.owner = s.owner) :
    e.recast r = e.recast s := by
  induction e using partInduction with
  | step e ih =>
    have hpart : ∀ c ∈ e.parts, c.recast r = c.recast s := fun c hc =>
      ih c hc (fun v ⟨a, ha, hv⟩ => hvars v ⟨a, .part hc ha, hv⟩)
        fun i ⟨a, ha, hi⟩ => hclosures i ⟨a, .part hc ha, hi⟩
    obtain ⟨l, n⟩ := e
    rw [recast, recast]
    congr 1
    refine Node.recast_congr (fun c hc => hpart c (List.mem_append_left _ hc))
      (fun t ht => hpart t (List.mem_append_right _ ht)) (fun v hv => hvars v ⟨_, .here _, hv⟩)
      (fun c hc => hclosures c.id ⟨_, .here _, c, hc, rfl⟩) howner

end Congr

/-! ## The closures of a recast tree -/

/-- The scan under a recasting. -/
def ClosureScan.recast (r : Recasting) (s : ClosureScan) : ClosureScan :=
  ⟨s.seen.map r.closure, s.settled.map (·.recast r)⟩

section Scan

variable {r : Recasting} {I : Nat → Prop}

/-- The scan finds nothing but identities in `I`, and on a recast state it does the same with recast
closures. -/
def ScansAlike (r : Recasting) (I : Nat → Prop) (f g : ClosureScan → ClosureScan) : Prop :=
  ∀ s : ClosureScan, (∀ i ∈ s.seen, I i) →
    g (s.recast r) = (f s).recast r ∧ ∀ i ∈ (f s).seen, I i

theorem scansAlike_foldl {α β : Type} {f : ClosureScan → α → ClosureScan}
    {g : ClosureScan → β → ClosureScan} {h : α → β} {xs : List α}
    (hfg : ∀ x ∈ xs, ScansAlike r I (f · x) (g · (h x))) :
    ScansAlike r I (xs.foldl f) ((xs.map h).foldl g) := by
  induction xs with
  | nil => exact fun s hs => ⟨rfl, hs⟩
  | cons x xs ih =>
    intro s hs
    obtain ⟨hx, hseen⟩ := hfg x List.mem_cons_self s hs
    simp only at hx
    simp only [List.map_cons, List.foldl_cons, hx]
    exact ih (fun y hy => hfg y (List.mem_cons_of_mem _ hy)) _ hseen

theorem contains_map_of_injOn {α β : Type} [DecidableEq α] [DecidableEq β] {f : α → β} {a : α}
    {l : List α} (h : ∀ b ∈ l, f b = f a → b = a) : (l.map f).contains (f a) = l.contains a := by
  rw [Bool.eq_iff_iff, List.contains_iff_mem, List.contains_iff_mem]
  refine ⟨fun hmem => ?_, List.mem_map_of_mem⟩
  obtain ⟨b, hb, heq⟩ := List.mem_map.1 hmem
  exact h b hb heq ▸ hb

/-- The identities of closures at an expression. -/
def Expr.ClosuresIn (I : Nat → Prop) (a : Expr) : Prop := ∀ c ∈ a.node.closures, I c.id

mutual

theorem Expr.scansAlike (hinj : ∀ i j, I i → I j → r.closure i = r.closure j → i = j) :
    ∀ e : Expr, e.Everywhere (Expr.ClosuresIn I) → ScansAlike r I e.scanClosures (e.recast r).scanClosures
  | e, he => by
    by_cases hconstant : ∃ v t, e.node = .constant v t
    · obtain ⟨v, t, hnode⟩ := hconstant
      have hrecast : (e.recast r).node = .constant (v.recast r) t := by
        rw [Expr.node_recast, hnode]
        rfl
      have hpayload : v.trees = e.node.payload := by
        rw [hnode]
        rfl
      intro s hs
      rw [Expr.scanClosures_constant hnode, Expr.scanClosures_constant hrecast]
      refine Value.scansAlike hinj v (fun t ht => ?_) (fun c hc => ?_) s hs
      · exact he.part (List.mem_append_right _ (hpayload ▸ ht))
      · exact he.here c (by rw [hnode]; exact hc)
    · have hother : ∀ v t, e.node ≠ .constant v t := fun v t h => hconstant ⟨v, t, h⟩
      have hrecast : ∀ v t, (e.recast r).node ≠ .constant v t := by
        intro v t h
        rw [Expr.node_recast] at h
        cases hnode : e.node with
        | constant w t => exact hother w t hnode
        | _ =>
          rw [hnode] at h
          cases h
      intro s hs
      rw [Expr.scanClosures_of_children hother, Expr.scanClosures_of_children hrecast, Expr.children,
        Expr.node_recast, Node.children_recast]
      exact scansAlike_foldl (fun c hc => Expr.scansAlike hinj c (he.child hc)) s hs
termination_by e => sizeOf e
decreasing_by
  · exact Expr.sizeOf_lt_of_constant hnode
  · exact Expr.sizeOf_lt_of_mem_children hc

theorem Value.scansAlike (hinj : ∀ i j, I i → I j → r.closure i = r.closure j → i = j) :
    ∀ v : Value, (∀ t ∈ v.trees, t.Everywhere (Expr.ClosuresIn I)) → (∀ c ∈ v.closures, I c.id) →
      ScansAlike r I v.scanClosures (v.recast r).scanClosures
  | .tree t, htrees, _ => by
    intro s hs
    rw [Value.recast, Value.scanClosures, Value.scanClosures]
    exact Expr.scansAlike hinj t (htrees t (by simp)) s hs
  | .closure c, htrees, hclosures => by
    rw [Value.trees_closure, Closure.trees] at htrees
    rw [Value.closures_closure, List.forall_mem_cons] at hclosures
    obtain ⟨hc, hclosures⟩ := hclosures
    intro s hs
    have hfields : ScansAlike r I (c.fields.foldl fun s f => f.2.scanClosures s)
        ((c.recast r).fields.foldl fun s f => f.2.scanClosures s) := by
      rw [Closure.recast, Value.recastFields_eq_map]
      refine scansAlike_foldl fun f hf => Value.scansAlike hinj f.2 (fun t ht => ?_) fun d hd => ?_
      · exact htrees t (List.mem_flatMap.2 ⟨f, hf, ht⟩)
      · exact hclosures d (List.mem_flatMap.2 ⟨f, hf, hd⟩)
    have hcontains : (s.recast r).seen.contains (c.recast r).id = s.seen.contains c.id :=
      contains_map_of_injOn fun j hj => hinj j c.id (hs j hj) hc
    rw [Value.recast_closure, Value.scanClosures_closure, Value.scanClosures_closure, hcontains]
    split
    · exact ⟨rfl, hs⟩
    · obtain ⟨hrun, hseen⟩ := hfields { s with seen := c.id :: s.seen } (List.forall_mem_cons.2 ⟨hc, hs⟩)
      refine ⟨?_, hseen⟩
      have hstart : ({ s.recast r with seen := (c.recast r).id :: (s.recast r).seen } : ClosureScan) =
          ClosureScan.recast r { s with seen := c.id :: s.seen } := rfl
      simp only [hstart, hrun]
      rfl
  | .null, _, _ | .bool _, _, _ | .int _, _, _ | .float _, _, _ | .str _, _, _ => by
    intro s hs
    simp only [Value.recast, Value.scanClosures]
    exact ⟨trivial, hs⟩
termination_by v => sizeOf v
decreasing_by
  · simp only [Value.tree.sizeOf_spec]
    omega
  · have := Closure.sizeOf_lt_of_mem hf
    simp only [Value.closure.sizeOf_spec]
    omega

end

/-- The closures of a recast tree are the recast ones, in the same order. -/
theorem closuresOf_recast {e : Expr}
    (hinj : ∀ i j, e.UsesClosure i → e.UsesClosure j → r.closure i = r.closure j → i = j) :
    closuresOf (e.recast r) = (closuresOf e).map (·.recast r) := by
  have halike := Expr.scansAlike hinj e fun a ha c hc => ⟨a, ha, c, hc, rfl⟩
  have hrun : (e.recast r).scanClosures {} = (e.scanClosures {}).recast r :=
    (halike {} (by simp)).1
  rw [closuresOf, closuresOf, hrun, ClosureScan.recast, List.map_reverse]

/-- The trees that are printed with a recast tree are the recast ones. -/
theorem Expr.printed_recast {e : Expr}
    (hinj : ∀ i j, e.UsesClosure i → e.UsesClosure j → r.closure i = r.closure j → i = j) :
    (e.recast r).printed = e.printed.map (·.recast r) := by
  rw [printed, printed, closuresOf_recast hinj, Names.scanned, Names.scanned, List.map_append,
    List.flatMap_map, List.map_flatMap]
  congr 1
  exact List.flatMap_congr fun c _ => c.ownTrees_recast r

/-- The parameters in the trees that are printed with a recast tree. -/
theorem Expr.binders_printed_recast {e : Expr}
    (hinj : ∀ i j, e.UsesClosure i → e.UsesClosure j → r.closure i = r.closure j → i = j) :
    (e.recast r).printed.flatMap binders = (e.printed.flatMap binders).map r.var := by
  rw [printed_recast hinj, List.flatMap_map, List.map_flatMap]
  exact List.flatMap_congr fun t _ => t.binders_recast r

end Scan

end ExprTree
