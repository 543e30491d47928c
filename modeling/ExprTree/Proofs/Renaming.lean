import ExprTree.Proofs.Derivation

/-!
# Trees equal up to bound variables

`AlphaEq ok ρ a b` says that `a` and `b` are equal up to the variables that lambdas bind, also
inside the trees that constants carry. The list `ρ` pairs the binders around `a` with those around `b`, the
innermost first, and `ok` restricts which parameters may stand for each other. Labels do not count.

Whether two trees are equal in this sense depends on how the pairing matches their free variables,
and on nothing else of it (`AlphaEq.change`). Since expansion looks at labels and at bound variables
only where it looks them up, it takes the same action at both (`AlphaEq.action`, `AlphaEq.layer`).
-/

namespace ExprTree

/-! ## Lists side by side -/

/-- Two lists of one length with items related place by place. -/
structure Aligned {α β : Type} (R : α → β → Prop) (xs : List α) (ys : List β) : Prop where
  length_eq : ys.length = xs.length
  rel : ∀ p ∈ xs.zip ys, R p.1 p.2

section Aligned

variable {α β : Type} {R S : α → β → Prop}

theorem aligned_nil : Aligned R [] [] := ⟨rfl, by simp⟩

theorem aligned_cons {x : α} {y : β} {xs : List α} {ys : List β} :
    Aligned R (x :: xs) (y :: ys) ↔ R x y ∧ Aligned R xs ys := by
  constructor
  · rintro ⟨hlength, hrel⟩
    exact ⟨hrel (x, y) (by simp), Nat.succ.inj hlength, fun p hp => hrel p (by simp [hp])⟩
  · rintro ⟨hxy, hlength, hrel⟩
    refine ⟨congrArg (· + 1) hlength, fun p hp => ?_⟩
    rcases List.mem_cons.1 hp with rfl | hp
    · exact hxy
    · exact hrel p hp

theorem aligned_append {xs xs' : List α} {ys ys' : List β} (hlength : ys.length = xs.length) :
    Aligned R (xs ++ xs') (ys ++ ys') ↔ Aligned R xs ys ∧ Aligned R xs' ys' := by
  have hzip : (xs ++ xs').zip (ys ++ ys') = xs.zip ys ++ xs'.zip ys' :=
    List.zip_append hlength.symm
  constructor
  · rintro ⟨hall, hrel⟩
    rw [List.length_append, List.length_append] at hall
    rw [hzip] at hrel
    exact ⟨⟨hlength, fun p hp => hrel p (List.mem_append_left _ hp)⟩, by omega,
      fun p hp => hrel p (List.mem_append_right _ hp)⟩
  · rintro ⟨h, h'⟩
    refine ⟨by rw [List.length_append, List.length_append, h.length_eq, h'.length_eq], ?_⟩
    rw [hzip]
    exact fun p hp => (List.mem_append.1 hp).elim (h.rel p) (h'.rel p)

theorem Aligned.imp {xs : List α} {ys : List β} (h : Aligned R xs ys)
    (himp : ∀ x ∈ xs, ∀ y ∈ ys, R x y → S x y) : Aligned S xs ys :=
  ⟨h.length_eq, fun p hp => himp _ (List.of_mem_zip hp).1 _ (List.of_mem_zip hp).2 (h.rel p hp)⟩

theorem aligned_map {γ : Type} {f : γ → α} {xs : List γ} {ys : List β} :
    Aligned R (xs.map f) ys ↔ Aligned (fun x y => R (f x) y) xs ys := by
  have hzip : (xs.map f).zip ys = (xs.zip ys).map fun p => (f p.1, p.2) := List.zip_map_left
  constructor
  · rintro ⟨hlength, hrel⟩
    rw [hzip] at hrel
    exact ⟨by simpa using hlength, fun p hp => hrel _ (List.mem_map_of_mem hp)⟩
  · rintro ⟨hlength, hrel⟩
    refine ⟨by simpa using hlength, ?_⟩
    rw [hzip]
    exact List.forall_mem_map.2 hrel

/-- An optional item beside an optional item. -/
theorem Aligned.toList {o : Option α} {o' : Option β} (h : Aligned R o.toList o'.toList) :
    o = none ∧ o' = none ∨ ∃ x y, o = some x ∧ o' = some y ∧ R x y := by
  cases o with
  | none =>
    cases o' with
    | none => exact .inl ⟨rfl, rfl⟩
    | some y => cases h.length_eq
  | some x =>
    cases o' with
    | none => cases h.length_eq
    | some y => exact .inr ⟨x, y, rfl, rfl, (aligned_cons.1 h).1⟩

end Aligned

/-- Children are related in the order of visits if they are in their own order. -/
theorem Node.aligned_visitOrder {R : Expr → Expr → Prop} {n n' : Node}
    (hshape : n'.shape = n.shape) :
    Aligned R n.visitOrder n'.visitOrder ↔ Aligned R n.children n'.children := by
  cases n with
  | invocation target args ty =>
    obtain ⟨target', args', rfl⟩ := invocation_of_shape hshape
    show Aligned R (args ++ [target]) (args' ++ [target']) ↔
      Aligned R (target :: args) (target' :: args')
    have hlength : ∀ {xs ys : List Expr}, (ys ++ [target']).length = (xs ++ [target]).length →
        ys.length = xs.length := by
      intro xs ys h
      simpa using h
    constructor
    · intro h
      obtain ⟨hargs, htarget⟩ := (aligned_append (hlength h.length_eq)).1 h
      exact aligned_cons.2 ⟨(aligned_cons.1 htarget).1, hargs⟩
    · intro h
      obtain ⟨htarget, hargs⟩ := aligned_cons.1 h
      exact (aligned_append hargs.length_eq).2 ⟨hargs, aligned_cons.2 ⟨htarget, aligned_nil⟩⟩
  | _ =>
    rw [visitOrder_eq_children (by simp [kind]),
      visitOrder_eq_children (kind_eq_of_shape hshape ▸ by simp [kind])]

/-! ## Paired variables -/

/-- The innermost pair that holds `v` on the left or `w` on the right holds both. -/
def Bound : List (Variable × Variable) → Variable → Variable → Prop
  | [], _, _ => False
  | (a, b) :: ρ, v, w => v = a ∧ w = b ∨ v ≠ a ∧ w ≠ b ∧ Bound ρ v w

/-- Two variables stand for each other: they are bound by the same pair, or they are bound by none
and equal. -/
def Matched (ρ : List (Variable × Variable)) (v w : Variable) : Prop :=
  Bound ρ v w ∨ v ∉ ρ.map (·.1) ∧ w ∉ ρ.map (·.2) ∧ v = w

section Matched

variable {ρ ξ : List (Variable × Variable)} {v w : Variable}

theorem Bound.mem (h : Bound ρ v w) : (v, w) ∈ ρ := by
  induction ρ with
  | nil => cases h
  | cons p ρ ih =>
    rcases h with ⟨rfl, rfl⟩ | ⟨-, -, h⟩
    · exact List.mem_cons_self
    · exact List.mem_cons_of_mem _ (ih h)

theorem bound_append : Bound (ξ ++ ρ) v w ↔
    Bound ξ v w ∨ v ∉ ξ.map (·.1) ∧ w ∉ ξ.map (·.2) ∧ Bound ρ v w := by
  induction ξ with
  | nil => simp [Bound]
  | cons p ξ ih =>
    simp only [List.cons_append, Bound, ih, List.map_cons, List.mem_cons, not_or]
    constructor
    · rintro (h | ⟨hv, hw, h | ⟨hv', hw', h⟩⟩)
      · exact .inl (.inl h)
      · exact .inl (.inr ⟨hv, hw, h⟩)
      · exact .inr ⟨⟨hv, hv'⟩, ⟨hw, hw'⟩, h⟩
    · rintro ((h | ⟨hv, hw, h⟩) | ⟨⟨hv, hv'⟩, ⟨hw, hw'⟩, h⟩)
      · exact .inl h
      · exact .inr ⟨hv, hw, .inl h⟩
      · exact .inr ⟨hv, hw, .inr ⟨hv', hw', h⟩⟩

/-- Inner pairs are looked at first. -/
theorem matched_append : Matched (ξ ++ ρ) v w ↔
    Bound ξ v w ∨ v ∉ ξ.map (·.1) ∧ w ∉ ξ.map (·.2) ∧ Matched ρ v w := by
  simp only [Matched, bound_append, List.map_append, List.mem_append, not_or]
  constructor
  · rintro ((h | ⟨hv, hw, h⟩) | ⟨⟨hv, hv'⟩, ⟨hw, hw'⟩, rfl⟩)
    · exact .inl h
    · exact .inr ⟨hv, hw, .inl h⟩
    · exact .inr ⟨hv, hw, .inr ⟨hv', hw', rfl⟩⟩
  · rintro (h | ⟨hv, hw, h | ⟨hv', hw', rfl⟩⟩)
    · exact .inl (.inl h)
    · exact .inl (.inr ⟨hv, hw, h⟩)
    · exact .inr ⟨⟨hv, hv'⟩, ⟨hw, hw'⟩, rfl⟩

theorem bound_zip_self {ps : List Variable} (h : v ∈ ps) : Bound (ps.zip ps) v v := by
  induction ps with
  | nil => cases h
  | cons p ps ih =>
    by_cases hv : v = p
    · exact .inl ⟨hv, hv⟩
    · exact .inr ⟨hv, hv, ih ((List.mem_cons.1 h).resolve_left hv)⟩

end Matched

/-! ## Equality up to bound variables -/

/-- Neither a variable, nor a binder, nor a constant that carries a tree. -/
def Node.isRigid : Node → Bool
  | .variable _ | .lambda .. | .constant (.tree _) _ => false
  | _ => true

@[simp] theorem Node.isRigid_shape (n : Node) : n.shape.isRigid = n.isRigid := by cases n <;> rfl

theorem Node.params_of_isRigid {n : Node} (h : n.isRigid = true) : n.params = [] := by
  cases n <;> first | rfl | cases h

/-- The left tree becomes the right one if bound variables are renamed. -/
inductive AlphaEq (ok : Variable → Variable → Prop) :
    List (Variable × Variable) → Expr → Expr → Prop
  | «variable» {ρ : List (Variable × Variable)} {a b : Expr} {v w : Variable} :
      a.node = .variable v → b.node = .variable w → Matched ρ v w → AlphaEq ok ρ a b
  | quoted {ρ : List (Variable × Variable)} {a b t u : Expr} {ty : Ty} :
      a.node = .constant (.tree t) ty → b.node = .constant (.tree u) ty → AlphaEq ok ρ t u →
      AlphaEq ok ρ a b
  | lambda {ρ : List (Variable × Variable)} {a b c d : Expr} {ps qs : List Variable} {ty : Ty} :
      a.node = .lambda ps c ty → b.node = .lambda qs d ty → qs.length = ps.length →
      (∀ p ∈ ps.zip qs, ok p.1 p.2) → AlphaEq ok (ps.zip qs ++ ρ) c d → AlphaEq ok ρ a b
  | node {ρ : List (Variable × Variable)} {a b : Expr} :
      a.node.isRigid = true → b.node.shape = a.node.shape →
      b.children.length = a.children.length →
      (∀ p ∈ a.children.zip b.children, AlphaEq ok ρ p.1 p.2) → AlphaEq ok ρ a b

theorem map_fst_zip_of_length {α β : Type} {xs : List α} {ys : List β}
    (h : ys.length = xs.length) : (xs.zip ys).map (·.1) = xs :=
  List.map_fst_zip (Nat.le_of_eq h.symm)

theorem map_snd_zip_of_length {α β : Type} {xs : List α} {ys : List β}
    (h : ys.length = xs.length) : (xs.zip ys).map (·.2) = ys :=
  List.map_snd_zip (Nat.le_of_eq h)

/-- Beside itself, a list has equal items. -/
theorem eq_of_mem_zip_self {α : Type} {xs : List α} {p : α × α} (h : p ∈ xs.zip xs) :
    ∃ x ∈ xs, p = (x, x) := by
  obtain ⟨i, hi, hp⟩ := List.mem_iff_getElem.1 h
  rw [List.getElem_zip] at hp
  exact ⟨_, List.getElem_mem _, hp.symm⟩

namespace AlphaEq

variable {ok ok' : Variable → Variable → Prop} {ρ ρ' : List (Variable × Variable)} {a b : Expr}

/-- Only the matching of free variables counts. -/
theorem change (h : AlphaEq ok ρ a b) (hok : ∀ v w, ok v w → ok' v w)
    (hmatch : ∀ v w, v ∈ a.freeVars → Matched ρ v w → Matched ρ' v w) : AlphaEq ok' ρ' a b := by
  induction h generalizing ρ' with
  | «variable» ha hb hm =>
    exact .variable ha hb (hmatch _ _ (Expr.mem_freeVars.2 (.inl (Node.mem_own.2 ha))) hm)
  | @quoted ρ a b t u ty ha hb _ ih =>
    refine .quoted ha hb (ih fun v w hv => hmatch v w (Expr.mem_freeVars.2 (.inr ⟨?_, t, ?_, hv⟩)))
    · rw [ha]
      exact List.not_mem_nil
    · exact List.mem_append_right _ (Node.mem_quoted.2 ⟨ty, ha⟩)
  | @lambda ρ a b c d ps qs ty ha hb hlength hpairs _ ih =>
    refine .lambda ha hb hlength (fun p hp => hok _ _ (hpairs p hp)) (ih fun v w hv hm => ?_)
    rcases matched_append.1 hm with hbound | ⟨hleft, hright, hm⟩
    · exact matched_append.2 (.inl hbound)
    · refine matched_append.2 (.inr ⟨hleft, hright, hmatch v w ?_ hm⟩)
      rw [map_fst_zip_of_length hlength] at hleft
      refine Expr.mem_freeVars_of_child (Expr.mem_children_of_lambda ha) hv ?_
      rw [ha]
      exact hleft
  | @node ρ a b hrigid hshape hlength _ ih =>
    refine .node hrigid hshape hlength fun p hp => ih p hp fun v w hv => hmatch v w ?_
    refine Expr.mem_freeVars_of_child (List.of_mem_zip hp).1 hv ?_
    rw [Node.params_of_isRigid hrigid]
    exact List.not_mem_nil

theorem mono (h : AlphaEq ok ρ a b) (hok : ∀ v w, ok v w → ok' v w) : AlphaEq ok' ρ a b :=
  h.change hok fun _ _ _ hm => hm

/-- A tree equals itself if its free variables match themselves. -/
theorem refl (hok : a.Everywhere fun b => ∀ p ∈ b.node.params, ok p p)
    (hfree : ∀ v ∈ a.freeVars, Matched ρ v v) : AlphaEq ok ρ a a := by
  induction a using Expr.partInduction generalizing ρ with
  | step a ih =>
    -- most nodes neither bind nor refer to anything themselves
    have hchildren : a.node.isRigid = true → AlphaEq ok ρ a a := by
      intro hrigid
      refine .node hrigid rfl rfl fun p hp => ?_
      obtain ⟨c, hc, rfl⟩ := eq_of_mem_zip_self hp
      refine ih c (Expr.mem_parts_of_mem_children hc) (hok.child hc) fun v hv => ?_
      refine hfree v (Expr.mem_freeVars_of_child hc hv ?_)
      rw [Node.params_of_isRigid hrigid]
      exact List.not_mem_nil
    cases hnode : a.node with
    | «variable» v =>
      exact .variable hnode hnode (hfree v (Expr.mem_freeVars.2 (.inl (Node.mem_own.2 hnode))))
    | lambda ps c ty =>
      have hc := Expr.mem_children_of_lambda hnode
      refine .lambda hnode hnode rfl ?_ (ih c (Expr.mem_parts_of_mem_children hc) (hok.child hc) ?_)
      · intro p hp
        obtain ⟨q, hq, rfl⟩ := eq_of_mem_zip_self hp
        exact hok.here q (hnode ▸ hq)
      · intro v hv
        by_cases hparam : v ∈ ps
        · exact matched_append.2 (.inl (bound_zip_self hparam))
        · have hmem := Expr.mem_freeVars_of_child hc hv (hnode ▸ hparam)
          refine matched_append.2 (.inr ⟨?_, ?_, hfree v hmem⟩)
          · rwa [map_fst_zip_of_length rfl]
          · rwa [map_snd_zip_of_length rfl]
    | constant value ty =>
      cases value with
      | tree t =>
        have ht : t ∈ a.node.quoted := Node.mem_quoted.2 ⟨ty, hnode⟩
        have hpart : t ∈ a.parts := List.mem_append_right _ (Node.mem_payload.2 (.inl ht))
        refine .quoted hnode hnode (ih t hpart (hok.part hpart) fun v hv => ?_)
        refine hfree v (Expr.mem_freeVars.2 (.inr ⟨?_, t, List.mem_append_right _ ht, hv⟩))
        rw [hnode]
        exact List.not_mem_nil
      | _ => exact hchildren (by rw [hnode]; rfl)
    | _ => exact hchildren (by rw [hnode]; rfl)

theorem kind_eq (h : AlphaEq ok ρ a b) : b.kind = a.kind := by
  cases h with
  | «variable» ha hb _ => rw [Expr.kind, Expr.kind, ha, hb]; rfl
  | quoted ha hb _ => rw [Expr.kind, Expr.kind, ha, hb]; rfl
  | lambda ha hb _ _ _ => rw [Expr.kind, Expr.kind, ha, hb]; rfl
  | node _ hshape _ _ => exact Node.kind_eq_of_shape hshape

/-- Equal trees have nodes of the same kinds in the same places. -/
theorem map_kind_nodes (h : AlphaEq ok ρ a b) :
    b.nodes.map Expr.kind = a.nodes.map Expr.kind := by
  -- nodes are listed top down, so the lists agree if they do at the top and for the children
  have hstep : ∀ {a b : Expr}, b.kind = a.kind → b.children.length = a.children.length →
      (∀ p ∈ a.children.zip b.children, p.2.nodes.map Expr.kind = p.1.nodes.map Expr.kind) →
      b.nodes.map Expr.kind = a.nodes.map Expr.kind := by
    intro a b hkind hlength hpairs
    have hbelow : b.children.map (fun c => c.nodes.map Expr.kind) =
        a.children.map fun c => c.nodes.map Expr.kind := by
      have hmap : (a.children.zip b.children).map (fun p => p.2.nodes.map Expr.kind) =
          (a.children.zip b.children).map fun p => p.1.nodes.map Expr.kind :=
        List.map_congr_left hpairs
      rw [← map_fst_zip_of_length hlength, ← map_snd_zip_of_length hlength, List.map_map,
        List.map_map]
      simpa [map_fst_zip_of_length hlength, map_snd_zip_of_length hlength] using hmap
    rw [Expr.nodes_eq, Expr.nodes_eq, List.map_cons, List.map_cons, hkind, List.map_flatten,
      List.map_flatten, List.map_map, List.map_map]
    exact congrArg (a.kind :: List.flatten ·) hbelow
  induction h with
  | «variable» ha hb _ =>
    exact hstep (by simp [Expr.kind, ha, hb, Node.kind])
      (by simp [Expr.children, ha, hb, Node.children])
      (by simp [Expr.children, ha, hb, Node.children])
  | quoted ha hb _ _ =>
    exact hstep (by simp [Expr.kind, ha, hb, Node.kind])
      (by simp [Expr.children, ha, hb, Node.children])
      (by simp [Expr.children, ha, hb, Node.children])
  | lambda ha hb _ _ _ ih =>
    refine hstep (by simp [Expr.kind, ha, hb, Node.kind]) ?_ ?_
    · simp [Expr.children, ha, hb, Node.children]
    · simpa [Expr.children, ha, hb, Node.children] using ih
  | node hrigid hshape hlength _ ih => exact hstep (Node.kind_eq_of_shape hshape) hlength ih

end AlphaEq

/-! ## The same actions -/

/-- Actions on both sides, with related arguments. A captured tree is the same on both sides. -/
inductive ActionEq (R : Expr → Expr → Prop) (M : Variable → Variable → Prop) :
    Action → Action → Prop
  | look {v w : Variable} : M v w → ActionEq R M (.look v) (.look w)
  | pass : ActionEq R M .pass .pass
  | inline {target target' : Expr} {args args' : List Expr} :
      R target target' → Aligned R args args' →
      ActionEq R M (.inline target args) (.inline target' args')
  | capture (compiled : Bool) (tree : Expr) :
      ActionEq R M (.capture compiled tree) (.capture compiled tree)
  | unwrap {query query' : Expr} :
      R query query' → ActionEq R M (.unwrap query) (.unwrap query')
  | descend : ActionEq R M .descend .descend
  | fail (failure failure' : Failure) : ActionEq R M (.fail failure) (.fail failure')

namespace AlphaEq

variable {ok : Variable → Variable → Prop} {ρ : List (Variable × Variable)} {a b : Expr}

/-- Closures are the same on both sides. -/
theorem closure?_eq (h : AlphaEq ok ρ a b) : b.closure? = a.closure? := by
  cases h with
  | «variable» ha hb _ => simp [Expr.closure?, ha, hb]
  | quoted ha hb _ => simp [Expr.closure?, ha, hb]
  | lambda ha hb _ _ _ => simp [Expr.closure?, ha, hb]
  | node _ hshape _ _ =>
    have hclosure : ∀ e : Expr, e.closure? = (Expr.mk 0 e.node.shape).closure? := by
      rintro ⟨l, n⟩
      cases n <;> rfl
    rw [hclosure, hshape, ← hclosure]

theorem capturedTree?_eq {o o' : Option Expr} (h : Aligned (AlphaEq ok ρ) o.toList o'.toList)
    (member : Member) : member.capturedTree? o' = member.capturedTree? o := by
  rcases h.toList with ⟨rfl, rfl⟩ | ⟨x, y, rfl, rfl, hxy⟩
  · rfl
  · show (member.heldTree? (some y) >>= _) = (member.heldTree? (some x) >>= _)
    have hheld : member.heldTree? (some y) = member.heldTree? (some x) := by
      show (_ >>= fun _ => y.closure? >>= _) = (_ >>= fun _ => x.closure? >>= _)
      rw [hxy.closure?_eq]
    rw [hheld]

theorem aligned_children (h : AlphaEq ok ρ a b) (hrigid : a.node.isRigid = true) :
    b.node.shape = a.node.shape ∧ Aligned (AlphaEq ok ρ) a.children b.children := by
  cases h with
  | «variable» ha _ _ =>
    rw [ha] at hrigid
    cases hrigid
  | quoted ha _ _ =>
    rw [ha] at hrigid
    cases hrigid
  | lambda ha _ _ _ _ =>
    rw [ha] at hrigid
    cases hrigid
  | node _ hshape hlength hpairs => exact ⟨hshape, hlength, hpairs⟩

/-- The compile marker finds the same captured tree on both sides. -/
private theorem compile_action {o o' : Option Expr}
    (h : Aligned (AlphaEq ok ρ) o.toList o'.toList) {method : Method} {args args' : List Expr}
    (hmarker : method.marker = some .compile) :
    ActionEq (AlphaEq ok ρ) (Matched ρ) (Node.call o method args).action
      (Node.call o' method args').action := by
  simp only [Node.action, hmarker]
  rcases h.toList with ⟨rfl, rfl⟩ | ⟨x, y, rfl, rfl, hxy⟩
  · exact .descend
  · simp only [Option.map_some]
    have hkind := hxy.kind_eq
    cases hx : x.node with
    | memberAccess inner member =>
      obtain ⟨hshape, hinner⟩ := hxy.aligned_children (by rw [hx]; rfl)
      rw [hx] at hshape
      obtain ⟨inner', hy, -⟩ := Node.memberAccess_of_shape hshape
      simp only [Expr.children, hx, hy, Node.children] at hinner
      simp only [hy, capturedTree?_eq hinner member]
      split
      · exact .capture true _
      · exact .descend
    | _ =>
      cases hy : y.node <;> first
        | exact .descend
        | (simp [Expr.kind, Node.kind, hx, hy] at hkind)

/-- Expansion takes the same action at equal trees. -/
theorem action (h : AlphaEq ok ρ a b) :
    ActionEq (AlphaEq ok ρ) (Matched ρ) a.node.action b.node.action := by
  cases h with
  | «variable» ha hb hm =>
    rw [ha, hb]
    exact .look hm
  | quoted ha hb _ =>
    rw [ha, hb]
    exact .pass
  | lambda ha hb _ _ _ =>
    rw [ha, hb]
    exact .descend
  | node hrigid hshape hlength hpairs =>
    have hchildren : Aligned (AlphaEq ok ρ) a.children b.children := ⟨hlength, hpairs⟩
    obtain ⟨l, n⟩ := a
    obtain ⟨l', n'⟩ := b
    simp only [Expr.node_mk, Expr.children] at hrigid hshape hchildren ⊢
    cases n with
    | «variable» => cases hrigid
    | lambda => cases hrigid
    | constant value ty =>
      cases n' <;> cases hshape
      exact .pass
    | extension kind ty =>
      cases n' <;> cases hshape
      exact .fail _ _
    | invocation target args ty =>
      obtain ⟨target', args', rfl⟩ := Node.invocation_of_shape hshape
      obtain ⟨htarget, hargs⟩ := aligned_cons.1 hchildren
      exact .inline htarget hargs
    | memberAccess object member =>
      obtain ⟨object', rfl, -⟩ := Node.memberAccess_of_shape hshape
      simp only [Node.action, capturedTree?_eq hchildren member]
      split
      · exact .capture false _
      · exact .descend
    | call object method args =>
      obtain ⟨object', args', rfl, hobjects⟩ := Node.call_of_shape hshape
      obtain ⟨hobject, hargs⟩ := (aligned_append hobjects).1 hchildren
      -- markers are told apart by the method, which both sides share
      rcases hmarker : method.marker with _ | _ | _ | _
      · simp only [Node.action, hmarker]
        exact .descend
      · simp only [Node.action, hmarker]
        rcases args with _ | ⟨target, args⟩ <;> rcases args' with _ | ⟨target', args'⟩
        · exact .fail _ _
        · cases hargs.length_eq
        · cases hargs.length_eq
        · obtain ⟨htarget, hargs⟩ := aligned_cons.1 hargs
          exact .inline htarget hargs
      · simp only [Node.action, hmarker]
        rcases args with _ | ⟨query, _ | ⟨_, _⟩⟩ <;>
          rcases args' with _ | ⟨query', _ | ⟨_, _⟩⟩ <;>
          first
          | exact .fail _ _
          | exact .unwrap (aligned_cons.1 hargs).1
          | exact absurd hargs.length_eq (by simp)
      · exact compile_action hobject hmarker
    | _ =>
      have hkind := Node.kind_eq_of_shape hshape
      cases n' <;> first
        | exact .descend
        | (simp [Node.kind] at hkind)

end AlphaEq

/-- Layers of targets on both sides. The inner target of a layer is equal to its counterpart, or is
a captured tree and the same on both sides. -/
inductive LayerEq (ok : Variable → Variable → Prop) (ρ : List (Variable × Variable))
    (Captured : Expr → Prop) : Layer → Layer → Prop
  | lambda {ps qs : List Variable} {c d : Expr} : qs.length = ps.length →
      (∀ p ∈ ps.zip qs, ok p.1 p.2) → AlphaEq ok (ps.zip qs ++ ρ) c d →
      LayerEq ok ρ Captured (.lambda ps c) (.lambda qs d)
  | var {v w : Variable} : Matched ρ v w → LayerEq ok ρ Captured (.var v) (.var w)
  | inner (count : Stats → Stats) {t u : Expr} :
      AlphaEq ok ρ t u → LayerEq ok ρ Captured (.around count t) (.around count u)
  | captured (count : Stats → Stats) {t : Expr} :
      Captured t → LayerEq ok ρ Captured (.around count t) (.around count t)
  | blocked (failure failure' : Failure) :
      LayerEq ok ρ Captured (.blocked failure) (.blocked failure')

namespace AlphaEq

variable {ok : Variable → Variable → Prop} {ρ : List (Variable × Variable)} {a b : Expr}

/-- Equal targets have the same outermost layer. -/
theorem layer (h : AlphaEq ok ρ a b) :
    LayerEq ok ρ (fun t => ∃ o : Expr, o.Within a ∧ t ∈ o.node.captured)
      a.node.layer b.node.layer := by
  cases h with
  | «variable» ha hb hm =>
    rw [ha, hb]
    exact .var hm
  | quoted ha hb hm =>
    rw [ha, hb]
    exact .inner id hm
  | lambda ha hb hlength hpairs hbody =>
    rw [ha, hb]
    exact .lambda hlength hpairs hbody
  | node hrigid hshape hlength hpairs =>
    have hchildren : Aligned (AlphaEq ok ρ) a.children b.children := ⟨hlength, hpairs⟩
    obtain ⟨l, n⟩ := a
    obtain ⟨l', n'⟩ := b
    simp only [Expr.node_mk, Expr.children] at hrigid hshape hchildren ⊢
    cases n with
    | «variable» => cases hrigid
    | lambda => cases hrigid
    | constant value ty =>
      cases n' <;> cases hshape
      cases value <;> first | exact .blocked _ _ | cases hrigid
    | memberAccess object member =>
      obtain ⟨object', rfl, -⟩ := Node.memberAccess_of_shape hshape
      simp only [Node.layer, capturedTree?_eq hchildren member]
      split
      · next hread =>
        obtain ⟨o, rfl, htree⟩ := Member.captured_of_capturedTree? hread
        refine .captured _ ⟨o, .part (Expr.mem_parts_of_mem_children ?_) (.here o), htree⟩
        exact List.mem_singleton_self o
      · exact .blocked _ _
    | call object method args =>
      obtain ⟨object', args', rfl, hobjects⟩ := Node.call_of_shape hshape
      obtain ⟨hobject, -⟩ := (aligned_append hobjects).1 hchildren
      simp only [Node.layer]
      split
      · rcases hobject.toList with ⟨rfl, rfl⟩ | ⟨x, y, rfl, rfl, hxy⟩
        · exact .blocked _ _
        · exact .inner _ hxy
      · exact .blocked _ _
    | unary op operand ty method =>
      obtain ⟨operand', rfl⟩ := Node.unary_of_shape hshape
      cases op with
      | quote => exact .inner id (aligned_cons.1 hchildren).1
      | _ => exact .blocked _ _
    | _ =>
      have hkind := Node.kind_eq_of_shape hshape
      cases n' <;> first
        | exact .blocked _ _
        | (simp [Node.kind] at hkind)

end AlphaEq

end ExprTree
