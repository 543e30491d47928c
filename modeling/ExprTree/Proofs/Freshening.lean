import ExprTree.Proofs.Renaming

/-!
# Fresh copies of lambdas

`Expansion.freshly` gives a lambda new parameters before it is inlined, and new parameters to every
lambda inside it, also inside the trees that its constants carry. It never fails, and the copy is
equal to the lambda up to bound variables (`Expansion.succeeds_freshly`).

The copies made in a run are tracked by a `World`: a heap that also knows of every variable which
variable of the source it is a copy of. `Succeeds` is the specification of a step that cannot fail:
it ends in a later world with a result that satisfies a condition there.
-/

namespace ExprTree

/-! ## Worlds -/

/-- A heap with the origin of every variable. The variables below `base` are their own origin. -/
structure World (base : Nat) extends Heap where
  origin : Variable → Variable
  base_le : base ≤ next
  origin_base : ∀ v, v.id < base → origin v = v

/-- The variables at an expression have identities below `next`. -/
def VarsBelow (next : Nat) (a : Expr) : Prop := ∀ v ∈ a.node.own ++ a.node.params, v.id < next

theorem VarsBelow.of_shape {next : Nat} {a b : Expr} (hshape : a.node.shape = b.node.shape)
    (h : VarsBelow next b) : VarsBelow next a := by
  have hown : a.node.own = b.node.own := by rw [← Node.own_shape, hshape, Node.own_shape]
  have hparams : a.node.params = b.node.params := by
    rw [← Node.params_shape, hshape, Node.params_shape]
  unfold VarsBelow
  rw [hown, hparams]
  exact h

theorem VarsBelow.mono {next next' : Nat} {a : Expr} (h : VarsBelow next a) (hle : next ≤ next') :
    VarsBelow next' a :=
  fun v hv => Nat.lt_of_lt_of_le (h v hv) hle

namespace World

variable {base : Nat}

/-- A later world has the nodes and the variables of an earlier one. -/
protected structure Le (w w' : World base) : Prop where
  heap : w.toHeap ≤ w'.toHeap
  origin_eq : ∀ v, v.id < w.next → w'.origin v = w.origin v

instance : LE (World base) := ⟨World.Le⟩

protected theorem le_refl (w : World base) : w ≤ w := ⟨w.toHeap.le_refl, fun _ _ => rfl⟩

protected theorem le_trans {w₁ w₂ w₃ : World base} (h₁₂ : w₁ ≤ w₂) (h₂₃ : w₂ ≤ w₃) : w₁ ≤ w₃ where
  heap := Heap.le_trans h₁₂.heap h₂₃.heap
  origin_eq v hv := by
    rw [h₂₃.origin_eq v (Nat.lt_of_lt_of_le hv h₁₂.heap.next_le), h₁₂.origin_eq v hv]

/-- The tree is held, and its variables have been made. -/
structure Keeps (w : World base) (e : Expr) : Prop where
  held : w.toHeap.Holds e
  below : e.Everywhere (VarsBelow w.next)

theorem Keeps.mono {w w' : World base} {e : Expr} (h : w.Keeps e) (hle : w ≤ w') : w'.Keeps e where
  held := h.held.mono hle.heap
  below := h.below.imp fun _ ha => ha.mono hle.heap.next_le

theorem Keeps.within {w : World base} {a e : Expr} (h : w.Keeps e) (ha : a.Within e) : w.Keeps a :=
  ⟨h.held.within ha, h.below.within ha⟩

theorem Keeps.child {w : World base} {c e : Expr} (h : w.Keeps e) (hc : c ∈ e.children) :
    w.Keeps c :=
  h.within (.part (Expr.mem_parts_of_mem_children hc) (.here c))

/-- The variable `c` has been made, as a copy of `v`. -/
structure Copies (w : World base) (v c : Variable) : Prop where
  lt_next : c.id < w.next
  origin_eq : w.origin c = v
  ty_eq : c.ty = v.ty

theorem Copies.mono {w w' : World base} {v c : Variable} (h : w.Copies v c) (hle : w ≤ w') :
    w'.Copies v c where
  lt_next := Nat.lt_of_lt_of_le h.lt_next hle.heap.next_le
  origin_eq := (hle.origin_eq c h.lt_next).trans h.origin_eq
  ty_eq := h.ty_eq

theorem copies_self {w : World base} {v : Variable} (hv : v.id < base) : w.Copies v v where
  lt_next := Nat.lt_of_lt_of_le hv w.base_le
  origin_eq := w.origin_base v hv
  ty_eq := rfl

/-- The world in which the next label is given to a node. -/
def push (w : World base) (n : Node) : World base where
  toHeap := w.toHeap.push n
  origin := w.origin
  base_le := Nat.le_succ_of_le w.base_le
  origin_base := w.origin_base

theorem le_push (w : World base) (n : Node) : w ≤ w.push n := ⟨w.toHeap.le_push n, fun _ _ => rfl⟩

/-- The world in which the next identity is given to a copy of `v`. -/
def copy (w : World base) (v : Variable) : World base where
  toHeap := w.toHeap.skipTo (w.next + 1)
  origin u := if u.id = w.next then w.origin v else w.origin u
  base_le := Nat.le_succ_of_le w.base_le
  origin_base u hu := by
    rw [if_neg (Nat.ne_of_lt (Nat.lt_of_lt_of_le hu w.base_le)), w.origin_base u hu]

theorem le_copy (w : World base) (v : Variable) : w ≤ w.copy v where
  heap := Heap.le_skipTo (Nat.le_succ _)
  origin_eq _ hu := if_neg (Nat.ne_of_lt hu)

end World

theorem AlphaEq.later {base : Nat} {w w' : World base} {ρ : List (Variable × Variable)} {a b : Expr}
    (h : AlphaEq w.Copies ρ a b) (hle : w ≤ w') : AlphaEq w'.Copies ρ a b :=
  h.mono fun _ _ hcopy => hcopy.mono hle

/-! ## Steps that succeed -/

section Succeeds

open Walk

variable {base : Nat} {σ α β γ : Type} {w : World base} {st : WalkState σ}

/-- The step succeeds and comes back to the same guard, in a later world, with a result that
satisfies `Q` there. -/
def Succeeds (w : World base) (st : WalkState σ) (x : Walk σ α) (Q : World base → α → Prop) :
    Prop :=
  ∃ a st' w', x.Yields st a st' ∧ st'.guard = st.guard ∧ w ≤ w' ∧ st'.supply.next = w'.next ∧ Q w' a

theorem Succeeds.pure {a : α} {Q : World base → α → Prop} (hst : st.supply.next = w.next)
    (h : Q w a) : Succeeds w st (pure a) Q :=
  ⟨a, st, w, yields_pure.2 ⟨rfl, rfl⟩, rfl, w.le_refl, hst, h⟩

theorem Succeeds.bind {x : Walk σ α} {f : α → Walk σ β} {Q : World base → α → Prop}
    {R : World base → β → Prop} (hx : Succeeds w st x Q)
    (hf : ∀ a st' w', w ≤ w' → st'.guard = st.guard → st'.supply.next = w'.next → Q w' a →
      Succeeds w' st' (f a) R) : Succeeds w st (x >>= f) R := by
  obtain ⟨a, st₁, w₁, ha, hguard₁, hle₁, hst₁, hQ⟩ := hx
  obtain ⟨b, st₂, w₂, hb, hguard₂, hle₂, hst₂, hR⟩ := hf a st₁ w₁ hle₁ hguard₁ hst₁ hQ
  exact ⟨b, st₂, w₂, yields_bind.2 ⟨a, st₁, ha, hb⟩, hguard₂.trans hguard₁,
    World.le_trans hle₁ hle₂, hst₂, hR⟩

theorem Succeeds.imp {x : Walk σ α} {Q R : World base → α → Prop} (hx : Succeeds w st x Q)
    (himp : ∀ w' a, w ≤ w' → Q w' a → R w' a) : Succeeds w st x R := by
  obtain ⟨a, st₁, w₁, ha, hguard₁, hle₁, hst₁, hQ⟩ := hx
  exact ⟨a, st₁, w₁, ha, hguard₁, hle₁, hst₁, himp w₁ a hle₁ hQ⟩

theorem Succeeds.modifyOwn {f : σ → σ} (hst : st.supply.next = w.next) :
    Succeeds w st (modifyOwn f) fun w' _ => w' = w :=
  ⟨(), _, w, yields_modifyOwn.2 rfl, rfl, w.le_refl, hst, rfl⟩

theorem Succeeds.liftM {x : Except Failure α} {a : α} (hst : st.supply.next = w.next)
    (hx : x = .ok a) : Succeeds w st (liftM x) fun w' b => w' = w ∧ b = a :=
  ⟨a, st, w, yields_liftM.2 ⟨hx, rfl⟩, rfl, w.le_refl, hst, rfl, rfl⟩

/-- With room for a level, a step that succeeds further down succeeds guarded. -/
theorem Succeeds.guarded {x : Walk σ α} {Q : World base → α → Prop} {n : Nat}
    (hst : st.supply.next = w.next) (hroom : Room (n + 1) st)
    (hx : ∀ st₀ : WalkState σ, st₀.supply.next = w.next → Room n st₀ → Succeeds w st₀ x Q) :
    Succeeds w st (guarded x) Q := by
  obtain ⟨st₀, hsupply, -, hroom₀, hguarded⟩ := hroom.enter
  rw [← hsupply] at hst
  obtain ⟨a, st₁, w₁, ha, hguard₁, hle₁, hst₁, hQ⟩ := hx st₀ hst hroom₀
  exact ⟨a, { st₁ with guard := st.guard }, w₁, hguarded x a st₁ ha hguard₁, rfl, hle₁, hst₁, hQ⟩

/-- A new node around kept parts is kept. -/
theorem Succeeds.alloc {n : Node} (hst : st.supply.next = w.next)
    (hparts : ∀ c ∈ n.children ++ n.payload, w.Keeps c)
    (hvars : ∀ v ∈ n.own ++ n.params, v.id < w.next) :
    Succeeds w st (alloc n) fun w' e => w'.Keeps e ∧ e.node = n ∧ w ≤ w' := by
  refine ⟨.mk st.supply.next n, _, w.push n, yields_alloc.2 ⟨rfl, rfl⟩, rfl, w.le_push n,
    congrArg (· + 1) hst, ⟨?_, ?_⟩, rfl, w.le_push n⟩
  · rw [hst]
    exact Heap.holds_push fun c hc => (hparts c hc).held
  · refine Expr.everywhere_iff.2 ⟨fun v hv => Nat.lt_succ_of_lt (hvars v hv), fun c hc => ?_⟩
    exact ((hparts c hc).mono (w.le_push n)).below

/-- Items are visited one after the other, each beside its counterpart in another list. -/
theorem Succeeds.each {f : α → Walk σ β} {Q : World base → γ → β → Prop}
    (hmono : ∀ {w w' : World base} {c b}, Q w c b → w ≤ w' → Q w' c b) {cs : List γ} {xs : List α}
    (hlength : xs.length = cs.length) (hst : st.supply.next = w.next)
    (hf : ∀ p ∈ cs.zip xs, ∀ w' st', w ≤ w' → st'.guard = st.guard → st'.supply.next = w'.next →
      Succeeds w' st' (f p.2) fun w'' b => Q w'' p.1 b) :
    Succeeds w st (each f xs) fun w' bs => Aligned (Q w') cs bs := by
  induction xs generalizing cs w st with
  | nil =>
    obtain rfl : cs = [] := List.eq_nil_of_length_eq_zero hlength.symm
    exact Succeeds.pure hst aligned_nil
  | cons x xs ih =>
    obtain ⟨c, cs, rfl⟩ := List.exists_cons_of_length_eq_add_one hlength.symm
    have hhead := hf (c, x) (by simp) w st w.le_refl rfl hst
    refine hhead.bind fun b st₁ w₁ hle₁ hguard₁ hst₁ hb => ?_
    have htail := ih (Nat.succ.inj hlength) hst₁ fun p hp w' st' hle' hguard' hst' =>
      hf p (by simp [hp]) w' st' (World.le_trans hle₁ hle') (hguard'.trans hguard₁) hst'
    refine htail.bind fun bs st₂ w₂ hle₂ _ hst₂ hbs => ?_
    exact Succeeds.pure hst₂ (aligned_cons.2 ⟨hmono hb hle₂, hbs⟩)

/-- A walk through the children keeps the shape and puts kept results in their places. -/
theorem Succeeds.children {f : Expr → Walk σ Expr} {Q : World base → List Expr → Prop} {e : Expr}
    (hmono : ∀ {w w' : World base} {cs}, Q w cs → w ≤ w' → Q w' cs) (he : w.Keeps e)
    (hvisits : Succeeds w st (Walk.each f e.node.visitOrder) fun w' cs =>
      (∀ c ∈ cs, w'.Keeps c) ∧ Q w' cs) :
    Succeeds w st (Walk.children e fun c _ => f c) fun w' out =>
      w'.Keeps out ∧ out.node.shape = e.node.shape ∧ Q w' out.node.visitOrder := by
  obtain ⟨cs, st₁, w₁, heach, hguard₁, hle₁, hst₁, hkept, hQ⟩ := hvisits
  have he₁ := he.mono hle₁
  obtain ⟨out, st₂, h', hrun, hle, hheld, hnext, hguard₂, -, hshape, horder⟩ :=
    Yields.children he₁.held (fun c hc => (hkept c hc).held) hst₁ heach
  -- the heap may have grown by the node itself
  let w₂ : World base :=
    ⟨h', w₁.origin, Nat.le_trans w₁.base_le hle.next_le, w₁.origin_base⟩
  have hle₂ : w₁ ≤ w₂ := ⟨hle, fun _ _ => rfl⟩
  refine ⟨out, st₂, w₂, hrun, hguard₂.trans hguard₁, World.le_trans hle₁ hle₂, hnext,
    ⟨hheld, Expr.everywhere_iff.2 ⟨?_, fun c hc => ?_⟩⟩, hshape, horder ▸ hmono hQ hle₂⟩
  · exact (he₁.below.here.of_shape hshape).mono hle.next_le
  · rcases List.mem_append.1 hc with hc | hc
    · have hcs : c ∈ cs := horder ▸ Node.mem_visitOrder.2 hc
      exact ((hkept c hcs).mono hle₂).below
    · rw [← Node.payload_shape, hshape, Node.payload_shape] at hc
      exact (he₁.mono hle₂).below.part (List.mem_append_right _ hc)

end Succeeds

/-! ## Copies of trees -/

/-- Makes a new variable of the same name and type. -/
def Walk.copy {σ : Type} (v : Variable) : Walk σ Variable := do
  let s ← get
  let (c, supply) := (Variable.alloc v.name v.ty).run s.supply
  set { s with supply := supply }
  pure c

/-- Gives new parameters to every lambda in a tree, also inside the trees that constants carry, and
replaces free variables as `renamed` says. Closures stay as they are. -/
def Expr.freshen {σ : Type} (renamed : List (Variable × Variable)) : Expr → Walk σ Expr
  | .mk l (.variable v) =>
    match renamed.lookup v with
    | some c => Walk.alloc (.variable c)
    | none => pure (.mk l (.variable v))
  | .mk _ (.constant (.tree t) ty) => do
    let t ← t.freshen renamed
    Walk.alloc (.constant (.tree t) ty)
  | .mk _ (.lambda params body ty) => do
    let copies ← Walk.each Walk.copy params
    let body ← body.freshen (params.zip copies ++ renamed)
    Walk.alloc (.lambda copies body ty)
  | e => Walk.children e fun c _ => c.freshen renamed
termination_by e => sizeOf e
decreasing_by
  · simp only [Expr.mk.sizeOf_spec, Node.constant.sizeOf_spec, Value.tree.sizeOf_spec]
    omega
  · simp only [Expr.mk.sizeOf_spec, Node.lambda.sizeOf_spec]
    omega
  · exact Expr.sizeOf_lt_of_mem_children ‹_›

theorem Expr.freshen_of_isRigid {σ : Type} {e : Expr} (h : e.node.isRigid = true)
    (renamed : List (Variable × Variable)) :
    e.freshen renamed = (Walk.children e fun c _ => c.freshen renamed : Walk σ Expr) := by
  obtain ⟨l, n⟩ := e
  cases n with
  | «variable» => cases h
  | lambda => cases h
  | constant value ty => cases value <;> first | rw [freshen] <;> simp | cases h
  | _ => rw [freshen] <;> simp

/-- A lambda is given new parameters, inside and out, before it is inlined. -/
def Expansion.freshly : Preparation := fun params body => do
  let copies ← Walk.each Walk.copy params
  let body ← body.freshen (params.zip copies)
  pure (copies, body)

/-! ## What copies are equal to -/

/-- A binder on the left, its counterpart on the right, and the copy that replaces the
counterpart. -/
structure Renamed where
  left : Variable
  right : Variable
  copy : Variable

namespace Renamed

/-- The binders paired before the renaming. -/
def before (τ : List Renamed) : List (Variable × Variable) := τ.map fun t => (t.left, t.right)

/-- The renaming itself. -/
def substitution (τ : List Renamed) : List (Variable × Variable) := τ.map fun t => (t.right, t.copy)

/-- The binders paired after the renaming. -/
def after (τ : List Renamed) : List (Variable × Variable) := τ.map fun t => (t.left, t.copy)

/-- Three lists side by side. -/
def zip (ps qs cs : List Variable) : List Renamed :=
  (ps.zip (qs.zip cs)).map fun t => ⟨t.1, t.2.1, t.2.2⟩

section Zip

variable {ps qs cs : List Variable}

theorem zip_cons (p q c : Variable) :
    zip (p :: ps) (q :: qs) (c :: cs) = ⟨p, q, c⟩ :: zip ps qs cs :=
  rfl

theorem maps_zip (hqs : qs.length = ps.length) (hcs : cs.length = qs.length) :
    before (zip ps qs cs) = ps.zip qs ∧ substitution (zip ps qs cs) = qs.zip cs ∧
      after (zip ps qs cs) = ps.zip cs ∧ (zip ps qs cs).map copy = cs := by
  induction ps generalizing qs cs with
  | nil =>
    obtain rfl : qs = [] := List.eq_nil_of_length_eq_zero hqs
    obtain rfl : cs = [] := List.eq_nil_of_length_eq_zero hcs
    exact ⟨rfl, rfl, rfl, rfl⟩
  | cons p ps ih =>
    obtain ⟨q, qs, rfl⟩ := List.exists_cons_of_length_eq_add_one hqs
    obtain ⟨c, cs, rfl⟩ := List.exists_cons_of_length_eq_add_one hcs
    obtain ⟨hbefore, hsubstitution, hafter, hcopies⟩ := ih (Nat.succ.inj hqs) (Nat.succ.inj hcs)
    rw [zip_cons]
    exact ⟨congrArg (_ :: ·) hbefore, congrArg (_ :: ·) hsubstitution, congrArg (_ :: ·) hafter,
      congrArg (_ :: ·) hcopies⟩

end Zip

variable {τ : List Renamed} {v w : Variable}

/-- What is bound before the renaming is renamed to what is bound after it. -/
theorem bound_after (hcopies : (τ.map copy).Nodup) (h : Bound (before τ) v w) :
    ∃ c, (substitution τ).lookup w = some c ∧ Bound (after τ) v c := by
  induction τ with
  | nil => cases h
  | cons t τ ih =>
    obtain ⟨hnew, hcopies⟩ := List.nodup_cons.1 hcopies
    rcases h with ⟨rfl, rfl⟩ | ⟨hv, hw, h⟩
    · exact ⟨t.copy, by simp [substitution], .inl ⟨rfl, rfl⟩⟩
    · obtain ⟨c, hlookup, hbound⟩ := ih hcopies h
      refine ⟨c, ?_, .inr ⟨hv, ?_, hbound⟩⟩
      · have hne : (w == t.right) = false := by simpa using hw
        simpa [substitution, List.lookup_cons, hne] using hlookup
      · rintro rfl
        obtain ⟨u, hu, hcopy⟩ := List.mem_map.1 hbound.mem
        exact hnew (List.mem_map.2 ⟨u, hu, congrArg Prod.snd hcopy⟩)

/-- What is not bound on the right is not renamed. -/
theorem lookup_substitution (h : w ∉ (before τ).map (·.2)) : (substitution τ).lookup w = none := by
  refine List.lookup_eq_none_iff.2 fun p hp => ?_
  obtain ⟨t, ht, rfl⟩ := List.mem_map.1 hp
  simp only [bne_iff_ne, ne_eq]
  rintro rfl
  exact h (by simpa [before] using ⟨t, ht, rfl⟩)

/-- What is known of the copies made so far: they are distinct and have identities from `floor` on, and
those of later copies come behind. -/
structure CopiesFrom (floor next : Nat) (τ : List Renamed) : Prop where
  nodup : (τ.map copy).Nodup
  floor_le : ∀ t ∈ τ, floor ≤ t.copy.id
  lt_next : ∀ t ∈ τ, t.copy.id < next
  le_next : floor ≤ next

theorem copiesFrom_nil (next : Nat) : CopiesFrom next next [] :=
  ⟨List.nodup_nil, by simp, by simp, Nat.le_refl next⟩

theorem CopiesFrom.mono {floor next next' : Nat} (h : CopiesFrom floor next τ) (hle : next ≤ next') :
    CopiesFrom floor next' τ :=
  ⟨h.nodup, h.floor_le, fun t ht => Nat.lt_of_lt_of_le (h.lt_next t ht) hle, Nat.le_trans h.le_next hle⟩

/-- The parameters of one more lambda get copies. -/
theorem CopiesFrom.zip_append {floor next next' : Nat} {ps qs cs : List Variable}
    (h : CopiesFrom floor next τ) (hle : next ≤ next') (hmap : (zip ps qs cs).map copy = cs)
    (hcs : cs.Nodup) (hnew : ∀ c ∈ cs, next ≤ c.id ∧ c.id < next') :
    CopiesFrom floor next' (zip ps qs cs ++ τ) := by
  have hzip : ∀ t ∈ zip ps qs cs, t.copy ∈ cs := fun t ht => hmap ▸ List.mem_map_of_mem ht
  refine ⟨?_, ?_, ?_, Nat.le_trans h.le_next hle⟩
  · rw [List.map_append, hmap]
    refine List.nodup_append.2 ⟨hcs, h.nodup, ?_⟩
    rintro x hx y hy rfl
    obtain ⟨t, ht, rfl⟩ := List.mem_map.1 hy
    exact absurd (hnew _ hx).1 (Nat.not_le.2 (h.lt_next t ht))
  · exact List.forall_mem_append.2 ⟨fun t ht => Nat.le_trans h.le_next (hnew _ (hzip t ht)).1, h.floor_le⟩
  · exact List.forall_mem_append.2 ⟨fun t ht => (hnew _ (hzip t ht)).2, (h.mono hle).lt_next⟩

end Renamed

section Freshen

open Walk

variable {base : Nat} {σ : Type} {w : World base} {st : WalkState σ}

theorem succeeds_copy (v : Variable) (hst : st.supply.next = w.next) :
    Succeeds w st (copy v) fun w' c => w' = w.copy v ∧ c = ⟨w.next, v.name, v.ty⟩ := by
  refine ⟨⟨st.supply.next, v.name, v.ty⟩, { st with supply := ⟨st.supply.next + 1⟩ }, w.copy v, rfl,
    rfl, w.le_copy v, congrArg (· + 1) hst, rfl, ?_⟩
  rw [hst]

/-- The copies of a list of variables are new and distinct, and copies of the same originals. -/
theorem succeeds_copies {ps qs : List Variable} (hst : st.supply.next = w.next)
    (hpairs : Aligned w.Copies ps qs) :
    Succeeds w st (each copy qs) fun w' cs => cs.Nodup ∧
      (∀ c ∈ cs, w.next ≤ c.id ∧ c.id < w'.next) ∧ Aligned w'.Copies ps cs := by
  induction qs generalizing ps w st with
  | nil =>
    obtain rfl : ps = [] := List.eq_nil_of_length_eq_zero hpairs.length_eq.symm
    exact Succeeds.pure hst ⟨List.nodup_nil, by simp, aligned_nil⟩
  | cons q qs ih =>
    obtain ⟨p, ps, rfl⟩ := List.exists_cons_of_length_eq_add_one hpairs.length_eq.symm
    obtain ⟨hpq, hpairs⟩ := aligned_cons.1 hpairs
    refine (succeeds_copy q hst).bind ?_
    rintro _ st₁ _ hle₁ - hst₁ ⟨rfl, rfl⟩
    have hcopy : (w.copy q).Copies p ⟨w.next, q.name, q.ty⟩ :=
      ⟨Nat.lt_succ_self _, (if_pos rfl).trans hpq.origin_eq, hpq.ty_eq⟩
    refine (ih hst₁ (hpairs.imp fun _ _ _ _ h => h.mono hle₁)).bind ?_
    rintro cs st₂ w₂ hle₂ - hst₂ ⟨hnodup, hnew, haligned⟩
    refine Succeeds.pure hst₂ ⟨List.nodup_cons.2 ⟨fun hmem => ?_, hnodup⟩, fun c hc => ?_,
      aligned_cons.2 ⟨hcopy.mono hle₂, haligned⟩⟩
    · exact absurd (hnew _ hmem).1 (Nat.not_le.2 (Nat.lt_succ_self w.next))
    · rcases List.mem_cons.1 hc with rfl | hc
      · exact ⟨Nat.le_refl _, (hcopy.mono hle₂).lt_next⟩
      · exact ⟨Nat.le_trans (Nat.le_succ _) (hnew c hc).1, (hnew c hc).2⟩

/-- A variable that is bound by a lambda met before becomes the copy of that binder, all others stay. -/
theorem succeeds_freshen_variable {floor l : Nat} {u v : Variable} {a : Expr} {τ : List Renamed}
    {ρ : List (Variable × Variable)} (hst : st.supply.next = w.next) (hb : w.Keeps (.mk l (.variable u)))
    (hu : u.id < floor) (hτ : Renamed.CopiesFrom floor w.next τ) (ha : a.node = .variable v)
    (hm : Matched (Renamed.before τ ++ ρ) v u) :
    Succeeds w st (Expr.freshen (Renamed.substitution τ) (.mk l (.variable u))) fun w' c =>
      w'.Keeps c ∧ AlphaEq w'.Copies (Renamed.after τ ++ ρ) a c := by
  rw [Expr.freshen]
  rcases matched_append.1 hm with hbound | ⟨hv, hnot, hm⟩
  · obtain ⟨c, hlookup, hafter⟩ := Renamed.bound_after hτ.nodup hbound
    obtain ⟨t, ht, hpair⟩ := List.mem_map.1 hafter.mem
    obtain rfl : t.copy = c := congrArg Prod.snd hpair
    have hlt := hτ.lt_next t ht
    simp only [hlookup]
    refine (Succeeds.alloc hst (by simp [Node.children, Node.payload])
      (by simpa [Node.own, Node.params] using hlt)).imp ?_
    rintro w' e - ⟨hkeeps, hnode, -⟩
    exact ⟨hkeeps, .variable ha hnode (matched_append.2 (.inl hafter))⟩
  · simp only [Renamed.lookup_substitution hnot]
    refine Succeeds.pure hst ⟨hb, .variable ha rfl (matched_append.2 (.inr ⟨?_, ?_, hm⟩))⟩
    · simpa [Renamed.before, Renamed.after] using hv
    · -- a variable of the tree is older than every copy
      intro hmem
      obtain ⟨t, ht, rfl⟩ : ∃ t ∈ τ, t.copy = u := by simpa [Renamed.after] using hmem
      exact absurd (hτ.floor_le t ht) (Nat.not_le.2 hu)

/-- Freshened, the tree is equal to whatever it was equal to, with the copies in place of the
counterparts. All copies have identities from `floor` on, and the tree has variables below. -/
def Freshens (base : Nat) (σ : Type) (floor : Nat) (ρ : List (Variable × Variable)) (b : Expr) : Prop :=
  ∀ ⦃w : World base⦄ ⦃st : WalkState σ⦄ ⦃a : Expr⦄ ⦃τ : List Renamed⦄, st.supply.next = w.next →
    w.Keeps b → b.Everywhere (VarsBelow floor) → Renamed.CopiesFrom floor w.next τ →
    AlphaEq w.Copies (Renamed.before τ ++ ρ) a b →
    Succeeds w st (b.freshen (Renamed.substitution τ)) fun w' c =>
      w'.Keeps c ∧ AlphaEq w'.Copies (Renamed.after τ ++ ρ) a c

section Parts

variable {floor l : Nat} {a : Expr} {τ : List Renamed} {ρ : List (Variable × Variable)} {ty : Ty}

theorem Freshens.quoted {t u : Expr} (hu : Freshens base σ floor ρ u) (hst : st.supply.next = w.next)
    (hb : w.Keeps (.mk l (.constant (.tree u) ty)))
    (hfloor : (Expr.mk l (.constant (.tree u) ty)).Everywhere (VarsBelow floor))
    (hτ : Renamed.CopiesFrom floor w.next τ) (ha : a.node = .constant (.tree t) ty)
    (htree : AlphaEq w.Copies (Renamed.before τ ++ ρ) t u) :
    Succeeds w st (Expr.freshen (Renamed.substitution τ) (.mk l (.constant (.tree u) ty))) fun w' c =>
      w'.Keeps c ∧ AlphaEq w'.Copies (Renamed.after τ ++ ρ) a c := by
  have hpart : u ∈ (Expr.mk l (.constant (.tree u) ty)).parts := by
    simp [Expr.parts, Node.payload]
  rw [Expr.freshen]
  refine (hu hst (hb.within (.part hpart (.here u))) (hfloor.part hpart) hτ htree).bind ?_
  rintro u' st₁ w₁ - - hst₁ ⟨hkeeps, heq⟩
  refine (Succeeds.alloc hst₁ ?_ (by simp [Node.own, Node.params])).imp ?_
  · intro c hc
    obtain rfl : c = u' := by simpa [Node.children, Node.payload] using hc
    exact hkeeps
  · rintro w' e hle' ⟨hkeeps', hnode, -⟩
    exact ⟨hkeeps', .quoted ha hnode (heq.later hle')⟩

/-- The parameters of a lambda get copies, and under these its body is freshened. -/
theorem Freshens.lambda {c d : Expr} {ps qs : List Variable} (hd : Freshens base σ floor ρ d)
    (hst : st.supply.next = w.next) (hb : w.Keeps (.mk l (.lambda qs d ty)))
    (hfloor : (Expr.mk l (.lambda qs d ty)).Everywhere (VarsBelow floor))
    (hτ : Renamed.CopiesFrom floor w.next τ) (ha : a.node = .lambda ps c ty)
    (hpairs : Aligned w.Copies ps qs)
    (hbody : AlphaEq w.Copies (ps.zip qs ++ (Renamed.before τ ++ ρ)) c d) :
    Succeeds w st (Expr.freshen (Renamed.substitution τ) (.mk l (.lambda qs d ty))) fun w' c =>
      w'.Keeps c ∧ AlphaEq w'.Copies (Renamed.after τ ++ ρ) a c := by
  have hchild : d ∈ (Expr.mk l (.lambda qs d ty)).children := List.mem_singleton_self d
  rw [Expr.freshen]
  refine (succeeds_copies hst hpairs).bind ?_
  rintro cs st₁ w₁ hle₁ - hst₁ ⟨hcs, hnew, haligned⟩
  obtain ⟨hbefore, hsubstitution, hafter, hmap⟩ := Renamed.maps_zip hpairs.length_eq
    (haligned.length_eq.trans hpairs.length_eq.symm)
  -- the new copies come before the ones made so far
  have heq : AlphaEq w₁.Copies (Renamed.before (Renamed.zip ps qs cs ++ τ) ++ ρ) c d := by
    rw [Renamed.before, List.map_append, List.append_assoc]
    rw [← hbefore] at hbody
    exact hbody.later hle₁
  have hbody' := hd hst₁ ((hb.child hchild).mono hle₁) (hfloor.child hchild)
    (hτ.zip_append hle₁.heap.next_le hmap hcs hnew) heq
  rw [Renamed.substitution, List.map_append] at hbody'
  rw [← hsubstitution]
  refine hbody'.bind ?_
  rintro d' st₂ w₂ hle₂ - hst₂ ⟨hkeeps, heq⟩
  refine (Succeeds.alloc hst₂ ?_ ?_).imp ?_
  · intro x hx
    obtain rfl : x = d' := by simpa [Node.children, Node.payload] using hx
    exact hkeeps
  · intro v hv
    exact Nat.lt_of_lt_of_le (hnew v (by simpa [Node.own, Node.params] using hv)).2
      hle₂.heap.next_le
  · rintro w' e hle' ⟨hkeeps', hnode, -⟩
    refine ⟨hkeeps', .lambda ha hnode haligned.length_eq (fun p hp => ?_) ?_⟩
    · exact (haligned.rel p hp).mono (World.le_trans hle₂ hle')
    · rw [Renamed.after, List.map_append, List.append_assoc] at heq
      rw [← hafter]
      exact heq.later hle'

/-- A node that binds nothing and quotes nothing is freshened child by child. -/
theorem Freshens.node {b : Expr} (h : ∀ c ∈ b.children, Freshens base σ floor ρ c)
    (hst : st.supply.next = w.next) (hb : w.Keeps b) (hfloor : b.Everywhere (VarsBelow floor))
    (hτ : Renamed.CopiesFrom floor w.next τ) (hrigid : a.node.isRigid = true)
    (hshape : b.node.shape = a.node.shape)
    (hpairs : Aligned (AlphaEq w.Copies (Renamed.before τ ++ ρ)) a.children b.children) :
    Succeeds w st (b.freshen (Renamed.substitution τ)) fun w' c =>
      w'.Keeps c ∧ AlphaEq w'.Copies (Renamed.after τ ++ ρ) a c := by
  have hrigid' : b.node.isRigid = true := by
    rw [← Node.isRigid_shape, hshape, Node.isRigid_shape, hrigid]
  rw [Expr.freshen_of_isRigid hrigid']
  have haligned := (Node.aligned_visitOrder hshape).2 hpairs
  have hvisits : Succeeds w st (each (Expr.freshen (Renamed.substitution τ)) b.node.visitOrder)
      fun w' cs => Aligned
        (fun x c => w'.Keeps c ∧ AlphaEq w'.Copies (Renamed.after τ ++ ρ) x c)
        a.node.visitOrder cs := by
    refine Succeeds.each
      (Q := fun w' x c => w'.Keeps c ∧ AlphaEq w'.Copies (Renamed.after τ ++ ρ) x c)
      (fun h hle => ⟨h.1.mono hle, h.2.later hle⟩) haligned.length_eq hst ?_
    intro p hp w' st' hle' _ hst'
    have hchild : p.2 ∈ b.children := Node.mem_visitOrder.1 (List.of_mem_zip hp).2
    exact h p.2 hchild hst' ((hb.child hchild).mono hle') (hfloor.child hchild)
      (hτ.mono hle'.heap.next_le) ((haligned.rel p hp).later hle')
  refine (Succeeds.children
    (Q := fun w' cs => Aligned (AlphaEq w'.Copies (Renamed.after τ ++ ρ)) a.node.visitOrder cs)
    (fun h hle => h.imp fun _ _ _ _ heq => heq.later hle) hb (hvisits.imp ?_)).imp ?_
  · rintro w' cs - h
    refine ⟨fun c hc => ?_, h.imp fun _ _ _ _ hxy => hxy.2⟩
    obtain ⟨x, -, hpair⟩ := exists_mem_zip h.length_eq hc
    exact (h.rel _ hpair).1
  · rintro w' out - ⟨hkeeps, hshape', haligned'⟩
    have hchildren := (Node.aligned_visitOrder (hshape'.trans hshape)).1 haligned'
    exact ⟨hkeeps, .node hrigid (hshape'.trans hshape) hchildren.length_eq hchildren.rel⟩

end Parts

/-- Every tree is freshened in this way. -/
theorem freshens {floor : Nat} {ρ : List (Variable × Variable)} (b : Expr) :
    Freshens base σ floor ρ b := by
  induction b using Expr.partInduction with
  | step b ih =>
    intro w st a τ hst hb hfloor hτ h
    cases h with
    | @«variable» _ _ _ v u ha hb' hm =>
      obtain ⟨l, n⟩ := b
      cases hb'
      exact succeeds_freshen_variable hst hb (hfloor.here u (by simp [Node.own])) hτ ha hm
    | @quoted _ _ _ t u ty ha hb' htree =>
      obtain ⟨l, n⟩ := b
      cases hb'
      exact (ih u (by simp [Expr.parts, Node.payload])).quoted hst hb hfloor hτ ha htree
    | @lambda _ _ _ c d ps qs ty ha hb' hlength hpairs hbody =>
      obtain ⟨l, n⟩ := b
      cases hb'
      have hd := ih d (Expr.mem_parts_of_mem_children (List.mem_singleton_self d))
      exact hd.lambda hst hb hfloor hτ ha ⟨hlength, hpairs⟩ hbody
    | node hrigid hshape hlength hpairs =>
      exact Freshens.node (fun c hc => ih c (Expr.mem_parts_of_mem_children hc)) hst hb hfloor hτ hrigid
        hshape ⟨hlength, hpairs⟩

/-- The copy of a lambda is equal to what the lambda was equal to, and its parameters are new. -/
theorem Expansion.succeeds_freshly {st : WalkState Stats} {ps qs : List Variable} {c d : Expr}
    {ρ : List (Variable × Variable)} (hst : st.supply.next = w.next) (hd : w.Keeps d)
    (hpairs : Aligned w.Copies ps qs) (h : AlphaEq w.Copies (ps.zip qs ++ ρ) c d) :
    Succeeds w st (freshly qs d) fun w' found => found.1.Nodup ∧
      (∀ x ∈ found.1, w.next ≤ x.id) ∧ Aligned w'.Copies ps found.1 ∧ w'.Keeps found.2 ∧
      AlphaEq w'.Copies (ps.zip found.1 ++ ρ) c found.2 := by
  refine (succeeds_copies hst hpairs).bind ?_
  rintro cs st₁ w₁ hle₁ - hst₁ ⟨hcs, hnew, haligned⟩
  obtain ⟨hbefore, hsubstitution, hafter, hmap⟩ := Renamed.maps_zip hpairs.length_eq
    (haligned.length_eq.trans hpairs.length_eq.symm)
  have hτ := (Renamed.copiesFrom_nil w.next).zip_append hle₁.heap.next_le hmap hcs hnew
  rw [List.append_nil] at hτ
  rw [← hbefore] at h
  have hfresh := freshens d hst₁ (hd.mono hle₁) hd.below hτ (h.later hle₁)
  rw [hsubstitution, hafter] at hfresh
  refine hfresh.bind ?_
  rintro d' st₂ w₂ hle₂ - hst₂ ⟨hkeeps, heq⟩
  exact Succeeds.pure hst₂ ⟨hcs, fun x hx => (hnew x hx).1,
    haligned.imp fun _ _ _ _ hcopy => hcopy.mono hle₂, hkeeps, heq⟩

end Freshen

end ExprTree
