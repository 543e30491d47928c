import ExprTree.Fingerprint.Encoding
import ExprTree.Proofs.Variables

/-!
# Trees under other identities

A `Recasting` gives every variable and every closure of a tree another identity, and may change the
owners of members. `Expr.recast` is the tree under a recasting, with all labels forgotten; that two
trees are equal up to identities is then an equation between recast trees.

The bytes that a tree is fingerprinted by do not depend on labels, and they survive every recasting
that keeps identities apart, types as they are, and the names of those variables that stand outside
the lambdas binding them (`Expr.normalize_recast`).
-/

namespace ExprTree

/-- What becomes of variables, of the identities of closures and of the owners of members. -/
structure Recasting where
  var : Variable → Variable := id
  closure : Nat → Nat := id
  owner : Owner → Owner := id

/-- The member under a recasting. -/
def Member.recast (r : Recasting) (m : Member) : Member := { m with owner := r.owner m.owner }

mutual

/-- The tree under a recasting. All labels are forgotten. -/
def Expr.recast (r : Recasting) : Expr → Expr
  | .mk _ n => .mk 0 (n.recast r)

/-- The node under a recasting. -/
def Node.recast (r : Recasting) : Node → Node
  | .unary op e t m => .unary op (e.recast r) t m
  | .binary op x y c lifted m t =>
    .binary op (x.recast r) (y.recast r) (Expr.recastOption r c) lifted m t
  | .typeIs e t => .typeIs (e.recast r) t
  | .conditional a b c t => .conditional (a.recast r) (b.recast r) (c.recast r) t
  | .constant v t => .constant (v.recast r) t
  | .variable v => .variable (r.var v)
  | .memberAccess o m => .memberAccess (Expr.recastOption r o) (m.recast r)
  | .call o m as => .call (Expr.recastOption r o) m (Expr.recastList r as)
  | .lambda ps b t => .lambda (ps.map r.var) (b.recast r) t
  | .construct c => .construct (Expr.recastConstruct r c)
  | .newArray k t es => .newArray k t (Expr.recastList r es)
  | .invocation e as t => .invocation (e.recast r) (Expr.recastList r as) t
  | .memberInit c bs => .memberInit (Expr.recastConstruct r c) (Expr.recastBindings r bs)
  | .listInit c es => .listInit (Expr.recastConstruct r c) (Expr.recastElements r es)
  | .extension k t => .extension k t

/-- The payload under a recasting. -/
def Value.recast (r : Recasting) : Value → Value
  | .null => .null
  | .bool b => .bool b
  | .int n => .int n
  | .float x => .float x
  | .str s => .str s
  | .tree t => .tree (t.recast r)
  | .closure ⟨i, name, fs⟩ => .closure ⟨r.closure i, name, Value.recastFields r fs⟩

/-- An optional expression under a recasting. -/
def Expr.recastOption (r : Recasting) : Option Expr → Option Expr
  | none => none
  | some e => some (e.recast r)

/-- A list of expressions under a recasting. -/
def Expr.recastList (r : Recasting) : List Expr → List Expr
  | [] => []
  | e :: es => e.recast r :: Expr.recastList r es

/-- A constructor call under a recasting. -/
def Expr.recastConstruct (r : Recasting) : Construct Expr → Construct Expr
  | ⟨t, as, ms⟩ => ⟨t, Expr.recastList r as, ms.map fun ms => ms.map (·.recast r)⟩

/-- A binding under a recasting. -/
def Expr.recastBinding (r : Recasting) : Binding Expr → Binding Expr
  | .assign m e => .assign (m.recast r) (e.recast r)
  | .nested m bs => .nested (m.recast r) (Expr.recastBindings r bs)
  | .elements m es => .elements (m.recast r) (Expr.recastElements r es)

/-- A list of bindings under a recasting. -/
def Expr.recastBindings (r : Recasting) : List (Binding Expr) → List (Binding Expr)
  | [] => []
  | b :: bs => Expr.recastBinding r b :: Expr.recastBindings r bs

/-- A list of element initializers under a recasting. -/
def Expr.recastElements (r : Recasting) : List (ElementInit Expr) → List (ElementInit Expr)
  | [] => []
  | ⟨m, as⟩ :: es => ⟨m, Expr.recastList r as⟩ :: Expr.recastElements r es

/-- The fields of a closure under a recasting. -/
def Value.recastFields (r : Recasting) : List (String × Value) → List (String × Value)
  | [] => []
  | (name, v) :: fs => (name, v.recast r) :: Value.recastFields r fs

end

/-- One recasting after the other. -/
def Recasting.andThen (r s : Recasting) : Recasting where
  var := s.var ∘ r.var
  closure := s.closure ∘ r.closure
  owner := s.owner ∘ r.owner

mutual

/-- Recasting twice is recasting once. -/
theorem Expr.recast_recast (r s : Recasting) : ∀ e : Expr, (e.recast r).recast s = e.recast (r.andThen s)
  | .mk _ n => by simp only [Expr.recast, Node.recast_recast]

theorem Node.recast_recast (r s : Recasting) : ∀ n : Node, (n.recast r).recast s = n.recast (r.andThen s)
  | .unary .. | .typeIs .. | .conditional .. | .extension .. => by
    simp only [Node.recast, Expr.recast_recast]
  | .binary .. => by simp only [Node.recast, Expr.recast_recast, Expr.recastOption_recast]
  | .constant .. => by simp only [Node.recast, Value.recast_recast]
  | .variable v => rfl
  | .memberAccess .. => by simp only [Node.recast, Expr.recastOption_recast]; rfl
  | .call .. => by simp only [Node.recast, Expr.recastOption_recast, Expr.recastList_recast]
  | .lambda .. => by simp only [Node.recast, Expr.recast_recast, List.map_map]; rfl
  | .construct .. => by simp only [Node.recast, Expr.recastConstruct_recast]
  | .newArray .. => by simp only [Node.recast, Expr.recastList_recast]
  | .invocation .. => by simp only [Node.recast, Expr.recast_recast, Expr.recastList_recast]
  | .memberInit .. => by
    simp only [Node.recast, Expr.recastConstruct_recast, Expr.recastBindings_recast]
  | .listInit .. => by
    simp only [Node.recast, Expr.recastConstruct_recast, Expr.recastElements_recast]

theorem Value.recast_recast (r s : Recasting) :
    ∀ v : Value, (v.recast r).recast s = v.recast (r.andThen s)
  | .null | .bool _ | .int _ | .float _ | .str _ => by simp only [Value.recast]
  | .tree t => by simp only [Value.recast, Expr.recast_recast]
  | .closure ⟨_, _, _⟩ => by simp only [Value.recast, Value.recastFields_recast]; rfl

theorem Expr.recastOption_recast (r s : Recasting) : ∀ o : Option Expr,
    Expr.recastOption s (Expr.recastOption r o) = Expr.recastOption (r.andThen s) o
  | none => rfl
  | some e => by simp only [Expr.recastOption, Expr.recast_recast]

theorem Expr.recastList_recast (r s : Recasting) : ∀ es : List Expr,
    Expr.recastList s (Expr.recastList r es) = Expr.recastList (r.andThen s) es
  | [] => rfl
  | e :: es => by simp only [Expr.recastList, Expr.recast_recast, Expr.recastList_recast]

theorem Expr.recastConstruct_recast (r s : Recasting) : ∀ c : Construct Expr,
    Expr.recastConstruct s (Expr.recastConstruct r c) = Expr.recastConstruct (r.andThen s) c
  | ⟨t, as, ms⟩ => by
    simp only [Expr.recastConstruct, Expr.recastList_recast, Option.map_map]
    congr 2
    funext ms
    simp [Member.recast, Recasting.andThen, Function.comp_def]

theorem Expr.recastBinding_recast (r s : Recasting) : ∀ b : Binding Expr,
    Expr.recastBinding s (Expr.recastBinding r b) = Expr.recastBinding (r.andThen s) b
  | .assign .. => by simp only [Expr.recastBinding, Expr.recast_recast]; rfl
  | .nested .. => by simp only [Expr.recastBinding, Expr.recastBindings_recast]; rfl
  | .elements .. => by simp only [Expr.recastBinding, Expr.recastElements_recast]; rfl

theorem Expr.recastBindings_recast (r s : Recasting) : ∀ bs : List (Binding Expr),
    Expr.recastBindings s (Expr.recastBindings r bs) = Expr.recastBindings (r.andThen s) bs
  | [] => rfl
  | b :: bs => by
    simp only [Expr.recastBindings, Expr.recastBinding_recast, Expr.recastBindings_recast]

theorem Expr.recastElements_recast (r s : Recasting) : ∀ es : List (ElementInit Expr),
    Expr.recastElements s (Expr.recastElements r es) = Expr.recastElements (r.andThen s) es
  | [] => rfl
  | ⟨m, as⟩ :: es => by
    simp only [Expr.recastElements, Expr.recastList_recast, Expr.recastElements_recast]

theorem Value.recastFields_recast (r s : Recasting) : ∀ fs : List (String × Value),
    Value.recastFields s (Value.recastFields r fs) = Value.recastFields (r.andThen s) fs
  | [] => rfl
  | (name, v) :: fs => by
    simp only [Value.recastFields, Value.recast_recast, Value.recastFields_recast]

end

/-! ## The identities of a tree -/

/-- The closures that a payload refers to, also in the fields of closures, but not in trees. -/
def Value.closures : Value → List (Closure Value)
  | .closure c => c :: c.fields.attach.flatMap fun f => f.1.2.closures
  | _ => []
termination_by v => sizeOf v
decreasing_by
  have := Closure.sizeOf_lt_of_mem f.2
  simp only [Value.closure.sizeOf_spec]
  omega

theorem Value.closures_closure (c : Closure Value) :
    (Value.closure c).closures = c :: c.fields.flatMap fun f => f.2.closures := by
  have hmap : (c.fields.attach.map fun f => f.1.2.closures) = c.fields.map fun f => f.2.closures := by
    rw [← List.attach_map_val (f := fun f : String × Value => f.2.closures)]
  rw [Value.closures, List.flatMap_def, List.flatMap_def, hmap]

namespace Node

/-- The closures that the constant at a node refers to. -/
def closures : Node → List (Closure Value)
  | .constant v _ => v.closures
  | _ => []

/-- The variables at a node: the one it refers to and those it binds. -/
def vars (n : Node) : List Variable := n.own ++ n.params

end Node

namespace Expr

/-- The variable stands somewhere in the tree, as an occurrence or as a parameter. -/
def Uses (e : Expr) (v : Variable) : Prop := ∃ a : Expr, a.Within e ∧ v ∈ a.node.vars

/-- All expressions within a tree. -/
def within (e : Expr) : List Expr := e :: e.parts.attach.flatMap fun c => within c.1
termination_by sizeOf e
decreasing_by exact sizeOf_lt_of_mem_parts c.2

theorem mem_within {a e : Expr} : a ∈ e.within ↔ a.Within e := by
  induction e using partInduction with
  | step e ih =>
    rw [within, List.mem_cons, List.mem_flatMap]
    constructor
    · rintro (rfl | ⟨⟨c, hc⟩, -, ha⟩)
      · exact .here a
      · exact .part hc ((ih c hc).1 ha)
    · intro ha
      cases ha with
      | here => exact .inl rfl
      | part hc ha => exact .inr ⟨⟨_, hc⟩, List.mem_attach _ _, (ih _ hc).2 ha⟩

/-- Some constant of the tree refers to a closure of this identity. -/
def UsesClosure (e : Expr) (i : Nat) : Prop :=
  ∃ a : Expr, a.Within e ∧ ∃ c ∈ a.node.closures, c.id = i

end Expr

/-- The recasting keeps the identities of a tree apart and the types of its variables. -/
structure Recasting.Faithful (r : Recasting) (e : Expr) : Prop where
  var_inj : ∀ v w, e.Uses v → e.Uses w → r.var v = r.var w → v = w
  ty_eq : ∀ v, e.Uses v → (r.var v).ty = v.ty
  closure_inj : ∀ i j, e.UsesClosure i → e.UsesClosure j → r.closure i = r.closure j → i = j

/-! ## The bytes of a recast tree -/

section Mirrors

variable {α β : Type} {r : Recasting} {I : Nat → Prop}

/-- On recast identities the second encoder does what the first does: it writes the same, and meets
the recast closures. Only identities in `I` are met. -/
def Mirrors (r : Recasting) (I : Nat → Prop) (x y : StateM (List Nat) α) : Prop :=
  ∀ seen, (∀ i ∈ seen, I i) →
    y (seen.map r.closure) = ((x seen).1, (x seen).2.map r.closure) ∧ ∀ i ∈ (x seen).2, I i

theorem mirrors_pure (a : α) : Mirrors r I (pure a) (pure a) := fun _ h => ⟨rfl, h⟩

theorem Mirrors.bind {x y : StateM (List Nat) α} {f g : α → StateM (List Nat) β}
    (hx : Mirrors r I x y) (hf : ∀ a, Mirrors r I (f a) (g a)) :
    Mirrors r I (x >>= f) (y >>= g) := by
  intro seen hseen
  obtain ⟨hy, hmet⟩ := hx seen hseen
  have hrun : (y >>= g) (seen.map r.closure) = g (x seen).1 ((x seen).2.map r.closure) := by
    show g (y (seen.map r.closure)).1 (y (seen.map r.closure)).2 = _
    rw [hy]
  rw [hrun]
  exact hf (x seen).1 (x seen).2 hmet

end Mirrors

@[simp] theorem Expr.length_recastList (r : Recasting) (es : List Expr) :
    (Expr.recastList r es).length = es.length := by
  induction es with
  | nil => rfl
  | cons e es ih => simp only [Expr.recastList, List.length_cons, ih]

@[simp] theorem Expr.length_recastBindings (r : Recasting) (bs : List (Binding Expr)) :
    (Expr.recastBindings r bs).length = bs.length := by
  induction bs with
  | nil => rfl
  | cons b bs ih => simp only [Expr.recastBindings, List.length_cons, ih]

@[simp] theorem Expr.length_recastElements (r : Recasting) (es : List (ElementInit Expr)) :
    (Expr.recastElements r es).length = es.length := by
  induction es with
  | nil => rfl
  | cons e es ih => simp only [Expr.recastElements, List.length_cons, ih]

@[simp] theorem Value.length_recastFields (r : Recasting) (fs : List (String × Value)) :
    (Value.recastFields r fs).length = fs.length := by
  induction fs with
  | nil => rfl
  | cons f fs ih => simp only [Value.recastFields, List.length_cons, ih]

theorem Member.recast_of_owner {r : Recasting} (howner : r.owner = id) (m : Member) :
    m.recast r = m := by
  rw [Member.recast, howner]
  rfl

namespace Encoding

section Parts

variable {r : Recasting} {I : Nat → Prop} {binders binders' : List Variable}

theorem mirrors_optExpr {o : Option Expr}
    (h : ∀ e ∈ o.toList, Mirrors r I (expr e binders) (expr (e.recast r) binders')) :
    Mirrors r I (optExpr o binders) (optExpr (Expr.recastOption r o) binders') := by
  cases o with
  | none => exact mirrors_pure _
  | some e =>
    simp only [Expr.recastOption, optExpr]
    exact (h e (List.mem_singleton_self e)).bind fun _ => mirrors_pure _

theorem mirrors_exprs {es : List Expr}
    (h : ∀ e ∈ es, Mirrors r I (expr e binders) (expr (e.recast r) binders')) :
    Mirrors r I (exprs es binders) (exprs (Expr.recastList r es) binders') := by
  induction es with
  | nil => exact mirrors_pure _
  | cons e es ih =>
    simp only [Expr.recastList, exprs]
    refine (h e List.mem_cons_self).bind fun _ => Mirrors.bind ?_ fun _ => mirrors_pure _
    exact ih fun e he => h e (List.mem_cons_of_mem _ he)

theorem mirrors_construct (howner : r.owner = id) {c : Construct Expr}
    (h : ∀ e ∈ c.args, Mirrors r I (expr e binders) (expr (e.recast r) binders')) :
    Mirrors r I (construct c binders) (construct (Expr.recastConstruct r c) binders') := by
  obtain ⟨t, as, ms⟩ := c
  have hmembers : (ms.map fun ms => ms.map (·.recast r)) = ms := by
    cases ms with
    | none => rfl
    | some ms => simp [Member.recast_of_owner howner]
  simp only [Expr.recastConstruct, construct, hmembers, Expr.length_recastList]
  exact (mirrors_exprs h).bind fun _ => mirrors_pure _

theorem mirrors_elements {es : List (ElementInit Expr)}
    (h : ∀ e ∈ es.flatMap (·.args), Mirrors r I (expr e binders) (expr (e.recast r) binders')) :
    Mirrors r I (elements es binders) (elements (Expr.recastElements r es) binders') := by
  induction es with
  | nil => exact mirrors_pure _
  | cons i es ih =>
    obtain ⟨m, as⟩ := i
    rw [List.flatMap_cons] at h
    simp only [Expr.recastElements, elements, element, Expr.length_recastList]
    refine Mirrors.bind (Mirrors.bind ?_ fun _ => mirrors_pure _) fun _ =>
      Mirrors.bind ?_ fun _ => mirrors_pure _
    · exact mirrors_exprs fun e he => h e (List.mem_append_left _ he)
    · exact ih fun e he => h e (List.mem_append_right _ he)

mutual

theorem mirrors_binding (howner : r.owner = id) : ∀ {b : Binding Expr},
    (∀ e ∈ b.exprs, Mirrors r I (expr e binders) (expr (e.recast r) binders')) →
    Mirrors r I (binding b binders) (binding (Expr.recastBinding r b) binders')
  | .assign m e, h => by
    simp only [Expr.recastBinding, binding, Member.recast_of_owner howner]
    exact (h e (by simp [Binding.exprs])).bind fun _ => mirrors_pure _
  | .nested m bs, h => by
    simp only [Expr.recastBinding, binding, Member.recast_of_owner howner,
      Expr.length_recastBindings]
    rw [Binding.exprs] at h
    exact (mirrors_bindings howner h).bind fun _ => mirrors_pure _
  | .elements m es, h => by
    simp only [Expr.recastBinding, binding, Member.recast_of_owner howner,
      Expr.length_recastElements]
    rw [Binding.exprs] at h
    exact (mirrors_elements h).bind fun _ => mirrors_pure _

theorem mirrors_bindings (howner : r.owner = id) : ∀ {bs : List (Binding Expr)},
    (∀ e ∈ Binding.exprsOfAll bs, Mirrors r I (expr e binders) (expr (e.recast r) binders')) →
    Mirrors r I (bindings bs binders) (bindings (Expr.recastBindings r bs) binders')
  | [], _ => mirrors_pure _
  | b :: bs, h => by
    simp only [Expr.recastBindings, bindings]
    rw [Binding.exprsOfAll] at h
    refine Mirrors.bind ?_ fun _ => Mirrors.bind ?_ fun _ => mirrors_pure _
    · exact mirrors_binding howner fun e he => h e (List.mem_append_left _ he)
    · exact mirrors_bindings howner fun e he => h e (List.mem_append_right _ he)

end

theorem idxOf?_map_of_injOn {α β : Type} [DecidableEq α] [DecidableEq β] {f : α → β} {a : α}
    {l : List α} (h : ∀ b ∈ l, f b = f a → b = a) : (l.map f).idxOf? (f a) = l.idxOf? a := by
  induction l with
  | nil => rfl
  | cons b l ih =>
    have hhead : (f b == f a) = (b == a) := by
      rw [Bool.eq_iff_iff, beq_iff_eq, beq_iff_eq]
      exact ⟨h b List.mem_cons_self, congrArg f⟩
    rw [List.map_cons, List.idxOf?_cons, List.idxOf?_cons, hhead,
      ih fun b hb => h b (List.mem_cons_of_mem _ hb)]

/-- A closure is written out where it is met first, and by its number later. -/
theorem value_closure (i : Nat) (name : String) (fs : List (String × Value)) (seen : List Nat) :
    value (.closure ⟨i, name, fs⟩) seen = match seen.idxOf? i with
      | some k => ([0x46, 0] ++ count k, seen)
      | none => ([0x46, 1] ++ string name ++ count fs.length ++ (fields fs (seen ++ [i])).1,
          (fields fs (seen ++ [i])).2) := by
  have hrun : value (.closure ⟨i, name, fs⟩) seen = (match seen.idxOf? i with
      | some k => (pure ([0x46, 0] ++ count k) : Encoder)
      | none => do
        set (seen ++ [i])
        let rest ← fields fs
        return [0x46, 1] ++ string name ++ count fs.length ++ rest) seen := by
    rw [value]
    rfl
  rw [hrun]
  cases seen.idxOf? i <;> rfl

mutual

theorem mirrors_value (hinj : ∀ i j, I i → I j → r.closure i = r.closure j → i = j) :
    ∀ {v : Value}, (∀ t ∈ v.trees, Mirrors r I (expr t []) (expr (t.recast r) [])) →
      (∀ c ∈ v.closures, I c.id) → Mirrors r I (value v) (value (v.recast r))
  | .null, _, _ | .bool _, _, _ | .int _, _, _ | .float _, _, _ | .str _, _, _ => by
    simp only [Value.recast, value]
    exact mirrors_pure _
  | .tree t, htrees, _ => by
    simp only [Value.recast, value]
    exact (htrees t (by simp)).bind fun _ => mirrors_pure _
  | .closure ⟨i, name, fs⟩, htrees, hclosures => by
    rw [Value.trees_closure, Closure.trees] at htrees
    rw [Value.closures_closure] at hclosures
    have hi : I i := hclosures _ List.mem_cons_self
    have hfields : Mirrors r I (fields fs) (fields (Value.recastFields r fs)) :=
      mirrors_fields hinj htrees fun c hc => hclosures c (List.mem_cons_of_mem _ hc)
    intro seen hseen
    have hidx : (seen.map r.closure).idxOf? (r.closure i) = seen.idxOf? i :=
      idxOf?_map_of_injOn fun j hj => hinj j i (hseen j hj) hi
    rw [Value.recast, value_closure, value_closure, hidx]
    cases seen.idxOf? i with
    | some k => exact ⟨rfl, hseen⟩
    | none =>
      have hmet : ∀ j ∈ seen ++ [i], I j := fun j hj =>
        (List.mem_append.1 hj).elim (hseen j) fun hj => List.mem_singleton.1 hj ▸ hi
      obtain ⟨hrun, hafter⟩ := hfields (seen ++ [i]) hmet
      rw [List.map_append, List.map_singleton] at hrun
      exact ⟨by simp only [hrun, Value.length_recastFields], hafter⟩

theorem mirrors_fields (hinj : ∀ i j, I i → I j → r.closure i = r.closure j → i = j) :
    ∀ {fs : List (String × Value)},
      (∀ t ∈ fs.flatMap fun f => f.2.trees, Mirrors r I (expr t []) (expr (t.recast r) [])) →
      (∀ c ∈ fs.flatMap fun f => f.2.closures, I c.id) →
      Mirrors r I (fields fs) (fields (Value.recastFields r fs))
  | [], _, _ => mirrors_pure _
  | (name, v) :: fs, htrees, hclosures => by
    rw [List.flatMap_cons] at htrees hclosures
    simp only [Value.recastFields, fields]
    refine Mirrors.bind ?_ fun _ => Mirrors.bind ?_ fun _ => mirrors_pure _
    · exact mirrors_value hinj (fun t ht => htrees t (List.mem_append_left _ ht))
        fun c hc => hclosures c (List.mem_append_left _ hc)
    · exact mirrors_fields hinj (fun t ht => htrees t (List.mem_append_right _ ht))
        fun c hc => hclosures c (List.mem_append_right _ hc)

end

end Parts

/-- What the identities at an expression must satisfy for its bytes to survive a recasting: its
variables are in `S`, its closures in `I`, and what its carried trees expose keeps its name. -/
structure Survives (r : Recasting) (S : Variable → Prop) (I : Nat → Prop) (a : Expr) : Prop where
  vars : ∀ v ∈ a.node.vars, S v
  closures : ∀ c ∈ a.node.closures, I c.id
  carried : ∀ t ∈ a.node.payload, ∀ v ∈ t.exposed, (r.var v).name = v.name

section Trees

variable {r : Recasting} {S : Variable → Prop} {I : Nat → Prop}

theorem variableRef_recast (hinj : ∀ v w, S v → S w → r.var v = r.var w → v = w)
    {binders : List Variable} {v : Variable} (hbinders : ∀ p ∈ binders, S p) (hv : S v)
    (hty : (r.var v).ty = v.ty) (hname : v ∉ binders → (r.var v).name = v.name) :
    variableRef (binders.map r.var) (r.var v) = variableRef binders v := by
  have hidx : (binders.map r.var).idxOf? (r.var v) = binders.idxOf? v :=
    idxOf?_map_of_injOn fun p hp => hinj p v (hbinders p hp) hv
  rw [variableRef, variableRef, hidx]
  cases hfound : binders.idxOf? v with
  | some i => rfl
  | none => simp only [hname (List.idxOf?_eq_none_iff.1 hfound), hty]

/-- Under recast binders a recast tree is written as before. -/
theorem mirrors_expr (howner : r.owner = id)
    (hinj : ∀ v w, S v → S w → r.var v = r.var w → v = w) (hty : ∀ v, S v → (r.var v).ty = v.ty)
    (hclosure : ∀ i j, I i → I j → r.closure i = r.closure j → i = j) (e : Expr) :
    ∀ binders : List Variable, (∀ p ∈ binders, S p) → e.Everywhere (Survives r S I) →
      (∀ v ∈ e.exposed, v ∉ binders → (r.var v).name = v.name) →
      Mirrors r I (expr e binders) (expr (e.recast r) (binders.map r.var)) := by
  induction e using Expr.partInduction with
  | step e ih =>
    intro binders hbinders he hexposed
    obtain ⟨hvars, hclosures, hcarried⟩ := he.here
    -- below a node that binds nothing the binders are the same
    have hchild : e.node.params = [] → ∀ c ∈ e.children,
        Mirrors r I (expr c binders) (expr (c.recast r) (binders.map r.var)) := by
      intro hparams c hc
      refine ih c (Expr.mem_parts_of_mem_children hc) binders hbinders (he.child hc) ?_
      exact fun v hv => hexposed v (Expr.mem_exposed.2 (.inr ⟨by simp [hparams], c, hc, hv⟩))
    obtain ⟨l, n⟩ := e
    simp only [Expr.recast, expr]
    cases n with
    | unary op x t m =>
      simp only [Node.recast, node]
      exact (hchild rfl x (List.mem_singleton_self x)).bind fun _ => mirrors_pure _
    | binary op x y c lifted m t =>
      simp only [Node.recast, node]
      have hparts : ∀ z ∈ x :: y :: c.toList, _ := hchild rfl
      refine Mirrors.bind (hparts x (by simp)) fun _ => Mirrors.bind (hparts y (by simp)) fun _ =>
        Mirrors.bind (mirrors_optExpr fun z hz => hparts z ?_) fun _ => mirrors_pure _
      exact List.mem_cons_of_mem _ (List.mem_cons_of_mem _ hz)
    | typeIs x t =>
      simp only [Node.recast, node]
      exact (hchild rfl x (List.mem_singleton_self x)).bind fun _ => mirrors_pure _
    | conditional x y z t =>
      simp only [Node.recast, node]
      have hparts : ∀ c ∈ [x, y, z], _ := hchild rfl
      exact Mirrors.bind (hparts x (by simp)) fun _ => Mirrors.bind (hparts y (by simp)) fun _ =>
        Mirrors.bind (hparts z (by simp)) fun _ => mirrors_pure _
    | constant v t =>
      simp only [Node.recast, node]
      refine (mirrors_value hclosure (fun u hu => ?_) hclosures).bind fun _ => mirrors_pure _
      exact ih u (List.mem_append_right _ hu) [] (by simp) (he.part (List.mem_append_right _ hu))
        fun w hw _ => hcarried u hu w hw
    | «variable» v =>
      have hv : S v := hvars v (List.mem_append_left _ (List.mem_singleton_self v))
      have hname : v ∉ binders → (r.var v).name = v.name :=
        hexposed v (Expr.mem_exposed.2 (.inl (List.mem_singleton_self v)))
      simp only [Node.recast, node, variableRef_recast hinj hbinders hv (hty v hv) hname]
      exact mirrors_pure _
    | memberAccess o m =>
      simp only [Node.recast, node, Member.recast_of_owner howner]
      exact (mirrors_optExpr (hchild rfl)).bind fun _ => mirrors_pure _
    | call o m as =>
      simp only [Node.recast, node, Expr.length_recastList]
      refine (mirrors_optExpr fun x hx => hchild rfl x (List.mem_append_left _ hx)).bind fun _ => ?_
      exact (mirrors_exprs fun x hx => hchild rfl x (List.mem_append_right _ hx)).bind fun _ =>
        mirrors_pure _
    | lambda ps x t =>
      have hps : ∀ p ∈ ps, S p := fun p hp => hvars p (List.mem_append_right _ hp)
      have htys : (ps.map r.var).map (·.ty) = ps.map (·.ty) := by
        rw [List.map_map]
        exact List.map_congr_left fun p hp => hty p (hps p hp)
      have hinner : (ps.map r.var).reverse ++ binders.map r.var =
          (ps.reverse ++ binders).map r.var := by simp
      simp only [Node.recast, node, List.length_map, htys, hinner]
      have hx : x ∈ (Expr.mk l (.lambda ps x t)).children := List.mem_singleton_self x
      refine Mirrors.bind ?_ fun _ => mirrors_pure _
      refine ih x (Expr.mem_parts_of_mem_children hx) _ (fun p hp => ?_) (he.child hx) fun v hv hout => ?_
      · exact (List.mem_append.1 hp).elim (fun hp => hps p (List.mem_reverse.1 hp)) (hbinders p)
      · rw [List.mem_append, List.mem_reverse, not_or] at hout
        exact hexposed v (Expr.mem_exposed.2 (.inr ⟨hout.1, x, hx, hv⟩)) hout.2
    | construct c =>
      simp only [Node.recast, node]
      exact (mirrors_construct howner (hchild rfl)).bind fun _ => mirrors_pure _
    | newArray k t es =>
      simp only [Node.recast, node, Expr.length_recastList]
      exact (mirrors_exprs (hchild rfl)).bind fun _ => mirrors_pure _
    | invocation x as t =>
      simp only [Node.recast, node, Expr.length_recastList]
      refine (hchild rfl x List.mem_cons_self).bind fun _ => ?_
      exact (mirrors_exprs fun y hy => hchild rfl y (List.mem_cons_of_mem _ hy)).bind fun _ =>
        mirrors_pure _
    | memberInit c bs =>
      simp only [Node.recast, node, Expr.length_recastBindings]
      refine (mirrors_construct howner fun x hx => hchild rfl x (List.mem_append_left _ hx)).bind
        fun _ => ?_
      exact (mirrors_bindings howner fun x hx => hchild rfl x (List.mem_append_right _ hx)).bind
        fun _ => mirrors_pure _
    | listInit c es =>
      simp only [Node.recast, node, Expr.length_recastElements]
      refine (mirrors_construct howner fun x hx => hchild rfl x (List.mem_append_left _ hx)).bind
        fun _ => ?_
      exact (mirrors_elements fun x hx => hchild rfl x (List.mem_append_right _ hx)).bind
        fun _ => mirrors_pure _
    | extension kind t =>
      simp only [Node.recast, node]
      exact mirrors_pure _

end Trees

end Encoding

/-- The bytes of the tree give the variable by name: the tree, or a tree carried somewhere in it,
exposes it. -/
def Expr.GivesByName (e : Expr) (v : Variable) : Prop :=
  v ∈ e.exposed ∨ ∃ a : Expr, a.Within e ∧ ∃ t ∈ a.node.payload, v ∈ t.exposed

/-- The bytes of a tree survive every recasting that keeps its identities apart, the types of its
variables, and the names of those that are given by name. -/
theorem Expr.normalize_recast {r : Recasting} {e : Expr} (hfaithful : r.Faithful e)
    (howner : r.owner = id) (hnames : ∀ v, e.GivesByName v → (r.var v).name = v.name) :
    (e.recast r).normalize = e.normalize := by
  have hsurvives : e.Everywhere (Encoding.Survives r e.Uses e.UsesClosure) := fun a ha =>
    ⟨fun v hv => ⟨a, ha, hv⟩, fun c hc => ⟨a, ha, c, hc, rfl⟩,
      fun t ht v hv => hnames v (.inr ⟨a, ha, t, ht, hv⟩)⟩
  have hmirrors := Encoding.mirrors_expr howner hfaithful.var_inj hfaithful.ty_eq
    hfaithful.closure_inj e [] (by simp) hsurvives fun v hv _ => hnames v (.inl hv)
  have hrun := (hmirrors [] (by simp)).1
  rw [List.map_nil, List.map_nil] at hrun
  show Encoding.version :: (Encoding.expr (e.recast r) [] []).1 =
    Encoding.version :: (Encoding.expr e [] []).1
  rw [hrun]

/-- Two trees that recast alike have the same bytes. The second one may have other identities as
long as the recasting keeps them apart. -/
theorem Expr.normalize_eq_of_recast {r : Recasting} {e e' : Expr}
    (hrecast : e'.recast {} = e.recast r) (hfaithful : r.Faithful e) (howner : r.owner = id)
    (hnames : ∀ v, e.GivesByName v → (r.var v).name = v.name) : e'.normalize = e.normalize := by
  have hsame : ({} : Recasting).Faithful e' :=
    ⟨fun _ _ _ _ h => h, fun _ _ => rfl, fun _ _ _ _ h => h⟩
  calc e'.normalize = (e'.recast {}).normalize := (normalize_recast hsame rfl fun _ _ => rfl).symm
    _ = (e.recast r).normalize := by rw [hrecast]
    _ = e.normalize := normalize_recast hfaithful howner hnames

end ExprTree
