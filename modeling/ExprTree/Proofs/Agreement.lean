import Mathlib.Data.List.Dedup
import Mathlib.Data.List.Perm.Subperm
import ExprTree.Proofs.Delimiting
import ExprTree.Proofs.Reading
import ExprTree.Proofs.Recasting

/-!
# What the bytes of a tree determine

Two trees *agree* if they have the same nodes in the same places, with equal operators, types, flags
and references. What identifies a variable or a closure does not count, only what it refers to: a
bound variable counts as the place of its binder, the innermost first, a free one as its name and
type, and a closure that has been met before as the place where it was met. `Expr.Agrees` carries
the binders of both sides, and passes the closures met so far from node to node in the order of
writing.

Trees within the limits of the format have the same bytes only if they agree
(`agrees_of_normalize_eq`). The proof reads the two outputs side by side, each with anything after
it (`Encoding.Tells`): where both sides have met closures in the same places so far, equal outputs
make the next piece agree, leave closures in the same places and are followed by the same bytes.
-/

namespace ExprTree

/-! ## Agreement -/

/-- A list for each of two trees. -/
structure Sides (α : Type) where
  left : List α := []
  right : List α := []

/-- `x` is first found on the left where `y` is first found on the right. -/
def Sides.SamePlace {α : Type} [DecidableEq α] (s : Sides α) (x y : α) : Prop :=
  ∃ i, s.left.idxOf? x = some i ∧ s.right.idxOf? y = some i

/-- The binders inside a lambda on each side. The last parameter is the innermost. -/
def Sides.under (s : Sides Variable) (ps qs : List Variable) : Sides Variable :=
  ⟨ps.reverse ++ s.left, qs.reverse ++ s.right⟩

/-- Lists related item by item, with a state passed from each pair to the next. -/
inductive Threaded {ι σ α : Type} (R : σ → ι → α → α → σ → Prop) :
    σ → ι → List α → List α → σ → Prop
  | nil {s : σ} {i : ι} : Threaded R s i [] [] s
  | cons {s s₁ s₂ : σ} {i : ι} {x y : α} {xs ys : List α} :
      R s i x y s₁ → Threaded R s₁ i xs ys s₂ → Threaded R s i (x :: xs) (y :: ys) s₂

mutual

/-- Under the binders `B`, and with the closures `M` met so far, the expressions agree; `M'` are the
closures met after them. Labels do not count. -/
inductive Expr.Agrees : Sides Nat → Sides Variable → Expr → Expr → Sides Nat → Prop
  | mk {M B M' l l' n n'} : Node.Agrees M B n n' M' → Expr.Agrees M B (.mk l n) (.mk l' n') M'

/-- Agreement of nodes, kind by kind. -/
inductive Node.Agrees : Sides Nat → Sides Variable → Node → Node → Sides Nat → Prop
  | unary {M B M' op e e' t m m'} :
      m.map Method.plain = m'.map Method.plain → Expr.Agrees M B e e' M' →
      Node.Agrees M B (.unary op e t m) (.unary op e' t m') M'
  | binary {M B M₁ M₂ M' op x x' y y' c c' lifted m m' t} :
      m.map Method.plain = m'.map Method.plain → Expr.Agrees M B x x' M₁ →
      Expr.Agrees M₁ B y y' M₂ → Threaded Expr.Agrees M₂ B c.toList c'.toList M' →
      Node.Agrees M B (.binary op x y c lifted m t) (.binary op x' y' c' lifted m' t) M'
  | typeIs {M B M' e e' t} : Expr.Agrees M B e e' M' →
      Node.Agrees M B (.typeIs e t) (.typeIs e' t) M'
  | conditional {M B M₁ M₂ M' a a' b b' c c' t} : Expr.Agrees M B a a' M₁ →
      Expr.Agrees M₁ B b b' M₂ → Expr.Agrees M₂ B c c' M' →
      Node.Agrees M B (.conditional a b c t) (.conditional a' b' c' t) M'
  | constant {M B M' v v' t} : Value.Agrees M B v v' M' →
      Node.Agrees M B (.constant v t) (.constant v' t) M'
  | bound {M B v w} : B.SamePlace v w → Node.Agrees M B (.variable v) (.variable w) M
  | free {M B v w} : v ∉ B.left → w ∉ B.right → v.name = w.name → v.ty = w.ty →
      Node.Agrees M B (.variable v) (.variable w) M
  | memberAccess {M B M' o o' m} : Threaded Expr.Agrees M B o.toList o'.toList M' →
      Node.Agrees M B (.memberAccess o m) (.memberAccess o' m) M'
  | call {M B M₁ M' o o' m m' as as'} : m.plain = m'.plain →
      Threaded Expr.Agrees M B o.toList o'.toList M₁ → Threaded Expr.Agrees M₁ B as as' M' →
      Node.Agrees M B (.call o m as) (.call o' m' as') M'
  | lambda {M B M' ps qs b b' t} : ps.map (·.ty) = qs.map (·.ty) →
      Expr.Agrees M (B.under ps qs) b b' M' →
      Node.Agrees M B (.lambda ps b t) (.lambda qs b' t) M'
  | construct {M B M' c c'} : Construct.Agrees M B c c' M' →
      Node.Agrees M B (.construct c) (.construct c') M'
  | newArray {M B M' k t es es'} : Threaded Expr.Agrees M B es es' M' →
      Node.Agrees M B (.newArray k t es) (.newArray k t es') M'
  | invocation {M B M₁ M' e e' as as' t} : Expr.Agrees M B e e' M₁ →
      Threaded Expr.Agrees M₁ B as as' M' →
      Node.Agrees M B (.invocation e as t) (.invocation e' as' t) M'
  | memberInit {M B M₁ M' c c' bs bs'} : Construct.Agrees M B c c' M₁ →
      Threaded Binding.Agrees M₁ B bs bs' M' →
      Node.Agrees M B (.memberInit c bs) (.memberInit c' bs') M'
  | listInit {M B M₁ M' c c' es es'} : Construct.Agrees M B c c' M₁ →
      Threaded ElementInit.Agrees M₁ B es es' M' →
      Node.Agrees M B (.listInit c es) (.listInit c' es') M'
  | extension {M B kind t} : Node.Agrees M B (.extension kind t) (.extension kind t) M

/-- Agreement of constructor calls. Their lists of members are equal, if they have one. -/
inductive Construct.Agrees :
    Sides Nat → Sides Variable → Construct Expr → Construct Expr → Sides Nat → Prop
  | mk {M B M' t as as' ms} : Threaded Expr.Agrees M B as as' M' →
      Construct.Agrees M B ⟨t, as, ms⟩ ⟨t, as', ms⟩ M'

/-- Agreement of element initializers. -/
inductive ElementInit.Agrees :
    Sides Nat → Sides Variable → ElementInit Expr → ElementInit Expr → Sides Nat → Prop
  | mk {M B M' m m' as as'} : m.plain = m'.plain → Threaded Expr.Agrees M B as as' M' →
      ElementInit.Agrees M B ⟨m, as⟩ ⟨m', as'⟩ M'

/-- Agreement of bindings. -/
inductive Binding.Agrees :
    Sides Nat → Sides Variable → Binding Expr → Binding Expr → Sides Nat → Prop
  | assign {M B M' m e e'} : Expr.Agrees M B e e' M' →
      Binding.Agrees M B (.assign m e) (.assign m e') M'
  | nested {M B M' m bs bs'} : Threaded Binding.Agrees M B bs bs' M' →
      Binding.Agrees M B (.nested m bs) (.nested m bs') M'
  | elements {M B M' m es es'} : Threaded ElementInit.Agrees M B es es' M' →
      Binding.Agrees M B (.elements m es) (.elements m es') M'

/-- Agreement of payloads. A carried tree is under no binders but its own. A closure agrees with one
of the same name and fields where both are met first, and with the one in its place later. -/
inductive Value.Agrees : Sides Nat → Sides Variable → Value → Value → Sides Nat → Prop
  | null {M B} : Value.Agrees M B .null .null M
  | bool {M B b} : Value.Agrees M B (.bool b) (.bool b) M
  | int {M B n} : Value.Agrees M B (.int n) (.int n) M
  | float {M B x x'} : x.bits = x'.bits → Value.Agrees M B (.float x) (.float x') M
  | str {M B s} : Value.Agrees M B (.str s) (.str s) M
  | tree {M B M' t t'} : Expr.Agrees M {} t t' M' → Value.Agrees M B (.tree t) (.tree t') M'
  | first {M B M' i i' name fs fs'} : i ∉ M.left → i' ∉ M.right →
      Threaded Field.Agrees ⟨M.left ++ [i], M.right ++ [i']⟩ B fs fs' M' →
      Value.Agrees M B (.closure ⟨i, name, fs⟩) (.closure ⟨i', name, fs'⟩) M'
  | again {M B c c'} : M.SamePlace c.id c'.id → Value.Agrees M B (.closure c) (.closure c') M

/-- Agreement of the fields of closures. -/
inductive Field.Agrees :
    Sides Nat → Sides Variable → String × Value → String × Value → Sides Nat → Prop
  | mk {M B M' name v v'} : Value.Agrees M B v v' M' →
      Field.Agrees M B (name, v) (name, v') M'

end

/-- Everything that holds of a payload once it holds of the fields of a closure holds of every
payload. -/
theorem Value.fieldInduction {P : Value → Prop}
    (step : ∀ v, (∀ c, v = .closure c → ∀ f ∈ c.fields, P f.2) → P v) (v : Value) : P v :=
  step v fun c _ f _ => Value.fieldInduction step f.2
termination_by sizeOf v
decreasing_by
  subst v
  have := Closure.sizeOf_lt_of_mem ‹f ∈ c.fields›
  simp only [Value.closure.sizeOf_spec]
  omega

/-! ## Trees within the limits of the format -/

/-- The sizes of the strings and lists in a constructor call. -/
def Construct.sizes (c : Construct Expr) : List Nat :=
  c.args.length :: (c.ty.sizes ++
    c.members.toList.flatMap fun ms => ms.length :: ms.flatMap Member.sizes)

/-- The sizes of the strings and lists in an element initializer. -/
def ElementInit.sizes (i : ElementInit Expr) : List Nat := i.args.length :: i.addMethod.sizes

mutual

/-- The sizes of the strings and lists in a binding. -/
def Binding.sizes : Binding Expr → List Nat
  | .assign m _ => m.sizes
  | .nested m bs => m.sizes ++ bs.length :: Binding.sizesOfAll bs
  | .elements m es => m.sizes ++ es.length :: es.flatMap ElementInit.sizes

/-- The sizes of the strings and lists in some bindings. -/
def Binding.sizesOfAll : List (Binding Expr) → List Nat
  | [] => []
  | b :: bs => b.sizes ++ Binding.sizesOfAll bs

end

mutual

/-- The sizes of the strings and lists in a payload, also in the fields of closures, but not in
trees. -/
def Value.sizes : Value → List Nat
  | .null | .bool _ | .int _ | .float _ | .tree _ => []
  | .str s => [s.utf8ByteSize]
  | .closure ⟨_, name, fs⟩ => name.utf8ByteSize :: fs.length :: Value.sizesOfFields fs

/-- The sizes of the strings and lists in the fields of a closure. -/
def Value.sizesOfFields : List (String × Value) → List Nat
  | [] => []
  | (name, v) :: fs => name.utf8ByteSize :: (v.sizes ++ Value.sizesOfFields fs)

end

/-- The sizes of the strings and lists at a node. -/
def Node.sizes : Node → List Nat
  | .unary _ _ t m => t.sizes ++ m.toList.flatMap Method.sizes
  | .binary _ _ _ _ _ m t => t.sizes ++ m.toList.flatMap Method.sizes
  | .typeIs _ t => t.sizes
  | .conditional _ _ _ t => t.sizes
  | .constant v t => v.sizes ++ t.sizes
  | .variable v => v.name.utf8ByteSize :: v.ty.sizes
  | .memberAccess _ m => m.sizes
  | .call _ m as => as.length :: m.sizes
  | .lambda ps _ t => ps.length :: (Ty.sizesOfAll (ps.map (·.ty)) ++ t.sizes)
  | .construct c => c.sizes
  | .newArray _ t es => es.length :: t.sizes
  | .invocation _ as t => as.length :: t.sizes
  | .memberInit c bs => c.sizes ++ bs.length :: Binding.sizesOfAll bs
  | .listInit c es => c.sizes ++ es.length :: es.flatMap ElementInit.sizes
  | .extension kind t => kind.utf8ByteSize :: t.sizes

namespace Expr

/-- The largest number of binders in scope at any point that is reached through children. -/
def binderDepth : Expr → Nat := fold fun e depths => e.node.params.length + depths.foldr max 0

theorem binderDepth_eq (e : Expr) :
    e.binderDepth = e.node.params.length + (e.children.map binderDepth).foldr max 0 := fold_eq _ e

theorem binderDepth_child {c e : Expr} (h : c ∈ e.children) :
    e.node.params.length + c.binderDepth ≤ e.binderDepth := by
  rw [binderDepth_eq e]
  exact Nat.add_le_add_left (le_foldr_max (List.mem_map_of_mem h)) _

/-- The identities of the closures that a tree refers to, each one once. -/
def closureIds (e : Expr) : List Nat :=
  (e.within.flatMap fun a => a.node.closures.map (·.id)).dedup

theorem mem_closureIds {e a : Expr} {c : Closure Value} (ha : a.Within e)
    (hc : c ∈ a.node.closures) : c.id ∈ e.closureIds :=
  List.mem_dedup.2 (List.mem_flatMap.2 ⟨a, mem_within.2 ha, List.mem_map_of_mem hc⟩)

/-- The tree is within the limits of the format: its strings and lists, the binders in scope at any
point, and the number of its closures. -/
structure Encodable (e : Expr) : Prop where
  sizes : e.Everywhere fun a => Fit a.node.sizes
  binders : e.Everywhere fun a => a.binderDepth < 2 ^ 32
  closures : e.closureIds.length < 2 ^ 32

theorem encodable_iff {e : Expr} : e.Encodable ↔
    (∀ a ∈ e.within, Fit a.node.sizes ∧ a.binderDepth < 2 ^ 32) ∧
      e.closureIds.length < 2 ^ 32 := by
  constructor
  · intro h
    exact ⟨fun a ha => ⟨h.sizes a (mem_within.1 ha), h.binders a (mem_within.1 ha)⟩, h.closures⟩
  · rintro ⟨hall, hclosures⟩
    exact ⟨fun a ha => (hall a (mem_within.2 ha)).1, fun a ha => (hall a (mem_within.2 ha)).2,
      hclosures⟩

instance : DecidablePred Encodable := fun _ => decidable_of_iff _ encodable_iff.symm

end Expr

namespace Encoding

/-! ## Reading two outputs side by side -/

/-- Closures that have been met, each one once and all among `ids`. -/
structure Table (ids seen : List Nat) : Prop where
  nodup : seen.Nodup
  subset : ∀ i ∈ seen, i ∈ ids

theorem Table.length_lt {ids seen : List Nat} (h : Table ids seen) (hids : ids.length < 2 ^ 32) :
    seen.length < 2 ^ 32 :=
  Nat.lt_of_le_of_lt (List.subperm_of_subset h.nodup h.subset).length_le hids

theorem Table.push {ids seen : List Nat} (h : Table ids seen) {i : Nat} (hi : i ∈ ids)
    (hnew : i ∉ seen) : Table ids (seen ++ [i]) where
  nodup := List.nodup_append.2 ⟨h.nodup, List.nodup_singleton i, by
    rintro j hj k hk rfl
    exact hnew (List.mem_singleton.1 hk ▸ hj)⟩
  subset j hj := (List.mem_append.1 hj).elim (h.subset j) fun hj => List.mem_singleton.1 hj ▸ hi

/-- If two encoders write the same, each with anything after it, then what they write is related by
`R`, which is given the closures met before and after it, and the same follows on both sides. -/
def Tells (ids ids' : List Nat) (R : Sides Nat → Sides Nat → Prop) (x y : Encoder) : Prop :=
  ∀ ⦃s s' : List Nat⦄, Table ids s → Table ids' s' → ∀ ⦃r r' : Bytes⦄,
    (x s).1 ++ r = (y s').1 ++ r' →
      R ⟨s, s'⟩ ⟨(x s).2, (y s').2⟩ ∧ Table ids (x s).2 ∧ Table ids' (y s').2 ∧ r = r'

/-- The bytes of two expressions are equal only if the expressions agree. -/
def TellsExpr (ids ids' : List Nat) (B : Sides Variable) (x y : Expr) : Prop :=
  Tells ids ids' (Expr.Agrees · B x y ·) (expr x B.left) (expr y B.right)

theorem bind_apply {σ α β : Type} (x : StateM σ α) (f : α → StateM σ β) (s : σ) :
    (x >>= f) s = f (x s).1 (x s).2 := rfl

theorem pure_apply {σ α : Type} (a : α) (s : σ) : (pure a : StateM σ α) s = (a, s) := rfl

section Parts

variable {ids ids' : List Nat} {B : Sides Variable}

/-- Lists of which both the lengths and the items are told. `g` writes a list and `f` an item. -/
theorem tells_threaded {α : Type} {f : α → List Variable → Encoder}
    {g : List α → List Variable → Encoder} (hnil : ∀ bs, g [] bs = pure [])
    (hcons : ∀ x xs bs, g (x :: xs) bs = do
      let first ← f x bs
      let rest ← g xs bs
      return first ++ rest)
    {R : Sides Nat → Sides Variable → α → α → Sides Nat → Prop} {xs ys : List α}
    (hlength : xs.length = ys.length)
    (hitems : ∀ x ∈ xs, ∀ y ∈ ys, Tells ids ids' (R · B x y ·) (f x B.left) (f y B.right)) :
    Tells ids ids' (Threaded R · B xs ys ·) (g xs B.left) (g ys B.right) := by
  induction xs generalizing ys with
  | nil =>
    cases ys with
    | nil =>
      intro s s' hs hs' r r' h
      rw [hnil, hnil, pure_apply, pure_apply] at *
      exact ⟨.nil, hs, hs', h⟩
    | cons y ys => cases hlength
  | cons x xs ih =>
    cases ys with
    | nil => cases hlength
    | cons y ys =>
      intro s s' hs hs' r r' h
      simp only [hcons, bind_apply, pure_apply, List.append_assoc] at h ⊢
      obtain ⟨hitem, hs, hs', h⟩ := hitems x List.mem_cons_self y List.mem_cons_self hs hs' h
      obtain ⟨hrest, hs, hs', h⟩ := ih (Nat.succ.inj hlength)
        (fun x hx y hy => hitems x (List.mem_cons_of_mem _ hx) y (List.mem_cons_of_mem _ hy)) hs hs' h
      exact ⟨.cons hitem hrest, hs, hs', h⟩

theorem tells_optExpr {o o' : Option Expr}
    (h : ∀ x ∈ o.toList, ∀ y ∈ o'.toList, TellsExpr ids ids' B x y) :
    Tells ids ids' (Threaded Expr.Agrees · B o.toList o'.toList ·) (optExpr o B.left)
      (optExpr o' B.right) := by
  intro s s' hs hs' r r' hbytes
  cases o with
  | none =>
    cases o' with
    | none => exact ⟨.nil, hs, hs', (List.cons.inj hbytes).2⟩
    | some y => simp [optExpr, bind_apply, pure_apply] at hbytes
  | some x =>
    cases o' with
    | none => simp [optExpr, bind_apply, pure_apply] at hbytes
    | some y =>
      simp only [optExpr, bind_apply, pure_apply, List.cons_append, List.cons.injEq, true_and] at hbytes ⊢
      obtain ⟨hagree, hs, hs', hrest⟩ :=
        h x (List.mem_singleton_self x) y (List.mem_singleton_self y) hs hs' hbytes
      exact ⟨.cons hagree .nil, hs, hs', hrest⟩

theorem tells_exprs {es es' : List Expr} (hlength : es.length = es'.length)
    (h : ∀ x ∈ es, ∀ y ∈ es', TellsExpr ids ids' B x y) :
    Tells ids ids' (Threaded Expr.Agrees · B es es' ·) (exprs es B.left) (exprs es' B.right) :=
  tells_threaded (fun _ => by rw [exprs]) (fun _ _ _ => by rw [exprs]) hlength h

theorem tells_construct {c c' : Construct Expr} (hfit : Fit c.sizes) (hfit' : Fit c'.sizes)
    (h : ∀ x ∈ c.args, ∀ y ∈ c'.args, TellsExpr ids ids' B x y) :
    Tells ids ids' (Construct.Agrees · B c c' ·) (construct c B.left) (construct c' B.right) := by
  obtain ⟨t, as, ms⟩ := c
  obtain ⟨t', as', ms'⟩ := c'
  obtain ⟨hcount, hfit⟩ := fit_cons.1 hfit
  obtain ⟨hty, hmembers⟩ := fit_append.1 hfit
  obtain ⟨hcount', hfit'⟩ := fit_cons.1 hfit'
  obtain ⟨hty', hmembers'⟩ := fit_append.1 hfit'
  have hlist : ∀ {ms : Option (List Member)},
      Fit (ms.toList.flatMap fun l => l.length :: l.flatMap Member.sizes) →
      ∀ l ∈ ms, l.length < 2 ^ 32 - 1 ∧ Fit (l.flatMap Member.sizes) :=
    fun hfit l hl => fit_cons.1 (hfit.of_mem (Option.mem_toList.2 hl))
  intro s s' hs hs' r r' hbytes
  simp only [construct, bind_apply, pure_apply, List.append_assoc] at hbytes ⊢
  obtain ⟨htys, hbytes⟩ := delimits_ty hty hty' hbytes
  obtain ⟨hlength, hbytes⟩ := delimits_length hcount hcount' hbytes
  obtain ⟨hargs, hs, hs', hbytes⟩ := tells_exprs hlength h hs hs' hbytes
  obtain ⟨hms, hrest⟩ := delimits_optMembers (hlist hmembers) (hlist hmembers') hbytes
  subst htys hms
  exact ⟨.mk hargs, hs, hs', hrest⟩

theorem tells_element {i i' : ElementInit Expr} (hfit : Fit i.sizes) (hfit' : Fit i'.sizes)
    (h : ∀ x ∈ i.args, ∀ y ∈ i'.args, TellsExpr ids ids' B x y) :
    Tells ids ids' (ElementInit.Agrees · B i i' ·) (element i B.left) (element i' B.right) := by
  obtain ⟨m, as⟩ := i
  obtain ⟨m', as'⟩ := i'
  obtain ⟨hcount, hmethod⟩ := fit_cons.1 hfit
  obtain ⟨hcount', hmethod'⟩ := fit_cons.1 hfit'
  intro s s' hs hs' r r' hbytes
  simp only [element, bind_apply, pure_apply, List.append_assoc, List.cons_append, List.nil_append,
    List.cons.injEq, true_and] at hbytes ⊢
  obtain ⟨hplain, hbytes⟩ := plain_eq_of_method hmethod hmethod' hbytes
  obtain ⟨hlength, hbytes⟩ := delimits_length hcount hcount' hbytes
  obtain ⟨hargs, hs, hs', hrest⟩ := tells_exprs hlength h hs hs' hbytes
  exact ⟨.mk hplain hargs, hs, hs', hrest⟩

theorem tells_elements {es es' : List (ElementInit Expr)} (hlength : es.length = es'.length)
    (hfit : Fit (es.flatMap ElementInit.sizes)) (hfit' : Fit (es'.flatMap ElementInit.sizes))
    (h : ∀ x ∈ es.flatMap (·.args), ∀ y ∈ es'.flatMap (·.args), TellsExpr ids ids' B x y) :
    Tells ids ids' (Threaded ElementInit.Agrees · B es es' ·) (elements es B.left)
      (elements es' B.right) :=
  tells_threaded (fun _ => by rw [elements]) (fun _ _ _ => by rw [elements]) hlength
    fun i hi i' hi' => tells_element (hfit.of_mem hi) (hfit'.of_mem hi') fun x hx y hy =>
      h x (List.mem_flatMap.2 ⟨i, hi, hx⟩) y (List.mem_flatMap.2 ⟨i', hi', hy⟩)

mutual

theorem tells_binding : ∀ {b b' : Binding Expr}, Fit b.sizes → Fit b'.sizes →
    (∀ x ∈ b.exprs, ∀ y ∈ b'.exprs, TellsExpr ids ids' B x y) →
    Tells ids ids' (Binding.Agrees · B b b' ·) (binding b B.left) (binding b' B.right)
  | .assign m e, b', hfit, hfit', h => by
    intro s s' hs hs' r r' hbytes
    cases b' with
    | assign m' e' =>
      rw [Binding.sizes] at hfit hfit'
      simp only [binding, bind_apply, pure_apply, List.append_assoc, List.cons_append,
        List.nil_append, List.cons.injEq, true_and] at hbytes ⊢
      obtain ⟨hm, hbytes⟩ := delimits_member hfit hfit' hbytes
      obtain ⟨he, hs, hs', hrest⟩ :=
        h e (by simp [Binding.exprs]) e' (by simp [Binding.exprs]) hs hs' hbytes
      subst hm
      exact ⟨.assign he, hs, hs', hrest⟩
    | _ => simp [binding, bind_apply, pure_apply] at hbytes
  | .nested m bs, b', hfit, hfit', h => by
    intro s s' hs hs' r r' hbytes
    cases b' with
    | nested m' bs' =>
      simp only [Binding.sizes, fit_append, fit_cons] at hfit hfit'
      simp only [Binding.exprs] at h
      simp only [binding, bind_apply, pure_apply, List.append_assoc, List.cons_append,
        List.nil_append, List.cons.injEq, true_and] at hbytes ⊢
      obtain ⟨hm, hbytes⟩ := delimits_member hfit.1 hfit'.1 hbytes
      obtain ⟨hlength, hbytes⟩ := delimits_length hfit.2.1 hfit'.2.1 hbytes
      obtain ⟨hbs, hs, hs', hrest⟩ := tells_bindings hlength hfit.2.2 hfit'.2.2 h hs hs' hbytes
      subst hm
      exact ⟨.nested hbs, hs, hs', hrest⟩
    | _ => simp [binding, bind_apply, pure_apply] at hbytes
  | .elements m es, b', hfit, hfit', h => by
    intro s s' hs hs' r r' hbytes
    cases b' with
    | elements m' es' =>
      simp only [Binding.sizes, fit_append, fit_cons] at hfit hfit'
      simp only [Binding.exprs] at h
      simp only [binding, bind_apply, pure_apply, List.append_assoc, List.cons_append,
        List.nil_append, List.cons.injEq, true_and] at hbytes ⊢
      obtain ⟨hm, hbytes⟩ := delimits_member hfit.1 hfit'.1 hbytes
      obtain ⟨hlength, hbytes⟩ := delimits_length hfit.2.1 hfit'.2.1 hbytes
      obtain ⟨hes, hs, hs', hrest⟩ := tells_elements hlength hfit.2.2 hfit'.2.2 h hs hs' hbytes
      subst hm
      exact ⟨.elements hes, hs, hs', hrest⟩
    | _ => simp [binding, bind_apply, pure_apply] at hbytes

theorem tells_bindings : ∀ {bs bs' : List (Binding Expr)}, bs.length = bs'.length →
    Fit (Binding.sizesOfAll bs) → Fit (Binding.sizesOfAll bs') →
    (∀ x ∈ Binding.exprsOfAll bs, ∀ y ∈ Binding.exprsOfAll bs', TellsExpr ids ids' B x y) →
    Tells ids ids' (Threaded Binding.Agrees · B bs bs' ·) (bindings bs B.left) (bindings bs' B.right)
  | [], [], _, _, _, _ => fun s s' hs hs' r r' h => ⟨.nil, hs, hs', h⟩
  | b :: bs, b' :: bs', hlength, hfit, hfit', h => by
    intro s s' hs hs' r r' hbytes
    rw [Binding.sizesOfAll, fit_append] at hfit hfit'
    simp only [Binding.exprsOfAll] at h
    simp only [bindings, bind_apply, pure_apply, List.append_assoc] at hbytes ⊢
    obtain ⟨hb, hs, hs', hbytes⟩ := tells_binding hfit.1 hfit'.1
      (fun x hx y hy => h x (List.mem_append_left _ hx) y (List.mem_append_left _ hy)) hs hs' hbytes
    obtain ⟨hbs, hs, hs', hrest⟩ := tells_bindings (Nat.succ.inj hlength) hfit.2 hfit'.2
      (fun x hx y hy => h x (List.mem_append_right _ hx) y (List.mem_append_right _ hy)) hs hs' hbytes
    exact ⟨.cons hb hbs, hs, hs', hrest⟩

end

theorem lt_of_idxOf? {α : Type} [DecidableEq α] {xs : List α} {x : α} {i : Nat}
    (h : xs.idxOf? x = some i) : i < xs.length :=
  (List.idxOf?_eq_some_iff.1 h).1

/-- The first byte of a payload. -/
def valueTag : Value → UInt8
  | .null => 0x40
  | .bool _ => 0x41
  | .int _ => 0x42
  | .float _ => 0x43
  | .str _ => 0x44
  | .tree _ => 0x45
  | .closure _ => 0x46

theorem exists_value_eq_cons (v : Value) (s : List Nat) :
    ∃ rest, (value v s).1 = valueTag v :: rest := by
  cases v with
  | closure c =>
    obtain ⟨i, name, fs⟩ := c
    rw [value_closure]
    split <;> exact ⟨_, rfl⟩
  | _ => exact ⟨_, rfl⟩

/-- Two closures: either both have been met before, in the same place, or both are new. -/
theorem tells_closure (hids : ids.length < 2 ^ 32) (hids' : ids'.length < 2 ^ 32)
    {c c' : Closure Value} (hc : c.id ∈ ids) (hc' : c'.id ∈ ids')
    (hfit : Fit (Value.closure c).sizes) (hfit' : Fit (Value.closure c').sizes)
    (hfields : c.fields.length = c'.fields.length →
      Tells ids ids' (Threaded Field.Agrees · B c.fields c'.fields ·) (fields c.fields)
        (fields c'.fields)) :
    Tells ids ids' (Value.Agrees · B (.closure c) (.closure c') ·) (value (.closure c))
      (value (.closure c')) := by
  obtain ⟨i, name, fs⟩ := c
  obtain ⟨i', name', fs'⟩ := c'
  simp only [Value.sizes, fit_cons] at hfit hfit'
  intro s s' hs hs' r r' hbytes
  rw [value_closure, value_closure] at *
  cases hi : s.idxOf? i with
  | some k =>
    cases hi' : s'.idxOf? i' with
    | some k' =>
      simp only [hi, hi', List.cons_append, List.nil_append, List.cons.injEq, true_and] at hbytes ⊢
      have hk := Nat.lt_trans (lt_of_idxOf? hi) (hs.length_lt hids)
      have hk' := Nat.lt_trans (lt_of_idxOf? hi') (hs'.length_lt hids')
      obtain ⟨rfl, hrest⟩ := delimits_count hk hk' hbytes
      exact ⟨.again ⟨k, hi, hi'⟩, hs, hs', hrest⟩
    | none => simp [hi, hi'] at hbytes
  | none =>
    cases hi' : s'.idxOf? i' with
    | some k' => simp [hi, hi'] at hbytes
    | none =>
      simp only [hi, hi', List.cons_append, List.nil_append, List.append_assoc, List.cons.injEq,
        true_and] at hbytes ⊢
      have hnew := List.idxOf?_eq_none_iff.1 hi
      have hnew' := List.idxOf?_eq_none_iff.1 hi'
      obtain ⟨hname, hbytes⟩ := delimits_string hfit.1 hfit'.1 hbytes
      obtain ⟨hlength, hbytes⟩ := delimits_length hfit.2.1 hfit'.2.1 hbytes
      obtain ⟨hagree, hs, hs', hrest⟩ :=
        hfields hlength (hs.push hc hnew) (hs'.push hc' hnew') hbytes
      subst hname
      exact ⟨.first hnew hnew' hagree, hs, hs', hrest⟩

theorem fit_sizes_of_mem {fs : List (String × Value)} (hfit : Fit (Value.sizesOfFields fs))
    {f : String × Value} (hf : f ∈ fs) : f.1.utf8ByteSize < 2 ^ 32 - 1 ∧ Fit f.2.sizes := by
  induction fs with
  | nil => cases hf
  | cons g fs ih =>
    simp only [Value.sizesOfFields, fit_cons, fit_append] at hfit
    rcases List.mem_cons.1 hf with rfl | hf
    · exact ⟨hfit.1, hfit.2.1⟩
    · exact ih hfit.2.2 hf

theorem tells_fields {fs fs' : List (String × Value)} (hlength : fs.length = fs'.length)
    (hfit : Fit (Value.sizesOfFields fs)) (hfit' : Fit (Value.sizesOfFields fs'))
    (h : ∀ f ∈ fs, ∀ f' ∈ fs',
      Tells ids ids' (Value.Agrees · B f.2 f'.2 ·) (value f.2) (value f'.2)) :
    Tells ids ids' (Threaded Field.Agrees · B fs fs' ·) (fields fs) (fields fs') := by
  refine tells_threaded (B := B) (g := fun fs _ => fields fs) (f := fun f _ => do
    let bytes ← value f.2
    return string f.1 ++ bytes) (fun _ => by rw [fields]) (fun f fs _ => by rw [fields]; rfl)
    hlength fun f hf f' hf' => ?_
  intro s s' hs hs' r r' hbytes
  simp only [bind_apply, pure_apply, List.append_assoc] at hbytes ⊢
  obtain ⟨hname, hbytes⟩ :=
    delimits_string (fit_sizes_of_mem hfit hf).1 (fit_sizes_of_mem hfit' hf').1 hbytes
  obtain ⟨hagree, hs, hs', hrest⟩ := h f hf f' hf' hs hs' hbytes
  have hfield : Field.Agrees _ B f (f.1, f'.2) _ := .mk hagree
  rw [hname] at hfield
  exact ⟨hfield, hs, hs', hrest⟩

theorem tells_value (hids : ids.length < 2 ^ 32) (hids' : ids'.length < 2 ^ 32) {v v' : Value}
    (hfit : Fit v.sizes) (hfit' : Fit v'.sizes)
    (hclosures : ∀ c ∈ v.closures, c.id ∈ ids) (hclosures' : ∀ c ∈ v'.closures, c.id ∈ ids')
    (htrees : ∀ t ∈ v.trees, ∀ t' ∈ v'.trees, TellsExpr ids ids' {} t t') :
    Tells ids ids' (Value.Agrees · B v v' ·) (value v) (value v') := by
  induction v using Value.fieldInduction generalizing v' with | step v ih => ?_
  intro s s' hs hs' r r' hbytes
  have htag : valueTag v = valueTag v' := by
    obtain ⟨rest, hrest⟩ := exists_value_eq_cons v s
    obtain ⟨rest', hrest'⟩ := exists_value_eq_cons v' s'
    rw [hrest, hrest'] at hbytes
    exact (List.cons.inj hbytes).1
  cases v with
  | null =>
    cases v' with
    | null => exact ⟨.null, hs, hs', (List.cons.inj hbytes).2⟩
    | _ => cases htag
  | bool b =>
    cases v' with
    | bool b' =>
      simp only [value, pure_apply, List.cons_append, List.cons.injEq, true_and] at hbytes ⊢
      obtain ⟨rfl, hrest⟩ := delimits_flag trivial trivial hbytes
      exact ⟨.bool, hs, hs', hrest⟩
    | _ => cases htag
  | int n =>
    cases v' with
    | int n' =>
      simp only [value, pure_apply, List.cons_append, List.cons.injEq, true_and] at hbytes ⊢
      obtain ⟨hword, hrest⟩ := delimits_number 8 n.toUInt64.toNat_lt n'.toUInt64.toNat_lt hbytes
      obtain ⟨w⟩ := n
      obtain ⟨w'⟩ := n'
      obtain rfl : w = w' := UInt64.toNat_inj.1 hword
      exact ⟨.int, hs, hs', hrest⟩
    | _ => cases htag
  | float x =>
    cases v' with
    | float x' =>
      simp only [value, pure_apply, List.cons_append, List.cons.injEq, true_and] at hbytes ⊢
      obtain ⟨hbits, hrest⟩ := delimits_number 8 x.bits.toNat_lt x'.bits.toNat_lt hbytes
      exact ⟨.float (UInt64.toNat_inj.1 hbits), hs, hs', hrest⟩
    | _ => cases htag
  | str t =>
    cases v' with
    | str t' =>
      simp only [Value.sizes, fit_cons] at hfit hfit'
      simp only [value, pure_apply, List.cons_append, List.cons.injEq, true_and] at hbytes ⊢
      obtain ⟨rfl, hrest⟩ := delimits_string hfit.1 hfit'.1 hbytes
      exact ⟨.str, hs, hs', hrest⟩
    | _ => cases htag
  | tree t =>
    cases v' with
    | tree t' =>
      simp only [value, bind_apply, pure_apply, List.cons_append, List.cons.injEq, true_and]
        at hbytes ⊢
      obtain ⟨hagree, hs, hs', hrest⟩ := htrees t (by simp) t' (by simp) hs hs' hbytes
      exact ⟨.tree hagree, hs, hs', hrest⟩
    | _ => cases htag
  | closure c =>
    cases v' with
    | closure c' =>
      rw [Value.closures_closure] at hclosures hclosures'
      rw [Value.trees_closure, Value.trees_closure] at htrees
      refine tells_closure hids hids' (hclosures c List.mem_cons_self)
        (hclosures' c' List.mem_cons_self) hfit hfit' (fun hlength => ?_) hs hs' hbytes
      obtain ⟨i, name, fs⟩ := c
      obtain ⟨i', name', fs'⟩ := c'
      simp only [Value.sizes, fit_cons] at hfit hfit'
      exact tells_fields hlength hfit.2.2 hfit'.2.2 fun f hf f' hf' => ih _ rfl f hf
        (fit_sizes_of_mem hfit.2.2 hf).2 (fit_sizes_of_mem hfit'.2.2 hf').2
        (fun c hc => hclosures c (List.mem_cons_of_mem _ (List.mem_flatMap.2 ⟨f, hf, hc⟩)))
        (fun c hc => hclosures' c (List.mem_cons_of_mem _ (List.mem_flatMap.2 ⟨f', hf', hc⟩)))
        fun t ht t' ht' => htrees t (List.mem_flatMap.2 ⟨f, hf, ht⟩) t'
          (List.mem_flatMap.2 ⟨f', hf', ht'⟩)
    | _ => cases htag

/-- The bytes of a variable tell the place of its binder, or its name and type. -/
theorem agrees_of_variableRef {v w : Variable} (hleft : B.left.length < 2 ^ 32)
    (hright : B.right.length < 2 ^ 32) (hfit : Fit (Node.variable v).sizes)
    (hfit' : Fit (Node.variable w).sizes) {r r' : Bytes}
    (h : variableRef B.left v ++ r = variableRef B.right w ++ r') (M : Sides Nat) :
    Node.Agrees M B (.variable v) (.variable w) M ∧ r = r' := by
  simp only [Node.sizes, fit_cons] at hfit hfit'
  cases hv : B.left.idxOf? v with
  | some i =>
    cases hw : B.right.idxOf? w with
    | some j =>
      simp only [variableRef, hv, hw, List.cons_append, List.cons.injEq, true_and] at h
      have hi := Nat.lt_trans (lt_of_idxOf? hv) hleft
      have hj := Nat.lt_trans (lt_of_idxOf? hw) hright
      obtain ⟨rfl, hrest⟩ := delimits_count hi hj h
      exact ⟨.bound ⟨i, hv, hw⟩, hrest⟩
    | none => simp [variableRef, hv, hw] at h
  | none =>
    cases hw : B.right.idxOf? w with
    | some j => simp [variableRef, hv, hw] at h
    | none =>
      simp only [variableRef, hv, hw, List.cons_append, List.cons.injEq, true_and,
        List.append_assoc] at h
      obtain ⟨hname, h⟩ := delimits_string hfit.1 hfit'.1 h
      obtain ⟨hty, hrest⟩ := delimits_ty hfit.2 hfit'.2 h
      exact ⟨.free (List.idxOf?_eq_none_iff.1 hv) (List.idxOf?_eq_none_iff.1 hw) hname hty, hrest⟩

end Parts

/-! ## Trees side by side -/

theorem unaryOp_eq_of_word {op op' : UnaryOp} {r r' : Bytes}
    (h : string op.word ++ r = string op'.word ++ r') : op = op' ∧ r = r' := by
  have hshort : ∀ op : UnaryOp, op.word.utf8ByteSize < 2 ^ 32 - 1 := by
    intro op
    cases op <;> decide
  obtain ⟨hword, hrest⟩ := delimits_string (hshort op) (hshort op') h
  have hop := congrArg UnaryOp.ofWord? hword
  rw [UnaryOp.ofWord?_word, UnaryOp.ofWord?_word] at hop
  exact ⟨Option.some.inj hop, hrest⟩

theorem binaryOp_eq_of_word {op op' : BinaryOp} {r r' : Bytes}
    (h : string op.word ++ r = string op'.word ++ r') : op = op' ∧ r = r' := by
  have hshort : ∀ op : BinaryOp, op.word.utf8ByteSize < 2 ^ 32 - 1 := by
    intro op
    cases op <;> decide
  obtain ⟨hword, hrest⟩ := delimits_string (hshort op) (hshort op') h
  have hop := congrArg BinaryOp.ofWord? hword
  rw [BinaryOp.ofWord?_word, BinaryOp.ofWord?_word] at hop
  exact ⟨Option.some.inj hop, hrest⟩

/-- The first byte of a node tells its kind; a variable has two. -/
def kindOfTag (tag : UInt8) : Kind :=
  if tag = 0x01 then .unary else if tag = 0x02 then .binary else if tag = 0x03 then .typeIs
  else if tag = 0x04 then .conditional else if tag = 0x05 then .constant
  else if tag = 0x06 ∨ tag = 0x07 then .variable else if tag = 0x08 then .memberAccess
  else if tag = 0x09 then .call else if tag = 0x0A then .lambda else if tag = 0x0B then .construct
  else if tag = 0x0C then .newArray else if tag = 0x0D then .invocation
  else if tag = 0x0E then .memberInit else if tag = 0x0F then .listInit else .extension

theorem exists_node_eq_cons (n : Node) (binders : List Variable) (s : List Nat) :
    ∃ tag rest, (node n binders s).1 = tag :: rest ∧ kindOfTag tag = n.kind := by
  cases n with
  | «variable» v =>
    cases hv : binders.idxOf? v with
    | some i => exact ⟨0x06, count i, by simp only [node, pure_apply, variableRef, hv], rfl⟩
    | none =>
      exact ⟨0x07, string v.name ++ ty v.ty, by simp only [node, pure_apply, variableRef, hv], rfl⟩
  | _ =>
    exact ⟨_, _, by
      simp only [node, bind_apply, pure_apply, List.cons_append, List.nil_append, List.append_assoc]
      rfl, rfl⟩

/-- What the proof asks of each expression of a tree: limits that hold of it, and a list that has its
closures. -/
structure Writable (ids : List Nat) (a : Expr) : Prop where
  sizes : Fit a.node.sizes
  binders : a.binderDepth < 2 ^ 32
  closures : ∀ c ∈ a.node.closures, c.id ∈ ids

/-- The bytes of two nodes are equal only if the nodes agree. -/
def TellsNode (ids ids' : List Nat) (B : Sides Variable) (n n' : Node) : Prop :=
  Tells ids ids' (Node.Agrees · B n n' ·) (node n B.left) (node n' B.right)

section Nodes

variable {ids ids' : List Nat} {B : Sides Variable}

/-- The first byte leaves only nodes of one kind to be compared. -/
theorem TellsNode.of_kind {n n' : Node} (h : n.kind = n'.kind → TellsNode ids ids' B n n') :
    TellsNode ids ids' B n n' := by
  intro s s' hs hs' r r' hbytes
  have hkind : n.kind = n'.kind := by
    obtain ⟨tag, rest, hrest, hkind⟩ := exists_node_eq_cons n B.left s
    obtain ⟨tag', rest', hrest', hkind'⟩ := exists_node_eq_cons n' B.right s'
    rw [hrest, hrest'] at hbytes
    rw [← hkind, ← hkind', (List.cons.inj hbytes).1]
  exact h hkind hs hs' hbytes

theorem tells_unary {op op' : UnaryOp} {e e' : Expr} {t t' : Ty} {m m' : Option Method}
    (hfit : Fit (Node.unary op e t m).sizes) (hfit' : Fit (Node.unary op' e' t' m').sizes)
    (he : TellsExpr ids ids' B e e') : TellsNode ids ids' B (.unary op e t m) (.unary op' e' t' m') := by
  simp only [Node.sizes, fit_append] at hfit hfit'
  intro s s' hs hs' r r' hbytes
  simp only [node, bind_apply, pure_apply, List.append_assoc, List.cons_append, List.nil_append,
    List.cons.injEq, true_and] at hbytes ⊢
  obtain ⟨hop, hbytes⟩ := unaryOp_eq_of_word hbytes
  obtain ⟨hty, hbytes⟩ := delimits_ty hfit.1 hfit'.1 hbytes
  obtain ⟨hmethod, hbytes⟩ := plain_eq_of_optMethod hfit.2 hfit'.2 hbytes
  obtain ⟨hagree, hs, hs', hrest⟩ := he hs hs' hbytes
  subst hop hty
  exact ⟨.unary hmethod hagree, hs, hs', hrest⟩

theorem tells_binary {op op' : BinaryOp} {x x' y y' : Expr} {c c' : Option Expr} {lifted lifted' : Bool}
    {m m' : Option Method} {t t' : Ty} (hfit : Fit (Node.binary op x y c lifted m t).sizes)
    (hfit' : Fit (Node.binary op' x' y' c' lifted' m' t').sizes) (hx : TellsExpr ids ids' B x x')
    (hy : TellsExpr ids ids' B y y') (hc : ∀ z ∈ c.toList, ∀ z' ∈ c'.toList, TellsExpr ids ids' B z z') :
    TellsNode ids ids' B (.binary op x y c lifted m t) (.binary op' x' y' c' lifted' m' t') := by
  simp only [Node.sizes, fit_append] at hfit hfit'
  intro s s' hs hs' r r' hbytes
  simp only [node, bind_apply, pure_apply, List.append_assoc, List.cons_append, List.nil_append,
    List.cons.injEq, true_and] at hbytes ⊢
  obtain ⟨hop, hbytes⟩ := binaryOp_eq_of_word hbytes
  obtain ⟨hty, hbytes⟩ := delimits_ty hfit.1 hfit'.1 hbytes
  obtain ⟨hlifted, hbytes⟩ := delimits_flag trivial trivial hbytes
  obtain ⟨hmethod, hbytes⟩ := plain_eq_of_optMethod hfit.2 hfit'.2 hbytes
  obtain ⟨hleft, hs, hs', hbytes⟩ := hx hs hs' hbytes
  obtain ⟨hright, hs, hs', hbytes⟩ := hy hs hs' hbytes
  obtain ⟨hconversion, hs, hs', hrest⟩ := tells_optExpr hc hs hs' hbytes
  subst hop hty hlifted
  exact ⟨.binary hmethod hleft hright hconversion, hs, hs', hrest⟩

theorem tells_typeIs {e e' : Expr} {t t' : Ty} (hfit : Fit (Node.typeIs e t).sizes)
    (hfit' : Fit (Node.typeIs e' t').sizes) (he : TellsExpr ids ids' B e e') :
    TellsNode ids ids' B (.typeIs e t) (.typeIs e' t') := by
  intro s s' hs hs' r r' hbytes
  simp only [node, bind_apply, pure_apply, List.append_assoc, List.cons_append, List.nil_append,
    List.cons.injEq, true_and] at hbytes ⊢
  obtain ⟨hty, hbytes⟩ := delimits_ty hfit hfit' hbytes
  obtain ⟨hagree, hs, hs', hrest⟩ := he hs hs' hbytes
  subst hty
  exact ⟨.typeIs hagree, hs, hs', hrest⟩

theorem tells_conditional {x x' y y' z z' : Expr} {t t' : Ty} (hfit : Fit (Node.conditional x y z t).sizes)
    (hfit' : Fit (Node.conditional x' y' z' t').sizes) (hx : TellsExpr ids ids' B x x')
    (hy : TellsExpr ids ids' B y y') (hz : TellsExpr ids ids' B z z') :
    TellsNode ids ids' B (.conditional x y z t) (.conditional x' y' z' t') := by
  intro s s' hs hs' r r' hbytes
  simp only [node, bind_apply, pure_apply, List.append_assoc, List.cons_append, List.nil_append,
    List.cons.injEq, true_and] at hbytes ⊢
  obtain ⟨hty, hbytes⟩ := delimits_ty hfit hfit' hbytes
  obtain ⟨htest, hs, hs', hbytes⟩ := hx hs hs' hbytes
  obtain ⟨hthen, hs, hs', hbytes⟩ := hy hs hs' hbytes
  obtain ⟨helse, hs, hs', hrest⟩ := hz hs hs' hbytes
  subst hty
  exact ⟨.conditional htest hthen helse, hs, hs', hrest⟩

theorem tells_constant {v v' : Value} {t t' : Ty} (hids : ids.length < 2 ^ 32) (hids' : ids'.length < 2 ^ 32)
    (hfit : Fit (Node.constant v t).sizes) (hfit' : Fit (Node.constant v' t').sizes)
    (hclosures : ∀ c ∈ v.closures, c.id ∈ ids) (hclosures' : ∀ c ∈ v'.closures, c.id ∈ ids')
    (htrees : ∀ x ∈ v.trees, ∀ y ∈ v'.trees, TellsExpr ids ids' {} x y) :
    TellsNode ids ids' B (.constant v t) (.constant v' t') := by
  simp only [Node.sizes, fit_append] at hfit hfit'
  intro s s' hs hs' r r' hbytes
  simp only [node, bind_apply, pure_apply, List.append_assoc, List.cons_append, List.nil_append,
    List.cons.injEq, true_and] at hbytes ⊢
  obtain ⟨hty, hbytes⟩ := delimits_ty hfit.2 hfit'.2 hbytes
  obtain ⟨hagree, hs, hs', hrest⟩ :=
    tells_value hids hids' hfit.1 hfit'.1 hclosures hclosures' htrees hs hs' hbytes
  subst hty
  exact ⟨.constant hagree, hs, hs', hrest⟩

theorem tells_variable {v w : Variable} (hleft : B.left.length < 2 ^ 32) (hright : B.right.length < 2 ^ 32)
    (hfit : Fit (Node.variable v).sizes) (hfit' : Fit (Node.variable w).sizes) :
    TellsNode ids ids' B (.variable v) (.variable w) := by
  intro s s' hs hs' r r' hbytes
  simp only [node, pure_apply] at hbytes ⊢
  obtain ⟨hagree, hrest⟩ := agrees_of_variableRef hleft hright hfit hfit' hbytes ⟨s, s'⟩
  exact ⟨hagree, hs, hs', hrest⟩

theorem tells_memberAccess {o o' : Option Expr} {m m' : Member} (hfit : Fit (Node.memberAccess o m).sizes)
    (hfit' : Fit (Node.memberAccess o' m').sizes)
    (ho : ∀ x ∈ o.toList, ∀ y ∈ o'.toList, TellsExpr ids ids' B x y) :
    TellsNode ids ids' B (.memberAccess o m) (.memberAccess o' m') := by
  intro s s' hs hs' r r' hbytes
  simp only [node, bind_apply, pure_apply, List.append_assoc, List.cons_append, List.nil_append,
    List.cons.injEq, true_and] at hbytes ⊢
  obtain ⟨hm, hbytes⟩ := delimits_member hfit hfit' hbytes
  obtain ⟨hobject, hs, hs', hrest⟩ := tells_optExpr ho hs hs' hbytes
  subst hm
  exact ⟨.memberAccess hobject, hs, hs', hrest⟩

theorem tells_call {o o' : Option Expr} {m m' : Method} {as as' : List Expr}
    (hfit : Fit (Node.call o m as).sizes) (hfit' : Fit (Node.call o' m' as').sizes)
    (ho : ∀ x ∈ o.toList, ∀ y ∈ o'.toList, TellsExpr ids ids' B x y)
    (has : ∀ x ∈ as, ∀ y ∈ as', TellsExpr ids ids' B x y) :
    TellsNode ids ids' B (.call o m as) (.call o' m' as') := by
  simp only [Node.sizes, fit_cons] at hfit hfit'
  intro s s' hs hs' r r' hbytes
  simp only [node, bind_apply, pure_apply, List.append_assoc, List.cons_append, List.nil_append,
    List.cons.injEq, true_and] at hbytes ⊢
  obtain ⟨hmethod, hbytes⟩ := plain_eq_of_method hfit.2 hfit'.2 hbytes
  obtain ⟨hobject, hs, hs', hbytes⟩ := tells_optExpr ho hs hs' hbytes
  obtain ⟨hlength, hbytes⟩ := delimits_length hfit.1 hfit'.1 hbytes
  obtain ⟨hargs, hs, hs', hrest⟩ := tells_exprs hlength has hs hs' hbytes
  exact ⟨.call hmethod hobject hargs, hs, hs', hrest⟩

theorem tells_lambda {ps qs : List Variable} {e e' : Expr} {t t' : Ty}
    (hfit : Fit (Node.lambda ps e t).sizes) (hfit' : Fit (Node.lambda qs e' t').sizes)
    (he : TellsExpr ids ids' (B.under ps qs) e e') :
    TellsNode ids ids' B (.lambda ps e t) (.lambda qs e' t') := by
  simp only [Node.sizes, fit_cons, fit_append] at hfit hfit'
  intro s s' hs hs' r r' hbytes
  simp only [node, bind_apply, pure_apply, List.append_assoc, List.cons_append, List.nil_append,
    List.cons.injEq, true_and] at hbytes ⊢
  obtain ⟨hlength, hbytes⟩ := delimits_length hfit.1 hfit'.1 hbytes
  obtain ⟨hparams, hbytes⟩ := delimits_tys (by simpa using hlength) hfit.2.1 hfit'.2.1 hbytes
  obtain ⟨hty, hbytes⟩ := delimits_ty hfit.2.2 hfit'.2.2 hbytes
  obtain ⟨hbody, hs, hs', hrest⟩ := he hs hs' hbytes
  subst hty
  exact ⟨.lambda hparams hbody, hs, hs', hrest⟩

theorem tells_constructNode {c c' : Construct Expr} (hfit : Fit (Node.construct c).sizes)
    (hfit' : Fit (Node.construct c').sizes) (hc : ∀ x ∈ c.args, ∀ y ∈ c'.args, TellsExpr ids ids' B x y) :
    TellsNode ids ids' B (.construct c) (.construct c') := by
  intro s s' hs hs' r r' hbytes
  simp only [node, bind_apply, pure_apply, List.cons_append, List.nil_append, List.cons.injEq,
    true_and] at hbytes ⊢
  obtain ⟨hconstruct, hs, hs', hrest⟩ := tells_construct hfit hfit' hc hs hs' hbytes
  exact ⟨.construct hconstruct, hs, hs', hrest⟩

theorem tells_newArray {k k' : ArrayKind} {t t' : Ty} {es es' : List Expr}
    (hfit : Fit (Node.newArray k t es).sizes) (hfit' : Fit (Node.newArray k' t' es').sizes)
    (hes : ∀ x ∈ es, ∀ y ∈ es', TellsExpr ids ids' B x y) :
    TellsNode ids ids' B (.newArray k t es) (.newArray k' t' es') := by
  simp only [Node.sizes, fit_cons] at hfit hfit'
  intro s s' hs hs' r r' hbytes
  simp only [node, bind_apply, pure_apply, List.append_assoc, List.cons_append, List.nil_append,
    List.cons.injEq, true_and] at hbytes ⊢
  obtain ⟨hflag, hbytes⟩ := delimits_flag trivial trivial hbytes
  obtain ⟨hty, hbytes⟩ := delimits_ty hfit.2 hfit'.2 hbytes
  obtain ⟨hlength, hbytes⟩ := delimits_length hfit.1 hfit'.1 hbytes
  obtain ⟨hitems, hs, hs', hrest⟩ := tells_exprs hlength hes hs hs' hbytes
  have hk : k = k' := by
    cases k <;> cases k' <;> simp_all
  subst hty hk
  exact ⟨.newArray hitems, hs, hs', hrest⟩

theorem tells_invocation {e e' : Expr} {as as' : List Expr} {t t' : Ty}
    (hfit : Fit (Node.invocation e as t).sizes) (hfit' : Fit (Node.invocation e' as' t').sizes)
    (he : TellsExpr ids ids' B e e') (has : ∀ x ∈ as, ∀ y ∈ as', TellsExpr ids ids' B x y) :
    TellsNode ids ids' B (.invocation e as t) (.invocation e' as' t') := by
  simp only [Node.sizes, fit_cons] at hfit hfit'
  intro s s' hs hs' r r' hbytes
  simp only [node, bind_apply, pure_apply, List.append_assoc, List.cons_append, List.nil_append,
    List.cons.injEq, true_and] at hbytes ⊢
  obtain ⟨hty, hbytes⟩ := delimits_ty hfit.2 hfit'.2 hbytes
  obtain ⟨htarget, hs, hs', hbytes⟩ := he hs hs' hbytes
  obtain ⟨hlength, hbytes⟩ := delimits_length hfit.1 hfit'.1 hbytes
  obtain ⟨hargs, hs, hs', hrest⟩ := tells_exprs hlength has hs hs' hbytes
  subst hty
  exact ⟨.invocation htarget hargs, hs, hs', hrest⟩

theorem tells_memberInit {c c' : Construct Expr} {bs bs' : List (Binding Expr)}
    (hfit : Fit (Node.memberInit c bs).sizes) (hfit' : Fit (Node.memberInit c' bs').sizes)
    (hc : ∀ x ∈ c.args, ∀ y ∈ c'.args, TellsExpr ids ids' B x y)
    (hbs : ∀ x ∈ Binding.exprsOfAll bs, ∀ y ∈ Binding.exprsOfAll bs', TellsExpr ids ids' B x y) :
    TellsNode ids ids' B (.memberInit c bs) (.memberInit c' bs') := by
  simp only [Node.sizes, fit_cons, fit_append] at hfit hfit'
  intro s s' hs hs' r r' hbytes
  simp only [node, bind_apply, pure_apply, List.append_assoc, List.cons_append, List.nil_append,
    List.cons.injEq, true_and] at hbytes ⊢
  obtain ⟨hconstruct, hs, hs', hbytes⟩ := tells_construct hfit.1 hfit'.1 hc hs hs' hbytes
  obtain ⟨hlength, hbytes⟩ := delimits_length hfit.2.1 hfit'.2.1 hbytes
  obtain ⟨hbindings, hs, hs', hrest⟩ := tells_bindings hlength hfit.2.2 hfit'.2.2 hbs hs hs' hbytes
  exact ⟨.memberInit hconstruct hbindings, hs, hs', hrest⟩

theorem tells_listInit {c c' : Construct Expr} {es es' : List (ElementInit Expr)}
    (hfit : Fit (Node.listInit c es).sizes) (hfit' : Fit (Node.listInit c' es').sizes)
    (hc : ∀ x ∈ c.args, ∀ y ∈ c'.args, TellsExpr ids ids' B x y)
    (hes : ∀ x ∈ es.flatMap (·.args), ∀ y ∈ es'.flatMap (·.args), TellsExpr ids ids' B x y) :
    TellsNode ids ids' B (.listInit c es) (.listInit c' es') := by
  simp only [Node.sizes, fit_cons, fit_append] at hfit hfit'
  intro s s' hs hs' r r' hbytes
  simp only [node, bind_apply, pure_apply, List.append_assoc, List.cons_append, List.nil_append,
    List.cons.injEq, true_and] at hbytes ⊢
  obtain ⟨hconstruct, hs, hs', hbytes⟩ := tells_construct hfit.1 hfit'.1 hc hs hs' hbytes
  obtain ⟨hlength, hbytes⟩ := delimits_length hfit.2.1 hfit'.2.1 hbytes
  obtain ⟨helements, hs, hs', hrest⟩ := tells_elements hlength hfit.2.2 hfit'.2.2 hes hs hs' hbytes
  exact ⟨.listInit hconstruct helements, hs, hs', hrest⟩

theorem tells_extension {kind kind' : String} {t t' : Ty} (hfit : Fit (Node.extension kind t).sizes)
    (hfit' : Fit (Node.extension kind' t').sizes) :
    TellsNode ids ids' B (.extension kind t) (.extension kind' t') := by
  simp only [Node.sizes, fit_cons] at hfit hfit'
  intro s s' hs hs' r r' hbytes
  simp only [node, pure_apply, List.append_assoc, List.cons_append, List.nil_append, List.cons.injEq,
    true_and] at hbytes ⊢
  obtain ⟨hkind, hbytes⟩ := delimits_string hfit.1 hfit'.1 hbytes
  obtain ⟨hty, hrest⟩ := delimits_ty hfit.2 hfit'.2 hbytes
  subst hkind hty
  exact ⟨.extension, hs, hs', hrest⟩

/-- The bytes of two nodes are equal only if the nodes agree, where the same holds of the expressions in
them and of the trees that they carry. -/
theorem tells_node {n n' : Node} (hids : ids.length < 2 ^ 32) (hids' : ids'.length < 2 ^ 32)
    (hleft : B.left.length < 2 ^ 32) (hright : B.right.length < 2 ^ 32) (hfit : Fit n.sizes)
    (hfit' : Fit n'.sizes) (hclosures : ∀ c ∈ n.closures, c.id ∈ ids)
    (hclosures' : ∀ c ∈ n'.closures, c.id ∈ ids')
    (hcarried : ∀ x ∈ n.payload, ∀ y ∈ n'.payload, TellsExpr ids ids' {} x y)
    (hchild : ∀ x ∈ n.children, ∀ y ∈ n'.children,
      TellsExpr ids ids' (B.under n.params n'.params) x y) : TellsNode ids ids' B n n' := by
  refine TellsNode.of_kind fun hkind => ?_
  -- only a lambda has parameters, so in all other cases the expressions are under the same binders
  cases n with
  | unary op e t m =>
    cases n' with
    | unary op' e' t' m' =>
      exact tells_unary hfit hfit' (hchild e List.mem_cons_self e' List.mem_cons_self)
    | _ => cases hkind
  | binary op x y c lifted m t =>
    cases n' with
    | binary op' x' y' c' lifted' m' t' =>
      simp only [Node.children, List.forall_mem_cons] at hchild
      exact tells_binary hfit hfit' hchild.1.1 hchild.2.1.2.1 fun z hz z' hz' =>
        (hchild.2.2 z hz).2.2 z' hz'
    | _ => cases hkind
  | typeIs e t =>
    cases n' with
    | typeIs e' t' => exact tells_typeIs hfit hfit' (hchild e List.mem_cons_self e' List.mem_cons_self)
    | _ => cases hkind
  | conditional x y z t =>
    cases n' with
    | conditional x' y' z' t' =>
      simp only [Node.children, List.forall_mem_cons] at hchild
      exact tells_conditional hfit hfit' hchild.1.1 hchild.2.1.2.1 hchild.2.2.1.2.2.1
    | _ => cases hkind
  | constant v t =>
    cases n' with
    | constant v' t' => exact tells_constant hids hids' hfit hfit' hclosures hclosures' hcarried
    | _ => cases hkind
  | «variable» v =>
    cases n' with
    | «variable» w => exact tells_variable hleft hright hfit hfit'
    | _ => cases hkind
  | memberAccess o m =>
    cases n' with
    | memberAccess o' m' => exact tells_memberAccess hfit hfit' hchild
    | _ => cases hkind
  | call o m as =>
    cases n' with
    | call o' m' as' =>
      exact tells_call hfit hfit'
        (fun x hx y hy => hchild x (List.mem_append_left _ hx) y (List.mem_append_left _ hy))
        fun x hx y hy => hchild x (List.mem_append_right _ hx) y (List.mem_append_right _ hy)
    | _ => cases hkind
  | lambda ps e t =>
    cases n' with
    | lambda qs e' t' => exact tells_lambda hfit hfit' (hchild e List.mem_cons_self e' List.mem_cons_self)
    | _ => cases hkind
  | construct c =>
    cases n' with
    | construct c' => exact tells_constructNode hfit hfit' hchild
    | _ => cases hkind
  | newArray k t es =>
    cases n' with
    | newArray k' t' es' => exact tells_newArray hfit hfit' hchild
    | _ => cases hkind
  | invocation e as t =>
    cases n' with
    | invocation e' as' t' =>
      exact tells_invocation hfit hfit' (hchild e List.mem_cons_self e' List.mem_cons_self)
        fun x hx y hy => hchild x (List.mem_cons_of_mem _ hx) y (List.mem_cons_of_mem _ hy)
    | _ => cases hkind
  | memberInit c bs =>
    cases n' with
    | memberInit c' bs' =>
      exact tells_memberInit hfit hfit'
        (fun x hx y hy => hchild x (List.mem_append_left _ hx) y (List.mem_append_left _ hy))
        fun x hx y hy => hchild x (List.mem_append_right _ hx) y (List.mem_append_right _ hy)
    | _ => cases hkind
  | listInit c es =>
    cases n' with
    | listInit c' es' =>
      exact tells_listInit hfit hfit'
        (fun x hx y hy => hchild x (List.mem_append_left _ hx) y (List.mem_append_left _ hy))
        fun x hx y hy => hchild x (List.mem_append_right _ hx) y (List.mem_append_right _ hy)
    | _ => cases hkind
  | extension kind t =>
    cases n' with
    | extension kind' t' => exact tells_extension hfit hfit'
    | _ => cases hkind

end Nodes

theorem tells_expr {ids ids' : List Nat} (hids : ids.length < 2 ^ 32) (hids' : ids'.length < 2 ^ 32)
    (a b : Expr) (B : Sides Variable) (ha : a.Everywhere (Writable ids))
    (hb : b.Everywhere (Writable ids')) (hleft : B.left.length + a.binderDepth < 2 ^ 32)
    (hright : B.right.length + b.binderDepth < 2 ^ 32) : TellsExpr ids ids' B a b := by
  induction a using Expr.partInduction generalizing b B with | step a ih => ?_
  have hchild : ∀ x ∈ a.children, ∀ y ∈ b.children,
      TellsExpr ids ids' (B.under a.node.params b.node.params) x y := by
    intro x hx y hy
    have hdepth := Expr.binderDepth_child hx
    have hdepth' := Expr.binderDepth_child hy
    refine ih x (Expr.mem_parts_of_mem_children hx) y _ (ha.child hx) (hb.child hy) ?_ ?_
    · rw [Sides.under, List.length_append, List.length_reverse]
      omega
    · rw [Sides.under, List.length_append, List.length_reverse]
      omega
  have hcarried : ∀ x ∈ a.node.payload, ∀ y ∈ b.node.payload, TellsExpr ids ids' {} x y := by
    intro x hx y hy
    have hpart : x ∈ a.parts := List.mem_append_right _ hx
    have hpart' : y ∈ b.parts := List.mem_append_right _ hy
    have hdepth := (ha.part hpart).here.binders
    have hdepth' := (hb.part hpart').here.binders
    exact ih x hpart y {} (ha.part hpart) (hb.part hpart') (by simpa using hdepth)
      (by simpa using hdepth')
  have hnode : TellsNode ids ids' B a.node b.node :=
    tells_node hids hids' (Nat.lt_of_le_of_lt (Nat.le_add_right _ _) hleft)
      (Nat.lt_of_le_of_lt (Nat.le_add_right _ _) hright) ha.here.sizes hb.here.sizes ha.here.closures
      hb.here.closures hcarried hchild
  obtain ⟨l, n⟩ := a
  obtain ⟨l', n'⟩ := b
  intro s s' hs hs' r r' hbytes
  simp only [expr, Expr.node_mk] at hbytes hnode ⊢
  obtain ⟨hagree, hs, hs', hrest⟩ := hnode hs hs' hbytes
  exact ⟨.mk hagree, hs, hs', hrest⟩

end Encoding

/-- The bytes determine the tree: trees within the limits of the format that have the same bytes
agree. -/
theorem agrees_of_normalize_eq (a b : Expr) (ha : a.Encodable) (hb : b.Encodable)
    (h : a.normalize = b.normalize) : ∃ M, a.Agrees {} {} b M := by
  have hwritable : ∀ {e : Expr}, e.Encodable → e.Everywhere (Encoding.Writable e.closureIds) :=
    fun he a ha => ⟨he.sizes a ha, he.binders a ha, fun c hc => Expr.mem_closureIds ha hc⟩
  have htells : Encoding.TellsExpr a.closureIds b.closureIds {} a b :=
    Encoding.tells_expr ha.closures hb.closures a b {} (hwritable ha) (hwritable hb)
      (by simpa using ha.binders a (.here a)) (by simpa using hb.binders b (.here b))
  have hbytes : (Encoding.expr a [] []).1 ++ [] = (Encoding.expr b [] []).1 ++ [] :=
    congrArg (· ++ []) (List.cons.inj h).2
  exact ⟨_, (htells ⟨List.nodup_nil, by simp⟩ ⟨List.nodup_nil, by simp⟩ hbytes).1⟩

/-- Two closures, the first one in a field of the second, both met again later. -/
def sharedClosures (outer inner carried : String) : String :=
  "closure F \x7b n = 1 \x7d closure E \x7b q = F, p = (tree (lambda ((" ++ carried ++ " Int)) " ++
    carried ++ ")) \x7d (lambda ((" ++ outer ++ " Int)) (lambda ((" ++ inner ++ " Int)) (call static C::f (" ++
    inner ++ " E " ++ outer ++ " F E) Int)))"

/-- Other names for the parameters give trees with the same bytes, which agree. -/
theorem agrees_on_sharedClosures :
    ∃ (a b : Expr) (supply supply' : Supply),
      parseTree (sharedClosures "x" "y" "z") {} = .ok (a, supply) ∧
      parseTree (sharedClosures "y" "x" "y") {} = .ok (b, supply') ∧
      a.Encodable ∧ b.Encodable ∧ a.normalize = b.normalize ∧ ∃ M, a.Agrees {} {} b M := by
  have hcheck : accepts (sharedClosures "x" "y" "z") (fun a => accepts (sharedClosures "y" "x" "y")
      fun b => decide (a.Encodable ∧ b.Encodable ∧ a.normalize = b.normalize)) = true := by
    decide +kernel
  obtain ⟨a, supply, hparse, hcheck⟩ := exists_tree_of_accepts hcheck
  obtain ⟨b, supply', hparse', hcheck⟩ := exists_tree_of_accepts hcheck
  obtain ⟨ha, hb, hbytes⟩ := of_decide_eq_true hcheck
  exact ⟨a, b, supply, supply', hparse, hparse', ha, hb, hbytes,
    agrees_of_normalize_eq a b ha hb hbytes⟩

end ExprTree
