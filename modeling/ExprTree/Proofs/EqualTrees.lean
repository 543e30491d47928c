import Mathlib.Data.List.Forall2
import ExprTree.Tree.Equality
import ExprTree.Proofs.RecastNodes

/-!
# The bytes of equal trees

Trees compare equal if their nodes do at every place, and the comparison of two nodes comes down to
their shapes, their children and, for constants, their payloads (`Node.equal_cases`). The bytes that
a tree is fingerprinted by are written from the same data, with one difference: the comparison takes
the two zeros for equal and the bytes tell them apart. So equal trees have equal bytes wherever a
zero stands against a zero of the same sign (`normalize_eq_of_equal`), and not otherwise
(`normalize_ne_on_opposite_zeros`).
-/

namespace ExprTree

/-! ## What the comparison decides -/

/-- Expressions that compare equal pair by pair. -/
abbrev Expr.EqualEach (as bs : List Expr) : Prop := List.Forall₂ (fun a b => a.equal b = true) as bs

theorem Expr.equalEach_of_equalList {as bs : List Expr} (h : Expr.equalList as bs = true) :
    EqualEach as bs := by
  induction as generalizing bs with
  | nil =>
    cases bs with
    | nil => exact .nil
    | cons => simp [Expr.equalList] at h
  | cons a as ih =>
    cases bs with
    | nil => simp [Expr.equalList] at h
    | cons b bs =>
      rw [Expr.equalList, Bool.and_eq_true] at h
      exact .cons h.1 (ih h.2)

theorem Expr.equalEach_of_equalOption {o o' : Option Expr} (h : Expr.equalOption o o' = true) :
    (visitOption o fun _ _ => pure default : Id (Option Expr)) =
      visitOption o' (fun _ _ => pure default) ∧ EqualEach o.toList o'.toList := by
  cases o <;> cases o' <;> simp only [Expr.equalOption, reduceCtorEq] at h
  · exact ⟨rfl, .nil⟩
  · exact ⟨rfl, .cons h .nil⟩

theorem Construct.equalEach_of_equal {c c' : Construct Expr} (h : Expr.equalConstruct c c' = true) :
    c.blank = c'.blank ∧ Expr.EqualEach c.args c'.args := by
  obtain ⟨t, as, ms⟩ := c
  obtain ⟨t', as', ms'⟩ := c'
  simp only [Expr.equalConstruct, Bool.and_eq_true, beq_iff_eq] at h
  obtain ⟨⟨rfl, has⟩, rfl⟩ := h
  have hargs := Expr.equalEach_of_equalList has
  exact ⟨congrArg (Construct.mk t · ms) (visitList_blank_congr hargs.length_eq), hargs⟩

theorem ElementInit.equalEach_of_equal {es es' : List (ElementInit Expr)}
    (h : Expr.equalElements es es' = true) :
    blankAll es = blankAll es' ∧ Expr.EqualEach (es.flatMap (·.args)) (es'.flatMap (·.args)) := by
  induction es generalizing es' with
  | nil =>
    cases es' with
    | nil => exact ⟨rfl, .nil⟩
    | cons => simp [Expr.equalElements] at h
  | cons e es ih =>
    cases es' with
    | nil => simp [Expr.equalElements] at h
    | cons e' es' =>
      obtain ⟨m, as⟩ := e
      obtain ⟨m', as'⟩ := e'
      simp only [Expr.equalElements, Bool.and_eq_true, beq_iff_eq] at h
      obtain ⟨⟨rfl, has⟩, hes⟩ := h
      have hargs := Expr.equalEach_of_equalList has
      obtain ⟨hblank, hrest⟩ := ih hes
      exact ⟨congrArg₂ (fun as es => ElementInit.mk m as :: es) (visitList_blank_congr hargs.length_eq) hblank,
        List.rel_append hargs hrest⟩

mutual

theorem Binding.equalEach_of_equal : ∀ {b b' : Binding Expr}, Expr.equalBinding b b' = true →
    b.blank = b'.blank ∧ Expr.EqualEach b.exprs b'.exprs
  | .assign m e, .assign m' e', h => by
    simp only [Expr.equalBinding, Bool.and_eq_true, beq_iff_eq] at h
    obtain ⟨rfl, he⟩ := h
    exact ⟨rfl, .cons he .nil⟩
  | .nested m bs, .nested m' bs', h => by
    simp only [Expr.equalBinding, Bool.and_eq_true, beq_iff_eq] at h
    obtain ⟨rfl, hbs⟩ := h
    obtain ⟨hblank, hexprs⟩ := equalEach_of_equalAll hbs
    exact ⟨congrArg (Binding.nested m) hblank, by rwa [Binding.exprs, Binding.exprs]⟩
  | .elements m es, .elements m' es', h => by
    simp only [Expr.equalBinding, Bool.and_eq_true, beq_iff_eq] at h
    obtain ⟨rfl, hes⟩ := h
    obtain ⟨hblank, hexprs⟩ := ElementInit.equalEach_of_equal hes
    exact ⟨congrArg (Binding.elements m) hblank, by rwa [Binding.exprs, Binding.exprs]⟩
  | .assign .., .nested .., h | .assign .., .elements .., h | .nested .., .assign .., h
  | .nested .., .elements .., h | .elements .., .assign .., h | .elements .., .nested .., h => by
    simp [Expr.equalBinding] at h

theorem Binding.equalEach_of_equalAll : ∀ {bs bs' : List (Binding Expr)},
    Expr.equalBindings bs bs' = true →
    blankAll bs = blankAll bs' ∧ Expr.EqualEach (exprsOfAll bs) (exprsOfAll bs')
  | [], [], _ => ⟨rfl, .nil⟩
  | b :: bs, b' :: bs', h => by
    rw [Expr.equalBindings, Bool.and_eq_true] at h
    obtain ⟨hblank, hexprs⟩ := equalEach_of_equal h.1
    obtain ⟨hblanks, hrest⟩ := equalEach_of_equalAll h.2
    rw [exprsOfAll, exprsOfAll]
    exact ⟨congrArg₂ List.cons hblank hblanks, List.rel_append hexprs hrest⟩
  | [], _ :: _, h | _ :: _, [], h => by simp [Expr.equalBindings] at h

end

/-- Nodes compare equal if they have one shape and equal children, or are constants of one type with
equal payloads. -/
theorem Node.equal_cases {n n' : Node} (h : n.equal n' = true) :
    n.kind ≠ .constant ∧ n.shape = n'.shape ∧ Expr.EqualEach n.children n'.children ∨
    ∃ v v' t, n = .constant v t ∧ n' = .constant v' t ∧ v.equal v' = true := by
  unfold Node.equal at h
  split at h
  case h_16 => cases h
  all_goals try simp only [Bool.and_eq_true, beq_iff_eq] at h
  case h_5 v t v' t' =>
    obtain ⟨hv, rfl⟩ := h
    exact .inr ⟨v, v', t, rfl, rfl, hv⟩
  all_goals refine .inl ⟨by simp [kind], ?_⟩
  · obtain ⟨⟨⟨rfl, he⟩, rfl⟩, rfl⟩ := h
    exact ⟨rfl, .cons he .nil⟩
  · obtain ⟨⟨⟨⟨⟨⟨rfl, hl⟩, hr⟩, hc⟩, rfl⟩, rfl⟩, rfl⟩ := h
    obtain ⟨hblank, hconversion⟩ := Expr.equalEach_of_equalOption hc
    exact ⟨congrArg (Node.binary _ default default · _ _ _) hblank, .cons hl (.cons hr hconversion)⟩
  · obtain ⟨he, rfl⟩ := h
    exact ⟨rfl, .cons he .nil⟩
  · obtain ⟨⟨⟨ha, hb⟩, hc⟩, rfl⟩ := h
    exact ⟨rfl, .cons ha (.cons hb (.cons hc .nil))⟩
  · rw [h]
    exact ⟨rfl, .nil⟩
  · obtain ⟨ho, rfl⟩ := h
    obtain ⟨hblank, hobject⟩ := Expr.equalEach_of_equalOption ho
    exact ⟨congrArg (Node.memberAccess · _) hblank, hobject⟩
  · obtain ⟨⟨ho, rfl⟩, has⟩ := h
    obtain ⟨hblank, hobject⟩ := Expr.equalEach_of_equalOption ho
    have hargs := Expr.equalEach_of_equalList has
    exact ⟨congrArg₂ (Node.call · _ ·) hblank (visitList_blank_congr hargs.length_eq),
      List.rel_append hobject hargs⟩
  · obtain ⟨⟨rfl, hb⟩, rfl⟩ := h
    exact ⟨rfl, .cons hb .nil⟩
  · obtain ⟨hblank, hargs⟩ := Construct.equalEach_of_equal h
    exact ⟨congrArg Node.construct hblank, hargs⟩
  · obtain ⟨⟨rfl, rfl⟩, hes⟩ := h
    have hitems := Expr.equalEach_of_equalList hes
    exact ⟨congrArg (Node.newArray _ _) (visitList_blank_congr hitems.length_eq), hitems⟩
  · obtain ⟨⟨he, has⟩, rfl⟩ := h
    have hargs := Expr.equalEach_of_equalList has
    exact ⟨congrArg (Node.invocation default · _) (visitList_blank_congr hargs.length_eq),
      .cons he hargs⟩
  · obtain ⟨hblank, hargs⟩ := Construct.equalEach_of_equal h.1
    obtain ⟨hblanks, hexprs⟩ := Binding.equalEach_of_equalAll h.2
    exact ⟨congrArg₂ Node.memberInit hblank hblanks, List.rel_append hargs hexprs⟩
  · obtain ⟨hblank, hargs⟩ := Construct.equalEach_of_equal h.1
    obtain ⟨hblanks, hexprs⟩ := ElementInit.equalEach_of_equal h.2
    exact ⟨congrArg₂ Node.listInit hblank hblanks, List.rel_append hargs hexprs⟩
  · obtain ⟨rfl, rfl⟩ := h
    exact ⟨rfl, .nil⟩

/-! ## Places, identities and zeros -/

/-- Zeros at the same place of two lists have the same sign. -/
def SameZeros (xs ys : List Binary64) : Prop :=
  ∀ p ∈ xs.zip ys, p.1.magnitude = 0 → p.2.magnitude = 0 → p.1 = p.2

theorem Binary64.eq_of_numEq {x y : Binary64} (h : x.numEq y = true) (hzeros : SameZeros [x] [y]) :
    x = y := by
  simp only [numEq, Bool.and_eq_true, Bool.or_eq_true, beq_iff_eq] at h
  rcases h.2 with heq | ⟨hx, hy⟩
  · exact heq
  · exact hzeros (x, y) (List.mem_singleton_self _) hx hy

/-- The float that a constant is. -/
def Node.floatHere : Node → List Binary64
  | .constant (.float x) _ => [x]
  | _ => []

namespace Expr

/-- The float constants of a tree, those of quoted trees included, in the order of their places. -/
def floats : Expr → List Binary64 := gather Node.floatHere

/-- Two trees of one memory: a label stands for one expression, and an identity for one closure. -/
structure SameMemory (a b : Expr) : Prop where
  trees : ∀ t u : Expr, t.Inside a → u.Inside b → t.label = u.label → t = u
  closures : ∀ c ∈ a.references, ∀ d ∈ b.references, c.id = d.id → c = d

variable {a b c d : Expr}

theorem SameMemory.inner (h : SameMemory a b) (hc : c ∈ a.inner) (hd : d ∈ b.inner) :
    SameMemory c d where
  trees t u ht hu := h.trees t u (.inner hc ht) (.inner hd hu)
  closures k hk l hl := h.closures k (mem_gather_of_inner hc hk) l (mem_gather_of_inner hd hl)

theorem inner_of_kind (h : a.node.kind ≠ .constant) : a.inner = a.node.children := by
  obtain ⟨l, n⟩ := a
  cases n with
  | constant => exact absurd rfl h
  | _ => exact List.append_nil _

theorem floats_constant (l : Nat) (v : Value) (t : Ty) : (Expr.mk l (.constant v t)).floats =
    (Node.constant v t).floatHere ++ (Node.constant v t).quoted.flatMap floats := by
  rw [floats, gather_eq]
  rfl

theorem floats_of_kind (h : a.node.kind ≠ .constant) :
    a.floats = a.node.children.flatMap floats := by
  have hhere : a.node.floatHere = [] := by
    cases hnode : a.node with
    | constant => exact absurd (by rw [hnode]; rfl) h
    | _ => rfl
  rw [floats, gather_eq, hhere, inner_of_kind h]
  rfl

end Expr

/-! ## The bytes -/

namespace Expr

/-- The trees have floats at the same places, and if zeros agree there, only their labels differ. -/
def Coincide (a b : Expr) : Prop :=
  a.floats.length = b.floats.length ∧ (SameZeros a.floats b.floats → a.recast {} = b.recast {})

theorem Coincide.each {cs ds : List Expr} (h : List.Forall₂ Coincide cs ds) :
    (cs.flatMap floats).length = (ds.flatMap floats).length ∧
    (SameZeros (cs.flatMap floats) (ds.flatMap floats) →
      cs.map (·.recast {}) = ds.map (·.recast {})) := by
  induction h with
  | nil => exact ⟨rfl, fun _ => rfl⟩
  | cons hcd _ ih =>
    -- the floats of the first trees have one length, so the places of the others are not shifted
    simp only [List.flatMap_cons, List.map_cons, List.length_append, SameZeros, List.zip_append hcd.1,
      List.forall_mem_append]
    exact ⟨congrArg₂ Nat.add hcd.1 ih.1, fun hzeros =>
      congrArg₂ List.cons (hcd.2 hzeros.1) (ih.2 hzeros.2)⟩

/-- Nodes of one shape whose children coincide. -/
theorem coincide_of_children {l l' : Nat} {n n' : Node} (hkind : n.kind ≠ .constant)
    (hshape : n.shape = n'.shape) (h : List.Forall₂ Coincide n.children n'.children) :
    Coincide (.mk l n) (.mk l' n') := by
  have hkind' : n'.kind ≠ .constant := Node.kind_eq_of_shape hshape ▸ hkind
  obtain ⟨hlength, hrecast⟩ := Coincide.each h
  rw [Coincide, floats_of_kind (a := .mk l n) hkind, floats_of_kind (a := .mk l' n') hkind']
  refine ⟨hlength, fun hzeros => ?_⟩
  have hshapes := Node.shape_recast_congr (r := {}) rfl hshape
  refine congrArg (Expr.mk 0) (Node.eq_of_shape hshapes (Node.visitOrder_congr hshapes ?_))
  rw [Node.children_recast, Node.children_recast]
  exact hrecast hzeros

/-- Constants of one type with equal payloads. -/
theorem coincide_of_constants {l l' : Nat} {v v' : Value} {t : Ty} (hequal : v.equal v' = true)
    (hsame : SameMemory (.mk l (.constant v t)) (.mk l' (.constant v' t)))
    (htree : ∀ u u', v = .tree u → v' = .tree u' → u.equal u' = true → Coincide u u') :
    Coincide (.mk l (.constant v t)) (.mk l' (.constant v' t)) := by
  have hself : ∀ v : Value, Coincide (.mk l (.constant v t)) (.mk l' (.constant v t)) := fun v =>
    ⟨by rw [floats_constant, floats_constant], fun _ => rfl⟩
  unfold Value.equal at hequal
  split at hequal
  · exact hself .null
  · exact beq_iff_eq.1 hequal ▸ hself _
  · exact beq_iff_eq.1 hequal ▸ hself _
  · rw [Coincide, floats_constant, floats_constant]
    refine ⟨rfl, fun hzeros => ?_⟩
    rw [Binary64.eq_of_numEq hequal hzeros]
    rfl
  · exact beq_iff_eq.1 hequal ▸ hself _
  · next u u' =>
    rcases Bool.or_eq_true_iff.1 hequal with hlabel | hequal
    · have hin : ∀ (l : Nat) (u : Expr), u.Inside (.mk l (.constant (.tree u) t)) := fun _ u =>
        .inner (List.mem_append_right _ (List.mem_singleton_self u)) .here
      rw [hsame.trees u u' (hin l u) (hin l' u') (beq_iff_eq.1 hlabel)]
      exact hself _
    · obtain ⟨hlength, hrecast⟩ := htree u u' rfl rfl hequal
      rw [Coincide, floats_constant, floats_constant]
      simp only [Node.floatHere, Node.quoted, List.flatMap_cons, List.flatMap_nil, List.append_nil,
        List.nil_append]
      refine ⟨hlength, fun hzeros => ?_⟩
      simp only [Expr.recast, Node.recast, Value.recast, hrecast hzeros]
  · next c c' =>
    have hin : ∀ (l : Nat) (c : Closure Value), c ∈ (Expr.mk l (.constant (.closure c) t)).references :=
      fun _ c => mem_gather_here (List.mem_singleton_self c)
    rw [hsame.closures c (hin l c) c' (hin l' c') (beq_iff_eq.1 hequal)]
    exact hself _
  · cases hequal

/-- Equal trees of one memory coincide. -/
theorem coincide_of_equal {a b : Expr} (hequal : a.equal b = true) (hsame : SameMemory a b) :
    Coincide a b := by
  induction a using innerInduction generalizing b with
  | step a ih =>
    obtain ⟨l, n⟩ := a
    obtain ⟨l', n'⟩ := b
    rw [Expr.equal] at hequal
    rcases Node.equal_cases hequal with ⟨hkind, hshape, hchildren⟩ | ⟨v, v', t, rfl, rfl, hvalue⟩
    · refine coincide_of_children hkind hshape ?_
      obtain ⟨hlength, hzip⟩ := List.forall₂_iff_zip.1 hchildren
      refine List.forall₂_iff_zip.2 ⟨hlength, fun hcd => ?_⟩
      obtain ⟨hc, hd⟩ := List.of_mem_zip hcd
      have hc := List.mem_append_left n.quoted hc
      have hd := List.mem_append_left n'.quoted hd
      exact ih _ hc (hzip hcd) (hsame.inner hc hd)
    · refine coincide_of_constants hvalue hsame fun u u' hu hu' huu' => ?_
      subst hu hu'
      have hin : ∀ (l : Nat) (u : Expr), u ∈ (Expr.mk l (.constant (.tree u) t)).inner :=
        fun _ u => List.mem_append_right _ (List.mem_singleton_self u)
      exact ih u (hin l u) huu' (hsame.inner (hin l u) (hin l' u'))

end Expr

/-- Equal trees have the same bytes and under every hash the same digest, if no zero of the one stands where
the other has the zero of the other sign. -/
theorem normalize_eq_of_equal {a b : Expr} (hequal : a.equal b = true) (hsame : a.SameMemory b)
    (hzeros : SameZeros a.floats b.floats) :
    a.normalize = b.normalize ∧ ∀ hash, a.digest hash = b.digest hash := by
  have hrecast := (Expr.coincide_of_equal hequal hsame).2 hzeros
  have hbytes : a.normalize = b.normalize :=
    Expr.normalize_eq_of_recast hrecast ⟨fun _ _ _ _ h => h, fun _ _ => rfl, fun _ _ _ _ h => h⟩ rfl
      fun _ _ => rfl
  exact ⟨hbytes, Expr.digest_congr hbytes⟩

/-- A quoted NaN. -/
def quotedNaN : Expr := .mk 0 (.constant (.float (.quietNaN false)) .float)

/-- A zero beside a quoted NaN and a closure. -/
def besideShared (label : Nat) (zero : Binary64) : Expr :=
  .mk label (.newArray .elements .float [
    .mk (label + 1) (.constant (.float zero) .float),
    .mk (label + 2) (.constant (.tree quotedNaN) (.expr .float)),
    .mk (label + 3) (.constant (.closure ⟨0, "c", []⟩) (.named "c"))])

theorem inside_besideShared {label : Nat} {zero : Binary64} {t : Expr}
    (h : t.Inside (besideShared label zero)) :
    t = quotedNaN ∨ label ≤ t.label ∧ t.label ≤ label + 3 := by
  have hquoted : t.Inside quotedNaN → t = quotedNaN := by
    rintro (_ | ⟨hc, -⟩)
    · rfl
    · cases hc
  cases h with
  | here => exact .inr ⟨le_refl label, Nat.le_add_right label 3⟩
  | inner hc h =>
    simp only [besideShared, Expr.inner, Expr.children, Expr.node_mk, Node.children, Node.quoted,
      List.append_nil, List.mem_cons, List.not_mem_nil, or_false] at hc
    rcases hc with rfl | rfl | rfl <;> rcases h with _ | ⟨hc, h⟩
    · exact .inr ⟨Nat.le_add_right label 1, Nat.add_le_add_left (by decide) label⟩
    · cases hc
    · exact .inr ⟨Nat.le_add_right label 2, Nat.add_le_add_left (by decide) label⟩
    · rw [List.mem_singleton.1 hc] at h
      exact .inl (hquoted h)
    · exact .inr ⟨Nat.le_add_right label 3, le_refl (label + 3)⟩
    · cases hc

/-- Trees with the same quoted tree and the same closure. -/
theorem sameMemory_besideShared (x y : Binary64) : (besideShared 1 x).SameMemory (besideShared 5 y) where
  trees t u ht hu hlabel := by
    rcases inside_besideShared ht with rfl | ht <;> rcases inside_besideShared hu with rfl | hu
    · rfl
    · simp only [quotedNaN, Expr.label_mk] at hlabel
      omega
    · simp only [quotedNaN, Expr.label_mk] at hlabel
      omega
    · omega
  closures c hc d hd _ := by
    have hone : ∀ {label z c}, c ∈ (besideShared label z).references → c = ⟨0, "c", []⟩ := by
      intro label z c hc
      simpa [besideShared, Expr.references, Expr.gather_eq, Expr.inner, Expr.children, Node.children,
        Node.quoted, Node.reference, quotedNaN] using hc
    rw [hone hc, hone hd]

theorem normalize_eq_on_shared :
    let a := besideShared 1 (.ofMagnitude true 0)
    let b := besideShared 5 (.ofMagnitude true 0)
    (a.equal b = true ∧ a.SameMemory b ∧ SameZeros a.floats b.floats) ∧
    a.normalize = b.normalize ∧ a.fingerprint = b.fingerprint := by
  have hequal : (besideShared 1 (.ofMagnitude true 0)).equal (besideShared 5 (.ofMagnitude true 0)) = true := by
    decide +kernel
  have hsame := sameMemory_besideShared (.ofMagnitude true 0) (.ofMagnitude true 0)
  have hzeros : SameZeros (besideShared 1 (.ofMagnitude true 0)).floats
      (besideShared 5 (.ofMagnitude true 0)).floats := by
    unfold SameZeros
    decide +kernel
  obtain ⟨hbytes, hdigests⟩ := normalize_eq_of_equal hequal hsame hzeros
  exact ⟨⟨hequal, hsame, hzeros⟩, hbytes, hdigests Blake3.hash⟩

/-- The two zeros compare equal, and have different bytes and different fingerprints. -/
theorem normalize_ne_on_opposite_zeros :
    let a := Expr.mk 0 (.constant (.float (.ofMagnitude false 0)) .float)
    let b := Expr.mk 1 (.constant (.float (.ofMagnitude true 0)) .float)
    a.equal b = true ∧ a.normalize ≠ b.normalize ∧ a.fingerprint ≠ b.fingerprint := by
  decide +kernel

end ExprTree
