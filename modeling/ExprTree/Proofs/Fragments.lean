import Mathlib.Data.List.Forall2
import ExprTree.Proofs.Traversal

/-!
# Parts of a node that are shared as a whole

Constructor calls, member bindings and element initializers stand between a node and the expressions in it,
and a walk shares them just as it shares expressions. They have no label: whether one is kept is seen from
the walk that copies it (`Fragment.copy`), and from their values only whether something in it has changed,
the identities of its expressions included (`Fragment.Alike`).
-/

namespace ExprTree

/-- A part of a node that holds expressions and is shared or made again as a whole. -/
inductive Fragment where
  | construct (call : Construct Expr)
  | binding (binding : Binding Expr)
  | element (element : ElementInit Expr)

/-- The expressions in a fragment. -/
def Fragment.exprs : Fragment → List Expr
  | .construct c => c.args
  | .binding b => b.exprs
  | .element i => i.args

mutual

/-- A binding and the bindings and element initializers inside it. -/
def Binding.fragments : Binding Expr → List Fragment
  | .assign m e => [.binding (.assign m e)]
  | .nested m bs => .binding (.nested m bs) :: Binding.fragmentsOfAll bs
  | .elements m es => .binding (.elements m es) :: es.map .element

/-- The fragments of bindings. -/
def Binding.fragmentsOfAll : List (Binding Expr) → List Fragment
  | [] => []
  | b :: bs => b.fragments ++ Binding.fragmentsOfAll bs

end

/-- The constructor calls, bindings and element initializers of a node. -/
def Node.fragments : Node → List Fragment
  | .construct c => [.construct c]
  | .memberInit c bs => .construct c :: Binding.fragmentsOfAll bs
  | .listInit c es => .construct c :: es.map .element
  | _ => []

/-! ## Fragments and children -/

mutual

/-- The fragments of a binding hold expressions of the binding. -/
theorem Binding.mem_exprs_of_fragments : ∀ {b : Binding Expr} {f : Fragment} {x : Expr},
    f ∈ b.fragments → x ∈ f.exprs → x ∈ b.exprs
  | .assign _ _, _, _, hf, hx => by
    obtain rfl := List.mem_singleton.1 hf
    exact hx
  | .nested _ _, _, _, hf, hx => by
    rcases List.mem_cons.1 hf with rfl | hf
    · exact hx
    · exact Binding.mem_exprsOfAll_of_fragments hf hx
  | .elements _ _, _, _, hf, hx => by
    rcases List.mem_cons.1 hf with rfl | hf
    · exact hx
    · obtain ⟨i, hi, rfl⟩ := List.mem_map.1 hf
      exact List.mem_flatMap.2 ⟨i, hi, hx⟩

theorem Binding.mem_exprsOfAll_of_fragments : ∀ {bs : List (Binding Expr)} {f : Fragment} {x : Expr},
    f ∈ fragmentsOfAll bs → x ∈ f.exprs → x ∈ exprsOfAll bs
  | _ :: _, _, _, hf, hx => by
    rcases List.mem_append.1 hf with hf | hf
    · exact List.mem_append_left _ (Binding.mem_exprs_of_fragments hf hx)
    · exact List.mem_append_right _ (Binding.mem_exprsOfAll_of_fragments hf hx)

end

/-- The fragments of a node hold children of the node. -/
theorem Node.mem_children_of_fragments {n : Node} {f : Fragment} {x : Expr} (hf : f ∈ n.fragments)
    (hx : x ∈ f.exprs) : x ∈ n.children := by
  cases n with
  | construct c =>
    obtain rfl := List.mem_singleton.1 hf
    exact hx
  | memberInit c bs =>
    rcases List.mem_cons.1 hf with rfl | hf
    · exact List.mem_append_left _ hx
    · exact List.mem_append_right _ (Binding.mem_exprsOfAll_of_fragments hf hx)
  | listInit c es =>
    rcases List.mem_cons.1 hf with rfl | hf
    · exact List.mem_append_left _ hx
    · obtain ⟨i, hi, rfl⟩ := List.mem_map.1 hf
      exact List.mem_append_right _ (List.mem_flatMap.2 ⟨i, hi, hx⟩)
  | _ => cases hf

/-! ## Fragments that differ in their expressions only -/

/-- The expressions of two fragments are related one by one, and the fragments differ in nothing else. -/
structure Fragment.Alike (R : Expr → Expr → Prop) (f f' : Fragment) : Prop where
  exprs : List.Forall₂ R f.exprs f'.exprs
  same : f'.exprs = f.exprs → f' = f

section Alike

variable {R : Expr → Expr → Prop}

theorem forall₂_append_split {α β : Type} {R : α → β → Prop} {as bs : List α} {as' bs' : List β}
    (h : List.Forall₂ R (as ++ bs) (as' ++ bs')) (hlength : as.length = as'.length) :
    List.Forall₂ R as as' ∧ List.Forall₂ R bs bs' := by
  induction as generalizing as' with
  | nil =>
    obtain rfl := List.eq_nil_of_length_eq_zero hlength.symm
    exact ⟨.nil, h⟩
  | cons a as ih =>
    cases as' with
    | nil => cases hlength
    | cons a' as' =>
      cases h with
      | cons ha h =>
        obtain ⟨has, hbs⟩ := ih h (Nat.succ.inj hlength)
        exact ⟨.cons ha has, hbs⟩

theorem Construct.fragment_alike {c c' : Construct Expr} (hblank : c'.blank = c.blank)
    (h : List.Forall₂ R c.args c'.args) : Fragment.Alike R (.construct c) (.construct c') :=
  ⟨h, fun hargs => congrArg Fragment.construct (Construct.eq_of_blank hblank hargs)⟩

theorem ElementInit.fragments_alike : ∀ {es es' : List (ElementInit Expr)}, blankAll es' = blankAll es →
    List.Forall₂ R (es.flatMap (·.args)) (es'.flatMap (·.args)) →
    List.Forall₂ (Fragment.Alike R) (es.map .element) (es'.map .element)
  | [], [], _, _ => .nil
  | ⟨m, as⟩ :: es, ⟨m', as'⟩ :: es', hblank, h => by
    obtain ⟨hhead, htail⟩ := List.cons.inj hblank
    obtain ⟨hm, has⟩ := ElementInit.mk.inj hhead
    have hm : m' = m := hm
    simp only [List.flatMap_cons] at h
    obtain ⟨hargs, hrest⟩ := forall₂_append_split h (length_of_visitList_blank has).symm
    refine .cons ⟨hargs, fun hsame => ?_⟩ (fragments_alike htail hrest)
    have hsame : as' = as := hsame
    rw [hm, hsame]

mutual

theorem Binding.fragments_alike : ∀ {b b' : Binding Expr}, b'.blank = b.blank →
    List.Forall₂ R b.exprs b'.exprs → List.Forall₂ (Fragment.Alike R) b.fragments b'.fragments
  | .assign m e, .assign m' e', hblank, h =>
    .cons ⟨h, fun hsame => congrArg Fragment.binding (Binding.eq_of_blank hblank hsame)⟩ .nil
  | .nested m bs, .nested m' bs', hblank, h => by
    have hsame : (Binding.nested m' bs').exprs = (Binding.nested m bs).exprs →
        Fragment.binding (.nested m' bs') = .binding (.nested m bs) :=
      fun hsame => congrArg Fragment.binding (Binding.eq_of_blank hblank hsame)
    simp only [Binding.fragments]
    refine .cons ⟨h, hsame⟩ (fragmentsOfAll_alike (Binding.nested.inj hblank).2 ?_)
    simpa only [Binding.exprs] using h
  | .elements m es, .elements m' es', hblank, h => by
    have hsame : (Binding.elements m' es').exprs = (Binding.elements m es).exprs →
        Fragment.binding (.elements m' es') = .binding (.elements m es) :=
      fun hsame => congrArg Fragment.binding (Binding.eq_of_blank hblank hsame)
    simp only [Binding.fragments]
    refine .cons ⟨h, hsame⟩ (ElementInit.fragments_alike (Binding.elements.inj hblank).2 ?_)
    simpa only [Binding.exprs] using h

theorem Binding.fragmentsOfAll_alike : ∀ {bs bs' : List (Binding Expr)}, blankAll bs' = blankAll bs →
    List.Forall₂ R (exprsOfAll bs) (exprsOfAll bs') →
    List.Forall₂ (Fragment.Alike R) (fragmentsOfAll bs) (fragmentsOfAll bs')
  | [], [], _, _ => .nil
  | b :: bs, b' :: bs', hblank, h => by
    obtain ⟨hhead, htail⟩ := List.cons.inj hblank
    simp only [Binding.exprsOfAll] at h
    obtain ⟨hb, hbs⟩ := forall₂_append_split h (length_exprs_of_blank hhead).symm
    exact List.rel_append (fragments_alike hhead hb) (fragmentsOfAll_alike htail hbs)

end

/-- If only the children of a node are replaced, its fragments change in their expressions only. -/
theorem Node.fragments_alike {n n' : Node} (hshape : n'.shape = n.shape)
    (h : List.Forall₂ R n.children n'.children) :
    List.Forall₂ (Fragment.Alike R) n.fragments n'.fragments := by
  cases n <;> cases n' <;> first | (cases hshape; done) | skip
  case construct.construct =>
    exact .cons (Construct.fragment_alike (Node.construct.inj hshape) h) .nil
  case memberInit.memberInit =>
    obtain ⟨hc, hbs⟩ := Node.memberInit.inj hshape
    obtain ⟨hargs, hexprs⟩ := forall₂_append_split h (Construct.length_args_of_blank hc).symm
    exact .cons (Construct.fragment_alike hc hargs) (Binding.fragmentsOfAll_alike hbs hexprs)
  case listInit.listInit =>
    obtain ⟨hc, hes⟩ := Node.listInit.inj hshape
    obtain ⟨hargs, hexprs⟩ := forall₂_append_split h (Construct.length_args_of_blank hc).symm
    exact .cons (Construct.fragment_alike hc hargs) (ElementInit.fragments_alike hes hexprs)
  all_goals exact .nil

end Alike

end ExprTree
