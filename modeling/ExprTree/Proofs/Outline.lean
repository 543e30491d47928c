import ExprTree.Proofs.Agreement
import ExprTree.Proofs.Acceptance
import ExprTree.Proofs.RecastNodes

/-!
# What agreeing trees have in common

The rules of agreement go kind by kind. Here they are brought into one form: nodes that agree have
children that agree one after the other, under the binders that the node adds
(`Node.Agrees.children`); and if their children recast alike, so do the nodes
(`Node.Agrees.recast_eq`). The latter needs one thing that agreement does not give, the markers of
calls.

`Expr.outline` lists what agreement leaves out: at each place of a tree the marker of a call, and for
a variable the distance to its binder, also where a tree stands between them that is carried as data.
-/

namespace ExprTree

section Threaded

variable {ι σ α : Type} {R : σ → ι → α → α → σ → Prop} {s s₁ s₂ : σ} {i : ι} {xs ys xs' ys' : List α}

theorem Threaded.append (h : Threaded R s i xs ys s₁) (h' : Threaded R s₁ i xs' ys' s₂) :
    Threaded R s i (xs ++ xs') (ys ++ ys') s₂ := by
  induction h with
  | nil => exact h'
  | cons hx _ ih => exact .cons hx (ih h')

theorem Threaded.one {x y : α} (h : R s i x y s₁) : Threaded R s i [x] [y] s₁ := .cons h .nil

theorem Threaded.length_eq (h : Threaded R s i xs ys s₁) : xs.length = ys.length := by
  induction h with
  | nil => rfl
  | cons _ _ ih => exact congrArg (· + 1) ih

end Threaded

/-! ## Children -/

section Children

variable {M M' : Sides Nat} {B : Sides Variable}

theorem Expr.Agrees.node {x y : Expr} (h : x.Agrees M B y M') : x.node.Agrees M B y.node M' := by
  cases h with | mk h => exact h

theorem ElementInit.threaded_args {es es' : List (ElementInit Expr)}
    (h : Threaded ElementInit.Agrees M B es es' M') :
    Threaded Expr.Agrees M B (es.flatMap (·.args)) (es'.flatMap (·.args)) M' := by
  induction h with
  | nil => exact .nil
  | cons hi _ ih =>
    cases hi with | mk _ hargs => exact hargs.append ih

mutual

theorem Binding.threaded_exprs {M M' : Sides Nat} {B : Sides Variable} : ∀ {b b' : Binding Expr},
    b.Agrees M B b' M' → Threaded Expr.Agrees M B b.exprs b'.exprs M'
  | .assign .., _, .assign he => .one he
  | .nested .., _, .nested hbs => by
    rw [Binding.exprs, Binding.exprs]
    exact Binding.threaded_exprsOfAll hbs
  | .elements .., _, .elements hes => ElementInit.threaded_args hes

theorem Binding.threaded_exprsOfAll {M M' : Sides Nat} {B : Sides Variable} :
    ∀ {bs bs' : List (Binding Expr)}, Threaded Binding.Agrees M B bs bs' M' →
      Threaded Expr.Agrees M B (Binding.exprsOfAll bs) (Binding.exprsOfAll bs') M'
  | [], _, .nil => .nil
  | _ :: _, _, .cons hb hbs => (Binding.threaded_exprs hb).append (Binding.threaded_exprsOfAll hbs)

end

/-- The children of nodes that agree, one after the other. -/
theorem Node.Agrees.children {n n' : Node} (h : n.Agrees M B n' M') (hconstant : n.kind ≠ .constant) :
    Threaded Expr.Agrees M (B.under n.params n'.params) n.children n'.children M' := by
  cases h with
  | unary _ he => exact .one he
  | binary _ hx hy hc => exact .cons hx (.cons hy hc)
  | typeIs he => exact .one he
  | conditional ha hb hc => exact .cons ha (.cons hb (.one hc))
  | constant => exact absurd rfl hconstant
  | bound => exact .nil
  | free => exact .nil
  | memberAccess ho => exact ho
  | call _ ho has => exact ho.append has
  | lambda _ hb => exact .one hb
  | construct hc => cases hc with | mk has => exact has
  | newArray hes => exact hes
  | invocation he has => exact .cons he has
  | memberInit hc hbs => cases hc with | mk has => exact has.append (Binding.threaded_exprsOfAll hbs)
  | listInit hc hes => cases hc with | mk has => exact has.append (ElementInit.threaded_args hes)
  | extension => exact .nil

theorem Node.Agrees.kind_eq {n n' : Node} (h : n.Agrees M B n' M') : n.kind = n'.kind := by
  cases h <;> rfl

end Children

/-! ## Recasting nodes that agree -/

theorem Method.eq_of_plain {m m' : Method} (h : m.plain = m'.plain) (hmarker : m.marker = m'.marker) :
    m = m' := by
  obtain ⟨owner, name, isStatic, ret, marker⟩ := m
  obtain ⟨owner', name', isStatic', ret', marker'⟩ := m'
  cases hmarker
  simp only [plain, Method.mk.injEq, and_true] at h
  obtain ⟨rfl, rfl, rfl, rfl⟩ := h
  rfl

section Recast

variable {r : Recasting} {M M' : Sides Nat} {B : Sides Variable}

/-- Lists of the same length, each with something behind it. -/
theorem Expr.recastList_of_append {es es' l l' : List Expr} (hlength : es.length = es'.length)
    (h : es'.map (·.recast {}) ++ l' = es.map (·.recast r) ++ l) :
    Expr.recastList {} es' = Expr.recastList r es ∧ l' = l := by
  rw [Expr.recastList_eq_map, Expr.recastList_eq_map]
  exact List.append_inj h (by rw [List.length_map, List.length_map, hlength])

theorem Expr.recastOption_of_append {o o' : Option Expr} {l l' : List Expr}
    (hlength : o.toList.length = o'.toList.length)
    (h : o'.toList.map (·.recast {}) ++ l' = o.toList.map (·.recast r) ++ l) :
    Expr.recastOption {} o' = Expr.recastOption r o ∧ l' = l := by
  cases o <;> cases o' <;> simp_all [Expr.recastOption]

theorem Expr.recastConstruct_of_append (howner : r.owner = id) {c c' : Construct Expr} {l l' : List Expr}
    (hagrees : c.Agrees M B c' M')
    (h : c'.args.map (·.recast {}) ++ l' = c.args.map (·.recast r) ++ l) :
    Expr.recastConstruct {} c' = Expr.recastConstruct r c ∧ l' = l := by
  cases hagrees with
  | @mk _ _ _ t as as' ms has =>
    obtain ⟨hargs, hrest⟩ := Expr.recastList_of_append has.length_eq h
    have hmember : (fun m : Member => m.recast r) = fun m => m.recast {} := by
      funext m
      rw [Member.recast_of_owner howner, Member.recast_of_owner rfl]
    refine ⟨?_, hrest⟩
    simp only [Expr.recastConstruct, hargs, hmember]

theorem Expr.recastElements_of_append {es es' : List (ElementInit Expr)} {l l' : List Expr}
    (hagrees : Threaded ElementInit.Agrees M B es es' M') (hadd : ∀ m ∈ es.map (·.addMethod), m.IsAdd)
    (hadd' : ∀ m ∈ es'.map (·.addMethod), m.IsAdd)
    (h : (es'.flatMap (·.args)).map (·.recast {}) ++ l' = (es.flatMap (·.args)).map (·.recast r) ++ l) :
    Expr.recastElements {} es' = Expr.recastElements r es ∧ l' = l := by
  induction hagrees with
  | nil => exact ⟨rfl, h⟩
  | cons hi _ ih =>
    cases hi with
    | mk hplain hargs =>
      simp only [List.map_cons, List.forall_mem_cons] at hadd hadd'
      simp only [List.flatMap_cons, List.map_append, List.append_assoc] at h
      obtain ⟨hfirst, hrest⟩ := Expr.recastList_of_append hargs.length_eq h
      obtain ⟨hes, hl⟩ := ih hadd.2 hadd'.2 hrest
      have hmethod := Method.eq_of_plain hplain (hadd.1.marker.trans hadd'.1.marker.symm)
      refine ⟨?_, hl⟩
      rw [Expr.recastElements, Expr.recastElements, hfirst, hes, hmethod]

mutual

theorem Expr.recastBinding_of_append {M M' : Sides Nat} (howner : r.owner = id) :
    ∀ {b b' : Binding Expr} {l l' : List Expr}, b.Agrees M B b' M' → (∀ m ∈ b.addMethods, m.IsAdd) →
      (∀ m ∈ b'.addMethods, m.IsAdd) →
      b'.exprs.map (·.recast {}) ++ l' = b.exprs.map (·.recast r) ++ l →
      Expr.recastBinding {} b' = Expr.recastBinding r b ∧ l' = l
  | .assign .., _, _, _, .assign _, _, _, h => by
    obtain ⟨he, hl⟩ := List.cons.inj h
    rw [Expr.recastBinding, Expr.recastBinding, Member.recast_of_owner howner,
      Member.recast_of_owner rfl]
    exact ⟨congrArg _ he, hl⟩
  | .nested .., _, _, _, .nested hbs, hadd, hadd', h => by
    rw [Binding.addMethods] at hadd hadd'
    rw [Binding.exprs, Binding.exprs] at h
    obtain ⟨hbs, hl⟩ := Expr.recastBindings_of_append howner hbs hadd hadd' h
    rw [Expr.recastBinding, Expr.recastBinding, Member.recast_of_owner howner,
      Member.recast_of_owner rfl]
    exact ⟨congrArg _ hbs, hl⟩
  | .elements .., _, _, _, .elements hes, hadd, hadd', h => by
    obtain ⟨hes, hl⟩ := Expr.recastElements_of_append hes hadd hadd' h
    rw [Expr.recastBinding, Expr.recastBinding, Member.recast_of_owner howner,
      Member.recast_of_owner rfl]
    exact ⟨congrArg _ hes, hl⟩

theorem Expr.recastBindings_of_append {M M' : Sides Nat} (howner : r.owner = id) :
    ∀ {bs bs' : List (Binding Expr)} {l l' : List Expr}, Threaded Binding.Agrees M B bs bs' M' →
      (∀ m ∈ Binding.addMethodsOfAll bs, m.IsAdd) → (∀ m ∈ Binding.addMethodsOfAll bs', m.IsAdd) →
      (Binding.exprsOfAll bs').map (·.recast {}) ++ l' = (Binding.exprsOfAll bs).map (·.recast r) ++ l →
      Expr.recastBindings {} bs' = Expr.recastBindings r bs ∧ l' = l
  | [], _, _, _, .nil, _, _, h => ⟨rfl, h⟩
  | _ :: _, _, _, _, .cons hb hbs, hadd, hadd', h => by
    rw [Binding.addMethodsOfAll, List.forall_mem_append] at hadd hadd'
    rw [Binding.exprsOfAll, Binding.exprsOfAll, List.map_append, List.map_append, List.append_assoc,
      List.append_assoc] at h
    obtain ⟨hfirst, h⟩ := Expr.recastBinding_of_append howner hb hadd.1 hadd'.1 h
    obtain ⟨hrest, hl⟩ := Expr.recastBindings_of_append howner hbs hadd.2 hadd'.2 h
    rw [Expr.recastBindings, Expr.recastBindings, hfirst, hrest]
    exact ⟨rfl, hl⟩

end

/-- The marker of a call. -/
def Node.marker? : Node → Option Marker
  | .call _ m _ => m.marker
  | _ => none

/-- Nodes that agree, and whose parts recast alike, recast alike. -/
theorem Node.Agrees.recast_eq (howner : r.owner = id) {n n' : Node} (h : n.Agrees M B n' M')
    (hlegible : n.Legible) (hlegible' : n'.Legible) (hmarker : n.marker? = n'.marker?)
    (hconstant : n.kind ≠ .constant) (hown : n'.own = n.own.map r.var)
    (hparams : n'.params = n.params.map r.var)
    (hchildren : n'.children.map (·.recast {}) = n.children.map (·.recast r)) :
    n'.recast {} = n.recast r := by
  have hbehind := congrArg (· ++ ([] : List Expr)) hchildren
  cases h with
  | unary =>
    obtain ⟨rfl, -⟩ := hlegible.formed
    obtain ⟨rfl, -⟩ := hlegible'.formed
    simp only [Node.children, List.map_cons, List.cons.injEq] at hchildren
    rw [Node.recast, Node.recast, hchildren.1]
  | binary =>
    obtain ⟨rfl, rfl, rfl, -⟩ := hlegible.formed
    obtain ⟨rfl, -, rfl, -⟩ := hlegible'.formed
    simp only [Node.children, List.map_cons, List.cons.injEq] at hchildren
    rw [Node.recast, Node.recast, hchildren.1, hchildren.2.1]
    rfl
  | typeIs =>
    simp only [Node.children, List.map_cons, List.cons.injEq] at hchildren
    rw [Node.recast, Node.recast, hchildren.1]
  | conditional =>
    simp only [Node.children, List.map_cons, List.cons.injEq] at hchildren
    rw [Node.recast, Node.recast, hchildren.1, hchildren.2.1, hchildren.2.2.1]
  | constant => exact absurd rfl hconstant
  | bound | free => exact congrArg Node.variable (List.cons.inj hown).1
  | memberAccess ho =>
    rw [Node.recast, Node.recast, (Expr.recastOption_of_append ho.length_eq hbehind).1,
      Member.recast_of_owner howner, Member.recast_of_owner rfl]
  | call hplain ho has =>
    simp only [Node.children, List.map_append, List.append_assoc] at hbehind
    obtain ⟨hobject, hbehind⟩ := Expr.recastOption_of_append ho.length_eq hbehind
    rw [Node.recast, Node.recast, hobject, (Expr.recastList_of_append has.length_eq hbehind).1,
      Method.eq_of_plain hplain hmarker]
  | lambda =>
    simp only [Node.children, List.map_cons, List.cons.injEq] at hchildren
    simp only [Node.params] at hparams
    rw [Node.recast, Node.recast, hchildren.1, ← hparams, List.map_id_fun]
    rfl
  | construct hc =>
    rw [Node.recast, Node.recast, (Expr.recastConstruct_of_append howner hc hbehind).1]
  | newArray hes => rw [Node.recast, Node.recast, (Expr.recastList_of_append hes.length_eq hbehind).1]
  | invocation he has =>
    simp only [Node.children, List.map_cons, List.cons_append, List.cons.injEq] at hbehind
    obtain ⟨htarget, hbehind⟩ := hbehind
    rw [Node.recast, Node.recast, htarget, (Expr.recastList_of_append has.length_eq hbehind).1]
  | memberInit hc hbs =>
    simp only [Node.children, List.map_append, List.append_assoc] at hbehind
    obtain ⟨hconstruct, hbehind⟩ := Expr.recastConstruct_of_append howner hc hbehind
    rw [Node.recast, Node.recast, hconstruct, (Expr.recastBindings_of_append howner hbs
      hlegible.addMethods hlegible'.addMethods hbehind).1]
  | listInit hc hes =>
    simp only [Node.children, List.map_append, List.append_assoc] at hbehind
    obtain ⟨hconstruct, hbehind⟩ := Expr.recastConstruct_of_append howner hc hbehind
    rw [Node.recast, Node.recast, hconstruct, (Expr.recastElements_of_append hes hlegible.addMethods
      hlegible'.addMethods hbehind).1]
  | extension => rfl

end Recast

/-! ## Outlines -/

/-- The binders in scope at the parts of a node. Trees in closures belong to the top level. -/
def Node.scopeInside (binders : List Variable) : Node → List Variable
  | .constant (.closure _) _ => []
  | n => n.params.reverse ++ binders

/-- At each place of a tree, in order: the marker of a call, and for a variable the distance to its
binder, if it has one. A tree that is carried as data is looked at where it stands. -/
def Expr.outline (binders : List Variable) (e : Expr) : List (Option Marker × List (Option Nat)) :=
  (e.node.marker?, e.node.own.map (binders.idxOf? ·)) ::
    e.parts.attach.flatMap fun c => outline (e.node.scopeInside binders) c.1
termination_by sizeOf e
decreasing_by exact sizeOf_lt_of_mem_parts c.2

theorem Expr.outline_eq (binders : List Variable) (e : Expr) :
    e.outline binders = (e.node.marker?, e.node.own.map (binders.idxOf? ·)) ::
      e.parts.flatMap (outline (e.node.scopeInside binders)) := by
  rw [outline]
  congr 1
  simp [List.flatMap]

theorem Expr.outline_constant (binders : List Variable) (k : Nat) (v : Value) (t : Ty) :
    (Expr.mk k (.constant v t)).outline binders =
      (none, []) :: v.trees.flatMap (outline ((Node.constant v t).scopeInside binders)) :=
  Expr.outline_eq _ _

end ExprTree
