import ExprTree.Proofs.Identity
import ExprTree.Proofs.Yields

/-!
# Walks through the children of a node

A node is determined by its *shape*, which is all of it but its children, and its children in the
order in which they are visited (`Node.eq_of_shape`). Visiting the children keeps the shape and
replaces the children one after the other (`Node.shape_of_traverse`, `Node.exists_traverse`).

Where labels are identities, a walk through the children gives back an expression with exactly these
contents, whether it is shared with the input or made again (`Walk.Yields.children`). This is the
only place where sharing is looked at.
-/

namespace ExprTree

open Walk

/-! ## Shapes -/

/-- The node with all its children blanked out. -/
def Node.shape (n : Node) : Node := Id.run (n.traverse fun _ _ => pure default)

/-- The children of a node in the order in which they are visited. -/
def Node.visitOrder : Node → List Expr
  | .invocation target args _ => args ++ [target]
  | n => n.children

theorem Node.mem_visitOrder {n : Node} {c : Expr} : c ∈ n.visitOrder ↔ c ∈ n.children := by
  cases n with
  | invocation target args ty =>
    simp [Node.visitOrder, Node.children, or_comm]
  | _ => exact Iff.rfl

/-- A blanked list has the length of the list and nothing else. -/
private theorem visitList_blank {α : Type} (xs : List α) :
    (visitList xs fun _ _ => pure default : Id (List Expr)) = List.replicate xs.length default := by
  induction xs with
  | nil => rfl
  | cons x xs ih =>
    rw [visitList, ih]
    rfl

theorem visitList_blank_congr {α : Type} {xs ys : List α} (h : xs.length = ys.length) :
    (visitList xs fun _ _ => pure default : Id (List Expr))
      = visitList ys fun _ _ => pure default := by
  rw [visitList_blank, visitList_blank, h]

theorem length_of_visitList_blank {α : Type} {xs ys : List α}
    (h : (visitList xs fun _ _ => pure default : Id (List Expr))
      = visitList ys fun _ _ => pure default) : xs.length = ys.length := by
  rw [visitList_blank, visitList_blank] at h
  simpa using congrArg List.length h

namespace ElementInit

/-- Element initializers with their arguments blanked out. -/
abbrev blankAll (es : List (ElementInit Expr)) : List (ElementInit Expr) :=
  Id.run (traverseAll es fun _ _ => pure default)

theorem length_of_blankAll : ∀ {es es' : List (ElementInit Expr)},
    blankAll es = blankAll es' →
      (es.flatMap (·.args)).length = (es'.flatMap (·.args)).length
  | [], [], _ => rfl
  | e :: es, e' :: es', hblank => by
    obtain ⟨hhead, htail⟩ := List.cons.inj hblank
    have hlen : e.args.length = e'.args.length :=
      length_of_visitList_blank (ElementInit.mk.inj hhead).2
    simp only [List.flatMap_cons, List.length_append, hlen, length_of_blankAll htail]

theorem eq_of_blankAll : ∀ {es es' : List (ElementInit Expr)}, blankAll es = blankAll es' →
    es.flatMap (·.args) = es'.flatMap (·.args) → es = es'
  | [], [], _, _ => rfl
  | ⟨m, as⟩ :: es, ⟨m', as'⟩ :: es', hblank, hargs => by
    obtain ⟨hhead, htail⟩ := List.cons.inj hblank
    obtain ⟨hm, has⟩ := ElementInit.mk.inj hhead
    have hlen : as.length = as'.length := length_of_visitList_blank has
    simp only [List.flatMap_cons] at hargs
    obtain ⟨has, hes⟩ := List.append_inj hargs hlen
    have has : as = as' := has
    have hm : m = m' := hm
    rw [hm, has, eq_of_blankAll htail hes]

variable {σ : Type} {f : Expr → Walk σ Expr} {st st' : WalkState σ}

private theorem blankAll_of_traverseAll {es es' : List (ElementInit Expr)}
    (h : (traverseAll es fun a _ => f a).Yields st es' st') :
    blankAll es' = blankAll es ∧
      (each f (es.flatMap (·.args))).Yields st (es'.flatMap (·.args)) st' := by
  induction es generalizing st es' with
  | nil =>
    obtain ⟨rfl, rfl⟩ := yields_pure.1 h
    exact ⟨rfl, yields_each_nil.2 ⟨rfl, rfl⟩⟩
  | cons e es ih =>
    simp only [traverseAll, yields_bind, yields_pure] at h
    obtain ⟨args, st₁, hargs, rest, st₂, hrest, rfl, rfl⟩ := h
    obtain ⟨hblank, heach⟩ := ih hrest
    refine ⟨?_, ?_⟩
    · have hlen : args.length = e.args.length := Yields.length_eq hargs
      show ({ addMethod := e.addMethod, args := _ } : ElementInit Expr) :: blankAll rest
        = { addMethod := e.addMethod, args := _ } :: blankAll es
      rw [hblank]
      exact congrArg (fun as => ({ addMethod := e.addMethod, args := as } : ElementInit Expr) :: _)
        (visitList_blank_congr hlen)
    · simp only [List.flatMap_cons]
      exact yields_each_append.2 ⟨args, st₁, _, hargs, heach, rfl⟩

private theorem exists_traverseAll {es : List (ElementInit Expr)} {cs : List Expr}
    (h : (each f (es.flatMap (·.args))).Yields st cs st') :
    ∃ es', (traverseAll es fun a _ => f a).Yields st es' st' ∧ es'.flatMap (·.args) = cs := by
  induction es generalizing st cs with
  | nil =>
    obtain ⟨rfl, rfl⟩ := yields_each_nil.1 h
    exact ⟨[], yields_pure.2 ⟨rfl, rfl⟩, rfl⟩
  | cons e es ih =>
    simp only [List.flatMap_cons] at h
    obtain ⟨args, st₁, rest, hargs, hrest, rfl⟩ := yields_each_append.1 h
    obtain ⟨es', hes, rfl⟩ := ih hrest
    refine ⟨{ addMethod := e.addMethod, args := args } :: es', ?_, rfl⟩
    simp only [traverseAll, yields_bind, yields_pure]
    exact ⟨args, st₁, hargs, es', st', hes, rfl, rfl⟩

private theorem fails_traverseAll {es : List (ElementInit Expr)} {failure : Failure} :
    (traverseAll es fun a _ => f a).Fails st failure ↔
      (each f (es.flatMap (·.args))).Fails st failure := by
  induction es generalizing st with
  | nil => simp only [traverseAll, List.flatMap_nil, not_fails_pure, not_fails_each_nil]
  | cons e es ih =>
    simp only [traverseAll, List.flatMap_cons, fails_bind, fails_each_append, ih, not_fails_pure,
      and_false, exists_false, or_false]

end ElementInit

namespace Binding

/-- A binding with its expressions blanked out. -/
abbrev blank (b : Binding Expr) : Binding Expr :=
  Id.run (b.traverse fun _ _ => pure default)

/-- Bindings with their expressions blanked out. -/
abbrev blankAll (bs : List (Binding Expr)) : List (Binding Expr) :=
  Id.run (traverseAll bs fun _ _ => pure default)

-- the number of expressions in a binding can be read off its blank
mutual

theorem length_exprs_of_blank : ∀ {b b' : Binding Expr}, b.blank = b'.blank →
    b.exprs.length = b'.exprs.length
  | .assign _ _, .assign _ _, _ => rfl
  | .nested _ bs, .nested _ bs', h => by
    simp only [exprs]
    exact length_exprsOfAll_of_blankAll (Binding.nested.inj h).2
  | .elements _ es, .elements _ es', h => by
    simp only [exprs]
    exact ElementInit.length_of_blankAll (Binding.elements.inj h).2

theorem length_exprsOfAll_of_blankAll : ∀ {bs bs' : List (Binding Expr)},
    blankAll bs = blankAll bs' → (exprsOfAll bs).length = (exprsOfAll bs').length
  | [], [], _ => rfl
  | b :: bs, b' :: bs', h => by
    obtain ⟨hhead, htail⟩ := List.cons.inj h
    simp only [exprsOfAll, List.length_append]
    rw [length_exprs_of_blank hhead, length_exprsOfAll_of_blankAll htail]

end

mutual

theorem eq_of_blank : ∀ {b b' : Binding Expr}, b.blank = b'.blank → b.exprs = b'.exprs →
    b = b'
  | .assign m e, .assign m' e', hblank, hexprs => by
    have hm : m = m' := (Binding.assign.inj hblank).1
    have he : e = e' := by simpa only [exprs, List.cons.injEq, and_true] using hexprs
    rw [hm, he]
  | .nested m bs, .nested m' bs', hblank, hexprs => by
    obtain ⟨hm, hbs⟩ := Binding.nested.inj hblank
    have hm : m = m' := hm
    simp only [exprs] at hexprs
    rw [hm, eq_of_blankAll hbs hexprs]
  | .elements m es, .elements m' es', hblank, hexprs => by
    obtain ⟨hm, hes⟩ := Binding.elements.inj hblank
    have hm : m = m' := hm
    simp only [exprs] at hexprs
    rw [hm, ElementInit.eq_of_blankAll hes hexprs]

theorem eq_of_blankAll : ∀ {bs bs' : List (Binding Expr)}, blankAll bs = blankAll bs' →
    exprsOfAll bs = exprsOfAll bs' → bs = bs'
  | [], [], _, _ => rfl
  | b :: bs, b' :: bs', hblank, hexprs => by
    obtain ⟨hhead, htail⟩ := List.cons.inj hblank
    simp only [exprsOfAll] at hexprs
    obtain ⟨hb, hbs⟩ := List.append_inj hexprs (length_exprs_of_blank hhead)
    rw [eq_of_blank hhead hb, eq_of_blankAll htail hbs]

end

variable {σ : Type} {f : Expr → Walk σ Expr}

mutual

private theorem blank_of_traverse : ∀ {b b' : Binding Expr} {st st' : WalkState σ},
    (b.traverse fun a _ => f a).Yields st b' st' →
      b'.blank = b.blank ∧ (each f b.exprs).Yields st b'.exprs st'
  | .assign m e, b', st, st', h => by
    simp only [traverse, yields_bind, yields_pure] at h
    obtain ⟨e', st₁, he, rfl, rfl⟩ := h
    simp only [exprs]
    exact ⟨rfl, yields_each_one.2 ⟨e', he, rfl⟩⟩
  | .nested m bs, b', st, st', h => by
    simp only [traverse, yields_bind, yields_pure] at h
    obtain ⟨bs', st₁, hbs, rfl, rfl⟩ := h
    obtain ⟨hblank, heach⟩ := blankAll_of_traverseAll hbs
    simp only [exprs]
    exact ⟨congrArg (Binding.nested m) hblank, heach⟩
  | .elements m es, b', st, st', h => by
    simp only [traverse, yields_bind, yields_pure] at h
    obtain ⟨es', st₁, hes, rfl, rfl⟩ := h
    obtain ⟨hblank, heach⟩ := ElementInit.blankAll_of_traverseAll hes
    simp only [exprs]
    exact ⟨congrArg (Binding.elements m) hblank, heach⟩

private theorem blankAll_of_traverseAll : ∀ {bs bs' : List (Binding Expr)} {st st' : WalkState σ},
    (traverseAll bs fun a _ => f a).Yields st bs' st' →
      blankAll bs' = blankAll bs ∧ (each f (exprsOfAll bs)).Yields st (exprsOfAll bs') st'
  | [], bs', st, st', h => by
    obtain ⟨rfl, rfl⟩ := yields_pure.1 h
    exact ⟨rfl, yields_each_nil.2 ⟨rfl, rfl⟩⟩
  | b :: bs, bs', st, st', h => by
    simp only [traverseAll, yields_bind, yields_pure] at h
    obtain ⟨b', st₁, hb, rest, st₂, hrest, rfl, rfl⟩ := h
    obtain ⟨hblank, heach⟩ := blank_of_traverse hb
    obtain ⟨hblanks, heachs⟩ := blankAll_of_traverseAll hrest
    refine ⟨?_, ?_⟩
    · show b'.blank :: blankAll rest = b.blank :: blankAll bs
      rw [hblank, hblanks]
    · simp only [exprsOfAll]
      exact yields_each_append.2 ⟨_, st₁, _, heach, heachs, rfl⟩

end

mutual

private theorem exists_traverse : ∀ {b : Binding Expr} {cs : List Expr} {st st' : WalkState σ},
    (each f b.exprs).Yields st cs st' →
      ∃ b', (b.traverse fun a _ => f a).Yields st b' st' ∧ b'.exprs = cs
  | .assign m e, cs, st, st', h => by
    simp only [exprs] at h
    obtain ⟨e', he, rfl⟩ := yields_each_one.1 h
    refine ⟨.assign m e', ?_, by simp only [exprs]⟩
    simp only [traverse, yields_bind, yields_pure]
    exact ⟨e', st', he, rfl, rfl⟩
  | .nested m bs, cs, st, st', h => by
    simp only [exprs] at h
    obtain ⟨bs', hbs, rfl⟩ := exists_traverseAll h
    refine ⟨.nested m bs', ?_, by simp only [exprs]⟩
    simp only [traverse, yields_bind, yields_pure]
    exact ⟨bs', st', hbs, rfl, rfl⟩
  | .elements m es, cs, st, st', h => by
    simp only [exprs] at h
    obtain ⟨es', hes, rfl⟩ := ElementInit.exists_traverseAll h
    refine ⟨.elements m es', ?_, by simp only [exprs]⟩
    simp only [traverse, yields_bind, yields_pure]
    exact ⟨es', st', hes, rfl, rfl⟩

private theorem exists_traverseAll : ∀ {bs : List (Binding Expr)} {cs : List Expr}
    {st st' : WalkState σ}, (each f (exprsOfAll bs)).Yields st cs st' →
      ∃ bs', (traverseAll bs fun a _ => f a).Yields st bs' st' ∧ exprsOfAll bs' = cs
  | [], cs, st, st', h => by
    simp only [exprsOfAll] at h
    obtain ⟨rfl, rfl⟩ := yields_each_nil.1 h
    exact ⟨[], yields_pure.2 ⟨rfl, rfl⟩, by simp only [exprsOfAll]⟩
  | b :: bs, cs, st, st', h => by
    simp only [exprsOfAll] at h
    obtain ⟨cs, st₁, ds, hcs, hds, rfl⟩ := yields_each_append.1 h
    obtain ⟨b', hb, rfl⟩ := exists_traverse hcs
    obtain ⟨bs', hbs, rfl⟩ := exists_traverseAll hds
    refine ⟨b' :: bs', ?_, by simp only [exprsOfAll]⟩
    simp only [traverseAll, yields_bind, yields_pure]
    exact ⟨b', st₁, hb, bs', st', hbs, rfl, rfl⟩

end

mutual

private theorem fails_traverse : ∀ {b : Binding Expr} {st : WalkState σ} {failure : Failure},
    (b.traverse fun a _ => f a).Fails st failure ↔ (each f b.exprs).Fails st failure
  | .assign m e, st, failure => by
    simp only [traverse, exprs, fails_bind, fails_each_one, not_fails_pure, and_false, exists_false,
      or_false]
  | .nested m bs, st, failure => by
    simp only [traverse, exprs, fails_bind, fails_traverseAll, not_fails_pure, and_false,
      exists_false, or_false]
  | .elements m es, st, failure => by
    simp only [traverse, exprs, fails_bind, ElementInit.fails_traverseAll, not_fails_pure, and_false,
      exists_false, or_false]

private theorem fails_traverseAll : ∀ {bs : List (Binding Expr)} {st : WalkState σ}
    {failure : Failure},
    (traverseAll bs fun a _ => f a).Fails st failure ↔ (each f (exprsOfAll bs)).Fails st failure
  | [], st, failure => by
    simp only [traverseAll, exprsOfAll, not_fails_pure, not_fails_each_nil]
  | b :: bs, st, failure => by
    simp only [traverseAll, exprsOfAll, fails_bind, fails_each_append, fails_traverse,
      fails_traverseAll, not_fails_pure, and_false, exists_false, or_false]
    refine or_congr_right ⟨?_, ?_⟩
    · rintro ⟨b', st₁, hb, hbs⟩
      exact ⟨_, st₁, (blank_of_traverse hb).2, hbs⟩
    · rintro ⟨cs, st₁, hcs, hbs⟩
      obtain ⟨b', hb, -⟩ := exists_traverse hcs
      exact ⟨b', st₁, hb, hbs⟩

end

end Binding

namespace Construct

/-- A constructor call with its arguments blanked out. -/
abbrev blank (c : Construct Expr) : Construct Expr :=
  Id.run (c.traverse fun _ _ => pure default)

theorem length_args_of_blank {c c' : Construct Expr} (h : c.blank = c'.blank) :
    c.args.length = c'.args.length :=
  length_of_visitList_blank (Construct.mk.inj h).2.1

theorem eq_of_blank {c c' : Construct Expr} (hblank : c.blank = c'.blank)
    (hargs : c.args = c'.args) : c = c' := by
  obtain ⟨hty, -, hmembers⟩ := Construct.mk.inj hblank
  have hty : c.ty = c'.ty := hty
  have hmembers : c.members = c'.members := hmembers
  cases c
  cases c'
  simp only at hty hargs hmembers
  rw [hty, hargs, hmembers]

variable {σ : Type} {f : Expr → Walk σ Expr} {st st' : WalkState σ}

private theorem blank_of_traverse {c c' : Construct Expr}
    (h : (c.traverse fun a _ => f a).Yields st c' st') :
    c'.blank = c.blank ∧ (each f c.args).Yields st c'.args st' := by
  simp only [traverse, yields_bind, yields_pure] at h
  obtain ⟨args, st₁, hargs, rfl, rfl⟩ := h
  exact ⟨congrArg (fun as => ({ ty := c.ty, args := as, members := c.members } : Construct Expr))
    (visitList_blank_congr (Yields.length_eq hargs)), hargs⟩

private theorem exists_traverse {c : Construct Expr} {cs : List Expr}
    (h : (each f c.args).Yields st cs st') :
    ∃ c', (c.traverse fun a _ => f a).Yields st c' st' ∧ c'.args = cs := by
  refine ⟨{ ty := c.ty, args := cs, members := c.members }, ?_, rfl⟩
  simp only [traverse, yields_bind, yields_pure]
  exact ⟨cs, st', h, rfl, rfl⟩

private theorem fails_traverse {c : Construct Expr} {failure : Failure} :
    (c.traverse fun a _ => f a).Fails st failure ↔ (each f c.args).Fails st failure := by
  simp only [traverse, fails_bind, not_fails_pure, and_false, exists_false, or_false]

end Construct

namespace Node

private theorem length_toList_of_blank {o o' : Option Expr}
    (h : (visitOption o fun _ _ => pure default : Id (Option Expr))
      = visitOption o' fun _ _ => pure default) : o.toList.length = o'.toList.length := by
  cases o <;> cases o'
  · rfl
  · cases h
  · cases h
  · rfl

private theorem eq_of_toList {o o' : Option Expr} (h : o.toList = o'.toList) : o = o' := by
  cases o <;> cases o' <;> simp_all

/-- Two nodes of the same shape with the same children are the same. -/
theorem eq_of_shape {n n' : Node} (hshape : n.shape = n'.shape)
    (hchildren : n.visitOrder = n'.visitOrder) : n = n' := by
  -- different kinds have different shapes
  cases n <;> cases n' <;> first | (cases hshape; done) | skip
  case unary.unary =>
    obtain ⟨rfl, -, rfl, rfl⟩ := Node.unary.inj hshape
    obtain ⟨rfl, -⟩ := List.cons.inj hchildren
    rfl
  case binary.binary =>
    obtain ⟨rfl, -, -, -, rfl, rfl, rfl⟩ := Node.binary.inj hshape
    obtain ⟨rfl, htail⟩ := List.cons.inj hchildren
    obtain ⟨rfl, hc⟩ := List.cons.inj htail
    rw [eq_of_toList hc]
  case typeIs.typeIs =>
    obtain ⟨-, rfl⟩ := Node.typeIs.inj hshape
    obtain ⟨rfl, -⟩ := List.cons.inj hchildren
    rfl
  case conditional.conditional =>
    obtain ⟨-, -, -, rfl⟩ := Node.conditional.inj hshape
    simp only [visitOrder, children, List.cons.injEq, and_true] at hchildren
    obtain ⟨rfl, rfl, rfl⟩ := hchildren
    rfl
  case constant.constant => exact hshape
  case variable.variable => exact hshape
  case memberAccess.memberAccess =>
    obtain ⟨-, rfl⟩ := Node.memberAccess.inj hshape
    rw [eq_of_toList hchildren]
  case call.call =>
    obtain ⟨ho, rfl, -⟩ := Node.call.inj hshape
    obtain ⟨hobject, rfl⟩ := List.append_inj hchildren (length_toList_of_blank ho)
    rw [eq_of_toList hobject]
  case lambda.lambda =>
    obtain ⟨rfl, -, rfl⟩ := Node.lambda.inj hshape
    obtain ⟨rfl, -⟩ := List.cons.inj hchildren
    rfl
  case construct.construct =>
    rw [Construct.eq_of_blank (Node.construct.inj hshape) hchildren]
  case newArray.newArray =>
    obtain ⟨rfl, rfl, -⟩ := Node.newArray.inj hshape
    exact congrArg _ hchildren
  case invocation.invocation =>
    obtain ⟨-, hargs, rfl⟩ := Node.invocation.inj hshape
    obtain ⟨rfl, htarget⟩ := List.append_inj hchildren (length_of_visitList_blank hargs)
    obtain ⟨rfl, -⟩ := List.cons.inj htarget
    rfl
  case memberInit.memberInit =>
    obtain ⟨hc, hbs⟩ := Node.memberInit.inj hshape
    obtain ⟨hargs, hexprs⟩ := List.append_inj hchildren (Construct.length_args_of_blank hc)
    rw [Construct.eq_of_blank hc hargs, Binding.eq_of_blankAll hbs hexprs]
  case listInit.listInit =>
    obtain ⟨hc, hes⟩ := Node.listInit.inj hshape
    obtain ⟨hargs, hexprs⟩ := List.append_inj hchildren (Construct.length_args_of_blank hc)
    rw [Construct.eq_of_blank hc hargs, ElementInit.eq_of_blankAll hes hexprs]
  case extension.extension => exact hshape

theorem unary_of_shape {n : Node} {op : UnaryOp} {operand : Expr} {ty : Ty}
    {method : Option Method} (h : n.shape = (Node.unary op operand ty method).shape) :
    ∃ operand', n = .unary op operand' ty method := by
  cases n <;> cases h
  exact ⟨_, rfl⟩

theorem lambda_of_shape {n : Node} {params : List Variable} {body : Expr} {ty : Ty}
    (h : n.shape = (Node.lambda params body ty).shape) :
    ∃ body', n = .lambda params body' ty := by
  cases n <;> cases h
  exact ⟨_, rfl⟩

theorem memberAccess_of_shape {n : Node} {object : Option Expr} {member : Member}
    (h : n.shape = (Node.memberAccess object member).shape) :
    ∃ object', n = .memberAccess object' member ∧
      object'.toList.length = object.toList.length := by
  cases n with
  | memberAccess object' member' =>
    obtain ⟨hobject, rfl⟩ := Node.memberAccess.inj h
    exact ⟨object', rfl, length_toList_of_blank hobject⟩
  | _ => cases h

theorem call_of_shape {n : Node} {object : Option Expr} {method : Method} {args : List Expr}
    (h : n.shape = (Node.call object method args).shape) :
    ∃ object' args', n = .call object' method args' ∧
      object'.toList.length = object.toList.length := by
  cases n with
  | call object' method' args' =>
    obtain ⟨hobject, rfl, -⟩ := Node.call.inj h
    exact ⟨object', args', rfl, length_toList_of_blank hobject⟩
  | _ => cases h

theorem invocation_of_shape {n : Node} {target : Expr} {args : List Expr} {ty : Ty}
    (h : n.shape = (Node.invocation target args ty).shape) :
    ∃ target' args', n = .invocation target' args' ty := by
  cases n with
  | invocation target' args' ty' =>
    obtain ⟨-, -, rfl⟩ := Node.invocation.inj h
    exact ⟨target', args', rfl⟩
  | _ => cases h

variable {σ : Type} {f : Expr → Walk σ Expr} {st st' : WalkState σ}

private theorem yields_visitOption {o o' : Option Expr} :
    (visitOption o fun a _ => f a).Yields st o' st' ↔
      (each f o.toList).Yields st o'.toList st' := by
  cases o with
  | none =>
    simp only [visitOption, Option.toList_none, yields_pure, yields_each_nil,
      Option.toList_eq_nil_iff]
  | some a =>
    simp only [visitOption, Option.toList_some, yields_bind, yields_pure, yields_each_one]
    constructor
    · rintro ⟨b, st₁, hb, rfl, rfl⟩
      exact ⟨b, hb, rfl⟩
    · rintro ⟨b, hb, ho⟩
      exact ⟨b, st', hb, eq_of_toList ho, rfl⟩

private theorem blank_of_visitOption {o o' : Option Expr}
    (h : (visitOption o fun a _ => f a).Yields st o' st') :
    (visitOption o' fun _ _ => pure default : Id (Option Expr))
      = visitOption o fun _ _ => pure default := by
  have hlen := Yields.length_eq (yields_visitOption.1 h)
  cases o <;> cases o' <;> first | rfl | (simp at hlen)

private theorem exists_visitOption {o : Option Expr} {cs : List Expr}
    (h : (each f o.toList).Yields st cs st') :
    ∃ o', (visitOption o fun a _ => f a).Yields st o' st' ∧ o'.toList = cs := by
  have hlen := Yields.length_eq h
  cases o with
  | none =>
    obtain rfl : cs = [] := List.eq_nil_of_length_eq_zero hlen
    exact ⟨none, yields_visitOption.2 h, rfl⟩
  | some x =>
    obtain ⟨x', rfl⟩ := List.length_eq_one_iff.1 hlen
    exact ⟨some x', yields_visitOption.2 h, rfl⟩

/-- Visiting the children of a node keeps its shape and replaces the children in the order in which
they are visited. -/
theorem shape_of_traverse {n n' : Node} (h : (n.traverse fun c _ => f c).Yields st n' st') :
    n'.shape = n.shape ∧ (each f n.visitOrder).Yields st n'.visitOrder st' := by
  cases n with
  | unary op e ty m =>
    simp only [traverse, yields_bind, yields_pure] at h
    obtain ⟨e', st₁, he, rfl, rfl⟩ := h
    exact ⟨rfl, yields_each_one.2 ⟨e', he, rfl⟩⟩
  | binary op l r c lifted m ty =>
    simp only [traverse, yields_bind, yields_pure] at h
    obtain ⟨l', st₁, hl, r', st₂, hr, c', st₃, hc, rfl, rfl⟩ := h
    refine ⟨?_, ?_⟩
    · exact congrArg (fun c => Node.binary op default default c lifted m ty)
        (blank_of_visitOption hc)
    · exact yields_each_cons.2 ⟨l', st₁, _, hl,
        yields_each_cons.2 ⟨r', st₂, _, hr, yields_visitOption.1 hc, rfl⟩, rfl⟩
  | typeIs e ty =>
    simp only [traverse, yields_bind, yields_pure] at h
    obtain ⟨e', st₁, he, rfl, rfl⟩ := h
    exact ⟨rfl, yields_each_one.2 ⟨e', he, rfl⟩⟩
  | conditional t a b ty =>
    simp only [traverse, yields_bind, yields_pure] at h
    obtain ⟨t', st₁, ht, a', st₂, ha, b', st₃, hb, rfl, rfl⟩ := h
    exact ⟨rfl, yields_each_cons.2 ⟨t', st₁, _, ht, yields_each_cons.2 ⟨a', st₂, _, ha,
      yields_each_one.2 ⟨b', hb, rfl⟩, rfl⟩, rfl⟩⟩
  | constant v ty =>
    obtain ⟨rfl, rfl⟩ := yields_pure.1 h
    exact ⟨rfl, yields_each_nil.2 ⟨rfl, rfl⟩⟩
  | «variable» v =>
    obtain ⟨rfl, rfl⟩ := yields_pure.1 h
    exact ⟨rfl, yields_each_nil.2 ⟨rfl, rfl⟩⟩
  | memberAccess o m =>
    simp only [traverse, yields_bind, yields_pure] at h
    obtain ⟨o', st₁, ho, rfl, rfl⟩ := h
    exact ⟨congrArg (fun o => Node.memberAccess o m) (blank_of_visitOption ho),
      yields_visitOption.1 ho⟩
  | call o m args =>
    simp only [traverse, yields_bind, yields_pure] at h
    obtain ⟨o', st₁, ho, args', st₂, hargs, rfl, rfl⟩ := h
    refine ⟨?_, ?_⟩
    · exact (congrArg (fun o => Node.call o m _) (blank_of_visitOption ho)).trans
        (congrArg (Node.call _ m) (visitList_blank_congr (Yields.length_eq hargs)))
    · exact yields_each_append.2 ⟨_, st₁, _, yields_visitOption.1 ho, hargs, rfl⟩
  | lambda params body ty =>
    simp only [traverse, yields_bind, yields_pure] at h
    obtain ⟨e', st₁, he, rfl, rfl⟩ := h
    exact ⟨rfl, yields_each_one.2 ⟨e', he, rfl⟩⟩
  | construct c =>
    simp only [traverse, yields_bind, yields_pure] at h
    obtain ⟨c', st₁, hc, rfl, rfl⟩ := h
    obtain ⟨hblank, heach⟩ := Construct.blank_of_traverse hc
    exact ⟨congrArg Node.construct hblank, heach⟩
  | newArray kind elem items =>
    simp only [traverse, yields_bind, yields_pure] at h
    obtain ⟨items', st₁, hitems, rfl, rfl⟩ := h
    exact ⟨congrArg (Node.newArray kind elem) (visitList_blank_congr (Yields.length_eq hitems)),
      hitems⟩
  | invocation target args ty =>
    simp only [traverse, yields_bind, yields_pure] at h
    obtain ⟨args', st₁, hargs, target', st₂, htarget, rfl, rfl⟩ := h
    refine ⟨?_, ?_⟩
    · exact congrArg (fun as => Node.invocation default as ty)
        (visitList_blank_congr (Yields.length_eq hargs))
    · exact yields_each_append.2 ⟨args', st₁, [target'], hargs,
        yields_each_one.2 ⟨target', htarget, rfl⟩, rfl⟩
  | memberInit c bs =>
    simp only [traverse, yields_bind, yields_pure] at h
    obtain ⟨c', st₁, hc, bs', st₂, hbs, rfl, rfl⟩ := h
    obtain ⟨hblank, heach⟩ := Construct.blank_of_traverse hc
    obtain ⟨hblanks, heachs⟩ := Binding.blankAll_of_traverseAll hbs
    exact ⟨(congrArg (Node.memberInit · _) hblank).trans (congrArg (Node.memberInit _) hblanks),
      yields_each_append.2 ⟨_, st₁, _, heach, heachs, rfl⟩⟩
  | listInit c es =>
    simp only [traverse, yields_bind, yields_pure] at h
    obtain ⟨c', st₁, hc, es', st₂, hes, rfl, rfl⟩ := h
    obtain ⟨hblank, heach⟩ := Construct.blank_of_traverse hc
    obtain ⟨hblanks, heachs⟩ := ElementInit.blankAll_of_traverseAll hes
    exact ⟨(congrArg (Node.listInit · _) hblank).trans (congrArg (Node.listInit _) hblanks),
      yields_each_append.2 ⟨_, st₁, _, heach, heachs, rfl⟩⟩
  | extension kind ty =>
    obtain ⟨rfl, rfl⟩ := yields_pure.1 h
    exact ⟨rfl, yields_each_nil.2 ⟨rfl, rfl⟩⟩

/-- If the children of a node can be visited one after the other, so can the node. -/
theorem exists_traverse {n : Node} {cs : List Expr} (h : (each f n.visitOrder).Yields st cs st') :
    ∃ n', (n.traverse fun c _ => f c).Yields st n' st' ∧ n'.visitOrder = cs := by
  cases n with
  | unary op e ty m =>
    obtain ⟨e', he, rfl⟩ := yields_each_one.1 h
    refine ⟨.unary op e' ty m, ?_, rfl⟩
    simp only [traverse, yields_bind, yields_pure]
    exact ⟨e', st', he, rfl, rfl⟩
  | binary op l r c lifted m ty =>
    obtain ⟨l', st₁, _, hl, htail, rfl⟩ := yields_each_cons.1 h
    obtain ⟨r', st₂, cs, hr, hc, rfl⟩ := yields_each_cons.1 htail
    obtain ⟨c', hconv, rfl⟩ := exists_visitOption hc
    refine ⟨.binary op l' r' c' lifted m ty, ?_, rfl⟩
    simp only [traverse, yields_bind, yields_pure]
    exact ⟨l', st₁, hl, r', st₂, hr, c', st', hconv, rfl, rfl⟩
  | typeIs e ty =>
    obtain ⟨e', he, rfl⟩ := yields_each_one.1 h
    refine ⟨.typeIs e' ty, ?_, rfl⟩
    simp only [traverse, yields_bind, yields_pure]
    exact ⟨e', st', he, rfl, rfl⟩
  | conditional t a b ty =>
    obtain ⟨t', st₁, _, ht, hrest, rfl⟩ := yields_each_cons.1 h
    obtain ⟨a', st₂, _, ha, hlast, rfl⟩ := yields_each_cons.1 hrest
    obtain ⟨b', hb, rfl⟩ := yields_each_one.1 hlast
    refine ⟨.conditional t' a' b' ty, ?_, rfl⟩
    simp only [traverse, yields_bind, yields_pure]
    exact ⟨t', st₁, ht, a', st₂, ha, b', st', hb, rfl, rfl⟩
  | constant v ty =>
    obtain ⟨rfl, rfl⟩ := yields_each_nil.1 h
    exact ⟨.constant v ty, yields_pure.2 ⟨rfl, rfl⟩, rfl⟩
  | «variable» v =>
    obtain ⟨rfl, rfl⟩ := yields_each_nil.1 h
    exact ⟨.variable v, yields_pure.2 ⟨rfl, rfl⟩, rfl⟩
  | memberAccess o m =>
    obtain ⟨o', ho, rfl⟩ := exists_visitOption h
    refine ⟨.memberAccess o' m, ?_, rfl⟩
    simp only [traverse, yields_bind, yields_pure]
    exact ⟨o', st', ho, rfl, rfl⟩
  | call o m args =>
    obtain ⟨_, st₁, args', ho, hargs, rfl⟩ := yields_each_append.1 h
    obtain ⟨o', hobject, rfl⟩ := exists_visitOption ho
    refine ⟨.call o' m args', ?_, rfl⟩
    simp only [traverse, yields_bind, yields_pure]
    exact ⟨o', st₁, hobject, args', st', hargs, rfl, rfl⟩
  | lambda params body ty =>
    obtain ⟨e', he, rfl⟩ := yields_each_one.1 h
    refine ⟨.lambda params e' ty, ?_, rfl⟩
    simp only [traverse, yields_bind, yields_pure]
    exact ⟨e', st', he, rfl, rfl⟩
  | construct c =>
    obtain ⟨c', hc, rfl⟩ := Construct.exists_traverse h
    refine ⟨.construct c', ?_, rfl⟩
    simp only [traverse, yields_bind, yields_pure]
    exact ⟨c', st', hc, rfl, rfl⟩
  | newArray kind elem items =>
    refine ⟨.newArray kind elem cs, ?_, rfl⟩
    simp only [traverse, yields_bind, yields_pure]
    exact ⟨cs, st', h, rfl, rfl⟩
  | invocation target args ty =>
    obtain ⟨args', st₁, _, hargs, hlast, rfl⟩ := yields_each_append.1 h
    obtain ⟨target', htarget, rfl⟩ := yields_each_one.1 hlast
    refine ⟨.invocation target' args' ty, ?_, rfl⟩
    simp only [traverse, yields_bind, yields_pure]
    exact ⟨args', st₁, hargs, target', st', htarget, rfl, rfl⟩
  | memberInit c bs =>
    obtain ⟨_, st₁, _, hargs, hexprs, rfl⟩ := yields_each_append.1 h
    obtain ⟨c', hc, rfl⟩ := Construct.exists_traverse hargs
    obtain ⟨bs', hbs, rfl⟩ := Binding.exists_traverseAll hexprs
    refine ⟨.memberInit c' bs', ?_, rfl⟩
    simp only [traverse, yields_bind, yields_pure]
    exact ⟨c', st₁, hc, bs', st', hbs, rfl, rfl⟩
  | listInit c es =>
    obtain ⟨_, st₁, _, hargs, hexprs, rfl⟩ := yields_each_append.1 h
    obtain ⟨c', hc, rfl⟩ := Construct.exists_traverse hargs
    obtain ⟨es', hes, rfl⟩ := ElementInit.exists_traverseAll hexprs
    refine ⟨.listInit c' es', ?_, rfl⟩
    simp only [traverse, yields_bind, yields_pure]
    exact ⟨c', st₁, hc, es', st', hes, rfl, rfl⟩
  | extension kind ty =>
    obtain ⟨rfl, rfl⟩ := yields_each_nil.1 h
    exact ⟨.extension kind ty, yields_pure.2 ⟨rfl, rfl⟩, rfl⟩

private theorem fails_visitOption {o : Option Expr} {failure : Failure} :
    (visitOption o fun a _ => f a).Fails st failure ↔ (each f o.toList).Fails st failure := by
  cases o with
  | none => simp only [visitOption, Option.toList_none, not_fails_pure, not_fails_each_nil]
  | some e =>
    simp only [visitOption, Option.toList_some, fails_bind, fails_each_one, not_fails_pure, and_false,
      exists_false, or_false]

private theorem exists_visitOption_iff {o : Option Expr} {P : WalkState σ → Prop} :
    (∃ o' st₁, (visitOption o fun a _ => f a).Yields st o' st₁ ∧ P st₁) ↔
      ∃ cs st₁, (each f o.toList).Yields st cs st₁ ∧ P st₁ := by
  constructor
  · rintro ⟨o', st₁, ho, h⟩
    exact ⟨_, st₁, yields_visitOption.1 ho, h⟩
  · rintro ⟨cs, st₁, hcs, h⟩
    obtain ⟨o', ho, -⟩ := exists_visitOption hcs
    exact ⟨o', st₁, ho, h⟩

private theorem exists_construct_iff {c : Construct Expr} {P : WalkState σ → Prop} :
    (∃ c' st₁, (c.traverse fun a _ => f a).Yields st c' st₁ ∧ P st₁) ↔
      ∃ cs st₁, (each f c.args).Yields st cs st₁ ∧ P st₁ := by
  constructor
  · rintro ⟨c', st₁, hc, h⟩
    exact ⟨_, st₁, (Construct.blank_of_traverse hc).2, h⟩
  · rintro ⟨cs, st₁, hcs, h⟩
    obtain ⟨c', hc, -⟩ := Construct.exists_traverse hcs
    exact ⟨c', st₁, hc, h⟩

/-- Visiting the children of a node fails where visiting them one after the other fails. -/
theorem fails_traverse {n : Node} {failure : Failure} :
    (n.traverse fun c _ => f c).Fails st failure ↔ (each f n.visitOrder).Fails st failure := by
  cases n <;> simp only [traverse, visitOrder, children, fails_bind, fails_each_cons,
    fails_each_append, fails_visitOption, exists_visitOption_iff, exists_construct_iff,
    Construct.fails_traverse, Binding.fails_traverseAll, ElementInit.fails_traverseAll,
    not_fails_pure, not_fails_each_nil, and_false, exists_false, or_false]

@[simp] theorem kind_shape (n : Node) : n.shape.kind = n.kind := by cases n <;> rfl

@[simp] theorem payload_shape (n : Node) : n.shape.payload = n.payload := by cases n <;> rfl

theorem kind_eq_of_shape {n n' : Node} (h : n.shape = n'.shape) : n.kind = n'.kind := by
  rw [← kind_shape n, h, kind_shape]

/-- The visiting order depends on the kind and the children only. -/
theorem visitOrder_eq (n : Node) : n.visitOrder =
    if n.kind = .invocation then n.children.tail ++ n.children.take 1 else n.children := by
  cases n <;> rfl

theorem visitOrder_congr {n n' : Node} (hshape : n.shape = n'.shape)
    (hchildren : n.children = n'.children) : n.visitOrder = n'.visitOrder := by
  rw [visitOrder_eq, visitOrder_eq, kind_eq_of_shape hshape, hchildren]

theorem visitOrder_eq_children {n : Node} (h : n.kind ≠ .invocation) :
    n.visitOrder = n.children := by
  rw [visitOrder_eq, if_neg h]

end Node

/-! ## Expressions -/

namespace Walk

variable {σ : Type} {f : Expr → Walk σ Expr} {st st' : WalkState σ}

/-- A walk through the children visits them, and then keeps the expression or makes a new one. -/
theorem Yields.of_children {e out : Expr} (h : (Walk.children e fun c _ => f c).Yields st out st') :
    ∃ n st₁, (each f e.node.visitOrder).Yields st n.visitOrder st₁ ∧ n.shape = e.node.shape ∧
      ((sameChildren e.node n = true ∧ out = e ∧ st' = st₁) ∨
        (out = .mk st₁.supply.next n ∧ st' = { st₁ with supply := ⟨st₁.supply.next + 1⟩ })) := by
  simp only [Walk.children, yields_bind] at h
  obtain ⟨n, st₁, hn, hout⟩ := h
  obtain ⟨hshape, heach⟩ := Node.shape_of_traverse hn
  refine ⟨n, st₁, heach, hshape, ?_⟩
  split at hout
  · next hsame =>
    obtain ⟨rfl, rfl⟩ := yields_pure.1 hout
    exact .inl ⟨hsame, rfl, rfl⟩
  · exact .inr (yields_alloc.1 hout)

/-- A walk through the children is a visit of them one after the other, after which the expression is
kept or made again. -/
theorem yields_children {e out : Expr} : (Walk.children e fun c _ => f c).Yields st out st' ↔
    ∃ n st₁, (each f e.node.visitOrder).Yields st n.visitOrder st₁ ∧ n.shape = e.node.shape ∧
      (if sameChildren e.node n then pure e else alloc n).Yields st₁ out st' := by
  simp only [Walk.children, yields_bind]
  constructor
  · rintro ⟨n, st₁, hn, hout⟩
    obtain ⟨hshape, heach⟩ := Node.shape_of_traverse hn
    exact ⟨n, st₁, heach, hshape, hout⟩
  · rintro ⟨n, st₁, heach, hshape, hout⟩
    obtain ⟨n', hn, horder⟩ := Node.exists_traverse heach
    obtain rfl : n' = n := Node.eq_of_shape ((Node.shape_of_traverse hn).1.trans hshape.symm) horder
    exact ⟨n', st₁, hn, hout⟩

/-- A walk through the children fails where a visit of them fails. -/
theorem fails_children {e : Expr} {failure : Failure} :
    (Walk.children e fun c _ => f c).Fails st failure ↔
      (each f e.node.visitOrder).Fails st failure := by
  simp only [Walk.children, fails_bind]
  refine (or_iff_left ?_).trans Node.fails_traverse
  rintro ⟨n, st₁, -, h⟩
  split at h
  · exact not_fails_pure h
  · exact not_fails_alloc h

/-- Where labels are identities, a walk through the children gives an expression of the same shape
around exactly what the visits gave. If every child came back as itself, this is the expression that
was there. -/
theorem Yields.children {h : Heap} {e : Expr} {cs : List Expr} (he : h.Holds e)
    (hcs : ∀ c ∈ cs, h.Holds c) (hnext : st'.supply.next = h.next)
    (heach : (each f e.node.visitOrder).Yields st cs st') :
    ∃ out st₂ h', (Walk.children e fun c _ => f c).Yields st out st₂ ∧ h ≤ h' ∧ h'.Holds out ∧
      st₂.supply.next = h'.next ∧ st₂.guard = st'.guard ∧ st₂.own = st'.own ∧
      out.node.shape = e.node.shape ∧ out.node.visitOrder = cs := by
  obtain ⟨n, hn, rfl⟩ := Node.exists_traverse heach
  obtain ⟨hshape, -⟩ := Node.shape_of_traverse hn
  have hchildren : ∀ c ∈ n.children, h.Holds c := fun c hc => hcs c (Node.mem_visitOrder.2 hc)
  simp only [Walk.children, yields_bind]
  by_cases hsame : sameChildren e.node n = true
  · -- equal labels mean equal children, so the visits gave back the node itself
    have hlabels : e.node.children = n.children :=
      Heap.eq_of_map_label (fun c hc => he.child hc) hchildren (by simpa [sameChildren] using hsame)
    have hnode : n.visitOrder = e.node.visitOrder := Node.visitOrder_congr hshape hlabels.symm
    refine ⟨e, st', h, ⟨n, st', hn, ?_⟩, h.le_refl, he, hnext, rfl, rfl, rfl, hnode.symm⟩
    rw [if_pos hsame]
    exact yields_pure.2 ⟨rfl, rfl⟩
  · refine ⟨.mk st'.supply.next n, { st' with supply := ⟨st'.supply.next + 1⟩ }, h.push n,
      ⟨n, st', hn, ?_⟩, h.le_push n, ?_, ?_, rfl, rfl, hshape, rfl⟩
    · rw [if_neg hsame]
      exact yields_alloc.2 ⟨rfl, rfl⟩
    · rw [hnext]
      refine Heap.holds_push fun c hc => ?_
      rcases List.mem_append.1 hc with hc | hc
      · exact hchildren c hc
      · rw [Expr.node_mk, ← Node.payload_shape, hshape, Node.payload_shape] at hc
        exact he.part (List.mem_append_right _ hc)
    · exact congrArg (· + 1) hnext

end Walk

end ExprTree
