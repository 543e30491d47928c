import Mathlib.Data.List.Perm.Basic
import ExprTree.Proofs.Copying
import ExprTree.Proofs.Idempotence
import ExprTree.Walk.Standard

/-!
# The order of a walk

`Node.children` lists the children of a node, and `Node.traverse` visits them while the node is put together
again. A walker that records what it visits shows whether the two agree. Its record is `Expr.walkOrder`, which
is `Expr.nodes` but for invocations: their arguments, with all that is below them, come before their target.
An extension node stops the walk, and then the record ends with the first of them
(`recording_visits_walkOrder`).

The state of a walk survives a failure, so the record of a walk that fails is looked at as well, and
`Walk.Yields` and `Walk.Fails` do not tell enough here. `Walker.Records` does.
-/

namespace ExprTree

open Walk

variable {σ α β : Type}

/-! ## Children, visited one after the other -/

/-- Visiting the children of a node is visiting their list, in every state and also if a visit fails. -/
theorem Node.map_visitOrder_traverse (f : Expr → Walk σ Expr) (n : Node) :
    Node.visitOrder <$> (n.traverse fun c _ => f c) = each f n.visitOrder := by
  have hoption : ∀ o : Option Expr, Option.toList <$> (visitOption o fun c _ => f c) = each f o.toList := by
    intro o
    cases o with
    | none => rfl
    | some c => simp only [visitOption, Option.toList, each, visitList, map_eq_pure_bind, bind_assoc, pure_bind]
  cases n with
  | unary | typeIs | conditional | lambda =>
    simp only [Node.traverse, Node.visitOrder, Node.children, each, visitList, map_eq_pure_bind, bind_assoc,
      pure_bind]
  | binary op l r c lifted method ty =>
    have hc := hoption c
    simp only [each] at hc
    simp only [Node.traverse, Node.visitOrder, Node.children, each, visitList, ← hc, map_eq_pure_bind,
      bind_assoc, pure_bind]
  | constant | «variable» | extension => rfl
  | memberAccess o member =>
    simp only [Node.visitOrder, Node.children, ← hoption, Node.traverse, map_eq_pure_bind, bind_assoc,
      pure_bind]
  | call o method args =>
    simp only [Node.visitOrder, Node.children, each_append, ← hoption, Node.traverse, map_eq_pure_bind,
      bind_assoc, pure_bind]
  | construct c =>
    simp only [Node.visitOrder, Node.children, Node.traverse, Construct.traverse, map_eq_pure_bind,
      bind_assoc, pure_bind, bind_pure]
  | newArray kind elem items =>
    simp only [Node.visitOrder, Node.children, Node.traverse, map_eq_pure_bind, bind_assoc, pure_bind,
      bind_pure]
  | invocation target args ty =>
    simp only [Node.visitOrder, each_append, each, visitList, Node.traverse, map_eq_pure_bind, bind_assoc,
      pure_bind]
  | memberInit c bs =>
    simp only [Node.visitOrder, Node.children, each_append, ← Binding.map_exprsOfAll_traverseAll f bs,
      Node.traverse, Construct.traverse, map_eq_pure_bind, bind_assoc, pure_bind]
  | listInit c es =>
    simp only [Node.visitOrder, Node.children, each_append, ← ElementInit.map_args_traverseAll f es,
      Node.traverse, Construct.traverse, map_eq_pure_bind, bind_assoc, pure_bind]

/-- A walk through the children fails where the visits of them do, in the state in which they do. -/
theorem Walk.children_error {f : Expr → Walk σ Expr} {e : Expr} {st st' : WalkState σ} {failure : Failure}
    (h : each f e.node.visitOrder st = (.error failure, st')) :
    Walk.children e (fun c _ => f c) st = (.error failure, st') := by
  rw [← Node.map_visitOrder_traverse, map_eq_pure_bind, run_bind] at h
  refine run_bind_error ?_ _
  rcases htraverse : e.node.traverse (fun c _ => f c) st with ⟨failure' | n, st₁⟩
  · rw [htraverse] at h
    cases h
    exact htraverse
  · rw [htraverse] at h
    cases h

/-! ## The order -/

namespace Expr

/-- All nodes reachable through children in the order of a walk: a node comes before the nodes below it, and
what is below a child before what is below the next one. The target of an invocation comes last. -/
def walkOrder : Expr → List Expr := fold fun e below =>
  match e.node, below with
  | .invocation .., target :: args => e :: (args.flatten ++ target)
  | _, below => e :: below.flatten

theorem walkOrder_eq (e : Expr) : e.walkOrder = e :: (e.node.visitOrder.map walkOrder).flatten := by
  rw [walkOrder, fold_eq, ← walkOrder]
  obtain ⟨l, n⟩ := e
  cases n with
  | invocation target args ty =>
    simp only [node_mk, children, Node.children, Node.visitOrder, List.map_cons, List.map_append, List.map_nil,
      List.flatten_append, List.flatten_cons, List.flatten_nil, List.append_nil]
  | _ => rfl

/-- A walk comes to every occurrence of a node once. -/
theorem walkOrder_perm (e : Expr) : e.walkOrder.Perm e.nodes := by
  induction e using childInduction with
  | step e ih =>
    have horder : e.node.visitOrder.Perm e.children := by
      obtain ⟨l, n⟩ := e
      cases n with
      | invocation target args ty => exact List.perm_append_singleton target args
      | _ => exact .refl _
    rw [walkOrder_eq, nodes_eq, ← List.flatMap_def, ← List.flatMap_def]
    exact .cons e (horder.flatMap fun c hc => ih c (Node.mem_visitOrder.1 hc))

theorem length_nodes (e : Expr) : e.nodes.length = e.countNodes := by
  induction e using childInduction with
  | step e ih =>
    rw [nodes_eq, countNodes_eq, List.length_cons, List.length_flatten, List.map_map, Nat.add_comm]
    exact congrArg (fun counts => 1 + counts.foldr (· + ·) 0) (List.map_congr_left ih)

/-- Without invocations a walk goes through the children in their order. -/
theorem walkOrder_eq_nodes {e : Expr} (h : ∀ x ∈ e.nodes, x.kind ≠ .invocation) : e.walkOrder = e.nodes := by
  induction e using childInduction with
  | step e ih =>
    have horder : e.node.visitOrder = e.children := by
      have hkind := h e (mem_nodes_self e)
      obtain ⟨l, n⟩ := e
      cases n with
      | invocation => exact absurd rfl hkind
      | _ => rfl
    rw [walkOrder_eq, nodes_eq, horder]
    have hbelow : e.children.map walkOrder = e.children.map nodes := List.map_congr_left fun c hc =>
      ih c hc fun x hx => h x (mem_nodes_of_mem_children hc hx)
    rw [hbelow]

end Expr

/-! ## Records -/

namespace Walker

/-- Records every node before it is visited, and changes nothing. -/
def recording (record : Expr → β) : Walker (Array β) where
  enter e := modifyOwn (·.push (record e))

/-- The walker that traces a tree records an entry for each node. -/
example : tracing = recording entry := rfl

variable {record : Expr → β} {st : WalkState (Array β)}

/-- The state after these nodes have been recorded. -/
def recorded (record : Expr → β) (st : WalkState (Array β)) (xs : List Expr) : WalkState (Array β) :=
  { st with own := st.own ++ (xs.map record).toArray }

theorem recorded_nil : recorded record st [] = st := by
  simp [recorded]

theorem recorded_append (xs ys : List Expr) :
    recorded record (recorded record st xs) ys = recorded record st (xs ++ ys) := by
  simp [recorded, Array.append_assoc]

/-- The step goes through these nodes. If none of them is an extension it records them all and succeeds, with
`a`. Otherwise it fails at the first extension, which it has recorded, too. -/
def Records (record : Expr → β) (st : WalkState (Array β)) (x : Walk (Array β) α) (a : α) (xs : List Expr) :
    Prop :=
  (∀ y ∈ xs, y.kind ≠ .extension) ∧ x st = (.ok a, recorded record st xs) ∨
    ∃ before y after kind ty, xs = before ++ y :: after ∧ (∀ z ∈ before, z.kind ≠ .extension) ∧
      y.node = .extension kind ty ∧
      x st = (.error (.unhandledKind kind), recorded record st (before ++ [y]))

theorem records_pure (a : α) : Records record st (pure a) a [] :=
  .inl ⟨by simp, by rw [recorded_nil]; rfl⟩

theorem Records.bind {γ : Type} {x : Walk (Array β) α} {f : α → Walk (Array β) γ} {a : α} {c : γ}
    {xs ys : List Expr} (hx : Records record st x a xs)
    (hf : Records record (recorded record st xs) (f a) c ys) : Records record st (x >>= f) c (xs ++ ys) := by
  obtain ⟨hxs, hx⟩ | ⟨before, y, after, kind, ty, rfl, hbefore, hy, hx⟩ := hx
  · have hrun : (x >>= f) st = f a (recorded record st xs) := Yields.run_bind hx f
    obtain ⟨hys, hf⟩ | ⟨before, y, after, kind, ty, rfl, hbefore, hy, hf⟩ := hf
    · refine .inl ⟨List.forall_mem_append.2 ⟨hxs, hys⟩, ?_⟩
      rw [hrun, hf, recorded_append]
    · refine .inr ⟨xs ++ before, y, after, kind, ty, by rw [List.append_assoc],
        List.forall_mem_append.2 ⟨hxs, hbefore⟩, hy, ?_⟩
      rw [hrun, hf, recorded_append, List.append_assoc]
  · refine .inr ⟨before, y, after ++ ys, kind, ty, by simp, hbefore, hy, ?_⟩
    exact run_bind_error hx f

/-- Expressions that are recorded one by one are recorded one after the other. -/
theorem records_each {f : Expr → Walk (Array β) Expr} {xs : List Expr} {order : Expr → List Expr}
    (h : ∀ x ∈ xs, ∀ st, st.guard = none → Records record st (f x) x (order x)) (hst : st.guard = none) :
    Records record st (each f xs) xs (xs.map order).flatten := by
  induction xs generalizing st with
  | nil => exact records_pure []
  | cons x xs ih =>
    obtain ⟨hx, hxs⟩ := List.forall_mem_cons.1 h
    rw [List.map_cons, List.flatten_cons]
    refine (hx st hst).bind ?_
    rw [← List.append_nil (xs.map order).flatten]
    have hrest : Records record (recorded record st (order x)) (each f xs) xs _ := ih hxs hst
    exact hrest.bind (f := fun ys => pure (x :: ys)) (records_pure (x :: xs))

/-- The expression comes back as itself if its children do. -/
theorem Records.children {f : Expr → Walk (Array β) Expr} {e : Expr} {xs : List Expr}
    (h : Records record st (each f e.node.visitOrder) e.node.visitOrder xs) :
    Records record st (Walk.children e fun c _ => f c) e xs := by
  obtain ⟨hxs, hrun⟩ | ⟨before, y, after, kind, ty, hsplit, hbefore, hy, hrun⟩ := h
  · exact .inl ⟨hxs, Yields.children_self hrun⟩
  · exact .inr ⟨before, y, after, kind, ty, hsplit, hbefore, hy, children_error hrun⟩

/-- Entering a node records it. -/
theorem recording_enter (e : Expr) :
    ((recording record).enter e).Yields st () (recorded record st [e]) := by
  have hpush : recorded record st [e] = { st with own := st.own.push (record e) } := by simp [recorded]
  exact hpush ▸ rfl

theorem guarded_run {x : Walk σ α} {st : WalkState σ} (hst : st.guard = none) : guarded x st = x st := by
  simp only [guarded, hst]

/-- A walk that records what it visits goes through a tree in the order of a walk. -/
theorem records_visit (e : Expr) (hst : st.guard = none) :
    Records record st ((recording record).visit e) e e.walkOrder := by
  induction e using Expr.childInduction generalizing st with
  | step e ih =>
    have hguard : (recorded record st [e]).guard = none := hst
    rw [Walker.visit]
    by_cases hkind : e.kind = .extension
    · -- the node is recorded before the walk fails at it, and there is nothing below it
      obtain ⟨l, n⟩ := e
      cases n with
      | extension kind ty =>
        refine .inr ⟨[], _, [], kind, ty, Expr.walkOrder_eq _, by simp, rfl, ?_⟩
        rw [(recording_enter _).run_bind, guarded_run hguard]
        rfl
      | _ => cases hkind
    · rw [Expr.walkOrder_eq]
      have hfirst : Records record st ((recording record).enter e) () [e] :=
        .inl ⟨List.forall_mem_singleton.2 hkind, recording_enter e⟩
      refine hfirst.bind ?_
      have hbelow : Records record (recorded record st [e])
          (Walk.children e fun c _ => (recording record).visit c) e
          (e.node.visitOrder.map Expr.walkOrder).flatten :=
        (records_each (fun c hc st hst => ih c (Node.mem_visitOrder.1 hc) hst) hguard).children
      unfold Records at hbelow ⊢
      rw [guarded_run hguard]
      obtain ⟨l, n⟩ := e
      cases n with
      | constant | «variable» => exact records_pure _
      | extension => exact absurd rfl hkind
      | _ => exact hbelow

end Walker

/-- The walker and the navigator see the same nodes. A walker that records each node and otherwise does
nothing visits what is reachable through children, every occurrence once: the order of its walk is a
rearrangement of the nodes, as many as are counted, and the very list where nothing is invoked. Either no node
is an extension, and then the walk records all of them in this order and gives the tree back; or the order
has a first extension, and then the walk records the nodes up to it, and it, and fails there. -/
theorem recording_visits_walkOrder (record : Expr → β) (own : Array β) (e : Expr) (supply : Supply) :
    e.walkOrder.Perm e.nodes ∧ e.walkOrder.length = e.countNodes ∧
      ((∀ x ∈ e.nodes, x.kind ≠ .invocation) → e.walkOrder = e.nodes) ∧
      ((∀ x ∈ e.nodes, x.kind ≠ .extension) ∧ (Walker.recording record).run none own e supply =
          (.ok e, { supply, guard := none, own := own ++ (e.walkOrder.map record).toArray }) ∨
        ∃ before x after kind ty, e.walkOrder = before ++ x :: after ∧
          (∀ y ∈ before, y.kind ≠ .extension) ∧ x.node = .extension kind ty ∧
          (Walker.recording record).run none own e supply = (.error (.unhandledKind kind),
            { supply, guard := none, own := own ++ ((before ++ [x]).map record).toArray })) := by
  refine ⟨e.walkOrder_perm, e.walkOrder_perm.length_eq.trans e.length_nodes, Expr.walkOrder_eq_nodes, ?_⟩
  have hrecords : Walker.Records record { supply, guard := none, own } ((Walker.recording record).visit e) e
      e.walkOrder := Walker.records_visit e rfl
  obtain ⟨hnone, hrun⟩ | hfirst := hrecords
  · exact .inl ⟨fun x hx => hnone x (e.walkOrder_perm.mem_iff.2 hx), hrun⟩
  · exact .inr hfirst

end ExprTree
