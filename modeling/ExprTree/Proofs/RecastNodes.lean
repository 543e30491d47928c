import Mathlib.Data.Option.Basic
import ExprTree.Proofs.RecastParts

/-!
# What is done at a recast node

What a visit does at a node does not depend on identities: at a recast node it is the same action, with
everything it refers to recast (`Node.action_recast`), and a recast invocation target has the same
layers (`Node.layer_recast`). The owners of members have to be kept, since they tell captured reads
from others.

The shape of a recast node depends on the shape of the node alone (`Node.shape_recast_congr`), so two
nodes that recast alike still do so after their children have been replaced by others that recast
alike (`Node.recast_eq_of_children`).
-/

namespace ExprTree

/-- The action with all that it refers to recast. -/
def Action.recast (r : Recasting) : Action → Action
  | .look v => .look (r.var v)
  | .pass => .pass
  | .inline target args => .inline (target.recast r) (args.map (·.recast r))
  | .capture compiled tree => .capture compiled (tree.recast r)
  | .unwrap query => .unwrap (query.recast r)
  | .descend => .descend
  | .fail failure => .fail failure

/-- The layer with all that it refers to recast. -/
def Layer.recast (r : Recasting) : Layer → Layer
  | .lambda params body => .lambda (params.map r.var) (body.recast r)
  | .var v => .var (r.var v)
  | .around count inner => .around count (inner.recast r)
  | .blocked failure => .blocked failure

section Recast

variable {r : Recasting}

theorem Expr.closure?_recast (e : Expr) : (e.recast r).closure? = e.closure?.map (·.recast r) := by
  obtain ⟨l, n⟩ := e
  cases n with
  | constant v t =>
    cases v with
    | closure c => simp only [recast, Node.recast, Value.recast_closure, closure?, node_mk, Option.map_some]
    | _ => simp only [recast, Node.recast, Value.recast, closure?, node_mk, Option.map_none]
  | _ => rfl

theorem Value.tree?_recast (v : Value) : (v.recast r).tree? = v.tree?.map (·.recast r) := by
  cases v with
  | closure c => rw [recast_closure]; rfl
  | _ => simp only [recast, tree?, Option.map_none, Option.map_some]

theorem Closure.field?_recast (c : Closure Value) (name : String) :
    (c.recast r).field? name = (c.field? name).map (·.recast r) := by
  rw [field?, field?, recast, Value.recastFields_eq_map, List.find?_map, Option.map_map, Option.map_map]
  rfl

/-- A captured read finds the same tree, recast. -/
theorem Member.capturedTree?_recast (m : Member) (o : Option Expr) :
    m.capturedTree? (Expr.recastOption r o) = (m.capturedTree? o).map (·.recast r) := by
  cases hfield : m.isCapturedField with
  | false => simp [capturedTree?, heldTree?, hfield, failure]
  | true =>
    cases o with
    | none => simp [capturedTree?, heldTree?, hfield, Expr.recastOption]
    | some e =>
      cases hc : e.closure? with
      | none => simp [capturedTree?, heldTree?, hfield, Expr.recastOption, Expr.closure?_recast, hc]
      | some c =>
        cases hv : c.field? m.name with
        | none =>
          simp [capturedTree?, heldTree?, hfield, Expr.recastOption, Expr.closure?_recast, hc,
            Closure.field?_recast, hv]
        | some v =>
          have hname : (c.recast r).name = c.name := rfl
          cases ht : v.tree? <;> by_cases howner : c.name = m.owner.name <;>
            simp [capturedTree?, heldTree?, hfield, Expr.recastOption, Expr.closure?_recast, hc,
              Closure.field?_recast, hv, Value.tree?_recast, ht, hname, howner, guard, failure]

/-- At a recast node the same is done. -/
theorem Node.action_recast (howner : r.owner = id) (n : Node) :
    (n.recast r).action = n.action.recast r := by
  cases n with
  | memberAccess o m =>
    rw [Node.recast, Member.recast_of_owner howner]
    simp only [action, Member.capturedTree?_recast]
    cases m.capturedTree? o <;> rfl
  | call o m as =>
    simp only [Node.recast, action, Expr.recastList_eq_map]
    rcases m.marker with _ | _ | _ | _
    · rfl
    · cases as <;> rfl
    · rcases as with _ | ⟨query, _ | ⟨next, rest⟩⟩
      · rfl
      · rfl
      · simp [Action.recast]
    · rcases o with _ | ⟨l, n⟩
      · rfl
      · cases n with
        | memberAccess inner m =>
          simp only [Expr.recastOption, Expr.recast, Node.recast, Option.map_some, Expr.node_mk,
            Member.recast_of_owner howner, Member.capturedTree?_recast]
          cases m.capturedTree? inner <;> rfl
        | _ => rfl
  | invocation e as t => simp only [Node.recast, action, Action.recast, Expr.recastList_eq_map]
  | _ => rfl

/-- A recast target has the same layers. -/
theorem Node.layer_recast (howner : r.owner = id) (n : Node) : (n.recast r).layer = n.layer.recast r := by
  cases n with
  | memberAccess o m =>
    rw [Node.recast, Member.recast_of_owner howner]
    simp only [layer, Member.capturedTree?_recast]
    cases m.capturedTree? o <;> rfl
  | call o m as =>
    simp only [Node.recast, layer]
    rcases m.marker with _ | _ | _ | _
    · rfl
    · rfl
    · rfl
    · cases o with
      | none => simp [Expr.recastOption, Layer.recast]
      | some e => rfl
  | constant v t =>
    cases v with
    | closure c => rw [Node.recast, Value.recast_closure]; rfl
    | tree t => simp only [Node.recast, Value.recast, layer, Layer.recast]
    | _ => simp only [Node.recast, Value.recast, layer, Layer.recast, kind]
  | unary op e t m => cases op <;> rfl
  | _ => rfl

/-! ## Shapes -/

private theorem visitList_default_recast (es : List Expr) :
    (visitList (Expr.recastList r es) fun _ _ => pure default : Id (List Expr)) =
      visitList es fun _ _ => pure default := by
  induction es with
  | nil => rfl
  | cons e es ih => exact congrArg (default :: ·) ih

private theorem visitOption_default_recast (o : Option Expr) :
    (visitOption (Expr.recastOption r o) fun _ _ => pure default : Id (Option Expr)) =
      visitOption o fun _ _ => pure default := by
  cases o <;> rfl

private theorem construct_default_recast (howner : r.owner = id) (c : Construct Expr) :
    ((Expr.recastConstruct r c).traverse fun _ _ => pure default : Id (Construct Expr)) =
      c.traverse fun _ _ => pure default := by
  obtain ⟨t, as, ms⟩ := c
  have hms : (ms.map fun ms => ms.map (·.recast r)) = ms := by
    cases ms with
    | none => rfl
    | some ms => simp [Member.recast_of_owner howner]
  exact congrArg₂ (Construct.mk t) (visitList_default_recast as) hms

private theorem elements_default_recast (es : List (ElementInit Expr)) :
    (ElementInit.traverseAll (Expr.recastElements r es) fun _ _ => pure default :
      Id (List (ElementInit Expr))) = ElementInit.traverseAll es fun _ _ => pure default := by
  induction es with
  | nil => rfl
  | cons i es ih =>
    obtain ⟨m, as⟩ := i
    exact congrArg₂ (fun as es => (⟨m, as⟩ : ElementInit Expr) :: es) (visitList_default_recast as) ih

mutual

private theorem binding_default_recast (howner : r.owner = id) : ∀ b : Binding Expr,
    ((Expr.recastBinding r b).traverse fun _ _ => pure default : Id (Binding Expr)) =
      b.traverse fun _ _ => pure default
  | .assign m e => by
    rw [Expr.recastBinding, Member.recast_of_owner howner]
    rfl
  | .nested m bs => by
    rw [Expr.recastBinding, Member.recast_of_owner howner, Binding.traverse, Binding.traverse]
    exact congrArg (Binding.nested m) (bindings_default_recast howner bs)
  | .elements m es => by
    rw [Expr.recastBinding, Member.recast_of_owner howner, Binding.traverse, Binding.traverse]
    exact congrArg (Binding.elements m) (elements_default_recast es)

private theorem bindings_default_recast (howner : r.owner = id) : ∀ bs : List (Binding Expr),
    (Binding.traverseAll (Expr.recastBindings r bs) fun _ _ => pure default :
      Id (List (Binding Expr))) = Binding.traverseAll bs fun _ _ => pure default
  | [] => rfl
  | b :: bs => by
    rw [Expr.recastBindings, Binding.traverseAll, Binding.traverseAll]
    exact congrArg₂ List.cons (binding_default_recast howner b) (bindings_default_recast howner bs)

end

namespace Node

/-- A node has the shape of the recast one, unless there are variables or payloads in it. -/
theorem shape_recast (howner : r.owner = id) {n : Node} (hlambda : n.kind ≠ .lambda)
    (hvariable : n.kind ≠ .variable) (hconstant : n.kind ≠ .constant) :
    (n.recast r).shape = n.shape := by
  cases n with
  | lambda => exact absurd rfl hlambda
  | «variable» => exact absurd rfl hvariable
  | constant => exact absurd rfl hconstant
  | unary | typeIs | conditional | extension => rfl
  | binary op x y c lifted m t =>
    exact congrArg (Node.binary op default default · lifted m t) (visitOption_default_recast c)
  | memberAccess o m =>
    rw [Node.recast, Member.recast_of_owner howner]
    exact congrArg (Node.memberAccess · m) (visitOption_default_recast o)
  | call o m as =>
    exact congrArg₂ (Node.call · m ·) (visitOption_default_recast o) (visitList_default_recast as)
  | construct c => exact congrArg Node.construct (construct_default_recast howner c)
  | newArray k t es => exact congrArg (Node.newArray k t) (visitList_default_recast es)
  | invocation e as t => exact congrArg (Node.invocation default · t) (visitList_default_recast as)
  | memberInit c bs =>
    exact congrArg₂ Node.memberInit (construct_default_recast howner c) (bindings_default_recast howner bs)
  | listInit c es =>
    exact congrArg₂ Node.listInit (construct_default_recast howner c) (elements_default_recast es)

theorem kind_recast (n : Node) : (n.recast r).kind = n.kind := by cases n <;> rfl

theorem shape_recast_congr (howner : r.owner = id) {n m : Node} (h : n.shape = m.shape) :
    (n.recast r).shape = (m.recast r).shape := by
  have hkind := kind_eq_of_shape h
  cases n with
  | lambda ps b t =>
    obtain ⟨b', rfl⟩ := lambda_of_shape h.symm
    rfl
  | «variable» v =>
    cases m <;> cases h
    rfl
  | constant v t =>
    cases m <;> cases h
    rfl
  | _ =>
    rw [shape_recast howner (by simp [kind]) (by simp [kind]) (by simp [kind]),
      shape_recast howner (by rw [← hkind]; simp [kind]) (by rw [← hkind]; simp [kind])
        (by rw [← hkind]; simp [kind]), h]

theorem visitOrder_recast (n : Node) : (n.recast r).visitOrder = n.visitOrder.map (·.recast r) := by
  rw [visitOrder_eq, visitOrder_eq, kind_recast, children_recast]
  split
  · rw [List.map_append, List.map_tail, List.map_take]
  · rfl

/-- Nodes that recast alike, with their children replaced by others that recast alike. -/
theorem recast_eq_of_children {s : Recasting} (hr : r.owner = id) (hs : s.owner = id)
    {n n' m m' : Node} (h : n'.recast s = n.recast r) (hshape : m.shape = n.shape)
    (hshape' : m'.shape = n'.shape)
    (horder : m'.visitOrder.map (·.recast s) = m.visitOrder.map (·.recast r)) :
    m'.recast s = m.recast r := by
  refine eq_of_shape ?_ ?_
  · rw [shape_recast_congr hs hshape', h, shape_recast_congr hr hshape]
  · rw [visitOrder_recast, visitOrder_recast, horder]

end Node

end Recast

end ExprTree
