import ExprTree.Tree.Children

/-!
# Captured trees and what is left to expand

A lambda that refers to a variable of an enclosing scope reads it as a field of a closure held in a
constant. If that field holds a tree, the read can be replaced by the tree: `Node.capturedTree?`.

`residue` counts the places of a tree that expansion would act on. For captured reads it asks only
whether the closure has a tree in the field, whatever the name of the closure.
-/

namespace ExprTree

/-- The closure that a constant refers to. -/
def Expr.closure? (e : Expr) : Option (Closure Value) :=
  match e.node with
  | .constant (.closure c) _ => some c
  | _ => none

/-- The tree that a value carries. -/
def Value.tree? : Value → Option Expr
  | .tree t => some t
  | _ => none

/-- The closure and the tree that a read of `member` finds at `object`, if `member` is a captured
field which holds a tree. -/
def Member.heldTree? (member : Member) (object : Option Expr) : Option (Closure Value × Expr) := do
  guard member.isCapturedField
  let object ← object
  let closure ← object.closure?
  let value ← closure.field? member.name
  let tree ← value.tree?
  return (closure, tree)

/-- The tree that a captured read stands for: the field must hold one, and the closure must be an
instance of the member's capture type. -/
def Member.capturedTree? (member : Member) (object : Option Expr) : Option Expr := do
  let (closure, tree) ← member.heldTree? object
  guard (closure.name == member.owner.name)
  return tree

/-- The constructs in a tree that only expansion can interpret. -/
structure Residue where
  invocations : Nat := 0
  invokeCalls : Nat := 0
  expandableCalls : Nat := 0
  capturedTrees : Nat := 0
  deriving DecidableEq, Inhabited

namespace Residue

instance : Add Residue where
  add a b :=
    { invocations := a.invocations + b.invocations
      invokeCalls := a.invokeCalls + b.invokeCalls
      expandableCalls := a.expandableCalls + b.expandableCalls
      capturedTrees := a.capturedTrees + b.capturedTrees }

/-- Is nothing left to expand? -/
def isEmpty (r : Residue) : Bool := r == {}

/-- What a node itself contributes, its children aside. -/
def ofNode : Node → Residue
  | .invocation .. => { invocations := 1 }
  | .call _ method _ =>
    match method.marker with
    | some .invoke => { invokeCalls := 1 }
    | some .asExpandable => { expandableCalls := 1 }
    | _ => {}
  | .memberAccess object member =>
    if (member.heldTree? object).isSome then { capturedTrees := 1 } else {}
  | _ => {}

end Residue

/-- The expansion targets in a tree. -/
def Expr.residue : Expr → Residue :=
  Expr.fold fun e below => below.foldl (· + ·) (Residue.ofNode e.node)

end ExprTree
