import ExprTree.Tree.Basic

/-!
# Failures of a walk

A walk over a tree fails for one of the causes listed in `Failure`. The wording of a cause is
`Failure.message`. All causes but one are fatal: a recursive binding is a property of a well-formed
tree, the others mean that the tree is malformed, unsupported or too deep.
-/

namespace ExprTree

/-- What stands where a lambda was expected. -/
inductive Obstacle where
  | unboundVariable
  | node (kind : Kind)
  deriving DecidableEq, Inhabited

/-- The words for an obstacle. -/
def Obstacle.text : Obstacle → String
  | .unboundVariable => "unbound variable"
  | .node kind => kind.text

/-- Why a walk fails. -/
inductive Failure where
  /-- A parameter would be bound again inside its own scope. -/
  | recursiveBinding (parameter : String)
  /-- The target of an invocation leads to no lambda. -/
  | unresolvedTarget (found : Obstacle)
  /-- A lambda is invoked with the wrong number of arguments. -/
  | arityMismatch (expected found : Nat)
  /-- The tree holds an extension node. -/
  | unhandledKind (kind : String)
  /-- A marker call has the wrong shape; `found` counts its arguments. -/
  | malformedMarker (marker : Marker) (found : Nat)
  /-- The walk is nested deeper than the limit. -/
  | depthExceeded (limit : Nat)
  deriving DecidableEq, Inhabited

/-- What a marker call has to hold. -/
def Marker.expectation : Marker → String
  | .invoke => "a target followed by its arguments"
  | .asExpandable => "exactly one argument"
  | .compile => "an expression tree object"

namespace Failure

/-- The message of a failure. -/
def message : Failure → String
  | .recursiveBinding parameter =>
    "recursive invoke not permitted: parameter '" ++ parameter
      ++ "' is already bound in this scope; introduce an intermediate binding"
  | .unresolvedTarget found =>
    "invocation target does not resolve to a lambda (found " ++ found.text ++ ")"
  | .arityMismatch expected found =>
    "lambda takes " ++ toString expected ++ " argument(s) but is invoked with " ++ toString found
  | .unhandledKind kind => "unhandled node kind '" ++ kind ++ "'"
  | .malformedMarker marker found =>
    "marker call '" ++ marker.name ++ "' expects " ++ marker.expectation ++ ", found "
      ++ toString found ++ " argument(s)"
  | .depthExceeded limit =>
    "expression nesting exceeds the limit of " ++ toString limit ++ " levels"

/-- Fatal failures mean a malformed or unsupported tree. -/
def isFatal : Failure → Bool
  | .recursiveBinding _ => false
  | _ => true

end Failure

end ExprTree
