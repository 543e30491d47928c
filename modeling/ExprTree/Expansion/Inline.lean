import ExprTree.Expansion.Capture
import ExprTree.Expansion.Scope
import ExprTree.Walk.Basic

/-!
# Expansion

Expansion replaces every invocation of a lambda by the body of the lambda with its parameters
substituted, every read of a captured tree by the tree, and every marker call by what it marks. The
result is one tree that needs no further interpretation.

The bodies that get visited are not parts of the visited node, so expansion need not come to an end
by itself; the depth guard ends it. Each visit and each layer peeled off an invocation target takes
one level of the guard. The recursion below runs on the number of levels that are left.

* `peelTarget` finds the lambda that an invocation target stands for.
* `expandIn` expands in a scope, and `expand` expands a whole tree under a limit.
-/

namespace ExprTree

/-- What an expansion has done. -/
structure Stats where
  invocationsInlined : Nat := 0
  capturesResolved : Nat := 0
  markersUnwrapped : Nat := 0
  deriving DecidableEq, Inhabited

namespace Stats

/-- Has nothing been done? -/
def isEmpty (s : Stats) : Bool := s == {}

/-- Counts an inlined invocation. -/
def inlined (s : Stats) : Stats := { s with invocationsInlined := s.invocationsInlined + 1 }

/-- Counts a resolved capture. -/
def resolved (s : Stats) : Stats := { s with capturesResolved := s.capturesResolved + 1 }

/-- Counts an unwrapped marker. -/
def unwrapped (s : Stats) : Stats := { s with markersUnwrapped := s.markersUnwrapped + 1 }

end Stats

/-- A step of an expansion. -/
abbrev Expansion := Walk Stats

namespace Expansion

/-- Fails because no level is left. -/
def tooDeep {α : Type} : Expansion α := do
  match (← get).guard with
  | some g => throw (.depthExceeded g.limit)
  | none => throw (.depthExceeded 0)

/-- The parameters and the body of the lambda that an invocation target stands for, as written.
Every layer around it takes one of the given levels. -/
def peelTarget (scope : Scope) : (levels : Nat) → (target : Expr) → Expansion (List Variable × Expr)
  | 0, _ => tooDeep
  | levels + 1, target => Walk.guarded <|
    match target.node with
    | .lambda params body _ => pure (params, body)
    | .variable v =>
      match scope.lookup? v with
      | none => throw (.unresolvedTarget .unboundVariable)
      | some replacement =>
        match replacement.node with
        -- a replacement is expanded: a variable left in it was free where it was bound
        | .variable _ => throw (.unresolvedTarget .unboundVariable)
        | _ => peelTarget scope levels replacement
    | .memberAccess object member =>
      match member.capturedTree? object with
      | none => throw (.unresolvedTarget (.node .memberAccess))
      | some tree => do
        Walk.modifyOwn Stats.resolved
        peelTarget scope levels tree
    | .call object method args =>
      match method.marker with
      | some .compile =>
        match object with
        | none => throw (.malformedMarker .compile args.length)
        | some tree => do
          Walk.modifyOwn Stats.unwrapped
          peelTarget scope levels tree
      | _ => throw (.unresolvedTarget (.node .call))
    | .constant (.tree tree) _ => peelTarget scope levels tree
    | .unary .quote operand _ _ => peelTarget scope levels operand
    | other => throw (.unresolvedTarget (.node other.kind))

/-- Expands an expression in a scope, with a number of levels left. -/
def expandIn : (levels : Nat) → (scope : Scope) → (e : Expr) → Expansion Expr
  | 0, _, _ => tooDeep
  | levels + 1, scope, e => Walk.guarded <|
    let inline (target : Expr) (args : List Expr) : Expansion Expr := do
      let (params, body) ← peelTarget scope levels target
      if params.length ≠ args.length then
        throw (.arityMismatch params.length args.length)
      let replacements ← visitList args fun a _ => expandIn levels scope a
      let inner ← liftM (scope.extend (params.zip replacements))
      Walk.modifyOwn Stats.inlined
      expandIn levels inner body
    let capture (tree : Expr) : Expansion Expr := do
      Walk.modifyOwn Stats.resolved
      expandIn levels scope tree
    let descend : Expansion Expr := Walk.children e fun c _ => expandIn levels scope c
    match e.node with
    | .variable v => pure ((scope.lookup? v).getD e)
    | .constant .. => pure e
    | .extension kind _ => throw (.unhandledKind kind)
    | .invocation target args _ => inline target args
    | .memberAccess object member =>
      match member.capturedTree? object with
      | some tree => capture tree
      | none => descend
    | .call object method args =>
      match method.marker with
      | some .invoke =>
        match args with
        | target :: args => inline target args
        | [] => throw (.malformedMarker .invoke 0)
      | some .asExpandable =>
        match args with
        | [query] => do
          Walk.modifyOwn Stats.unwrapped
          expandIn levels scope query
        | _ => throw (.malformedMarker .asExpandable args.length)
      | some .compile =>
        match object.map Expr.node with
        | some (.memberAccess inner member) =>
          match member.capturedTree? inner with
          | some tree => do
            Walk.modifyOwn Stats.unwrapped
            capture tree
          | none => descend
        | _ => descend
      | none => descend
    | _ => descend

end Expansion

/-- An expanded tree and what it took. -/
structure Expanded where
  tree : Expr
  stats : Stats

/-- The nesting limit of an expansion where none is given. -/
def defaultMaxDepth : Nat := 10000

/-- Expands a tree under a nesting limit. A failed expansion draws no identities. -/
def expand (limit : Nat) (e : Expr) (supply : Supply) : Except Failure (Expanded × Supply) :=
  match Expansion.expandIn limit .root e { supply, guard := some { limit }, own := {} } with
  | (.ok tree, s) => .ok (⟨tree, s.own⟩, s.supply)
  | (.error failure, _) => .error failure

end ExprTree
