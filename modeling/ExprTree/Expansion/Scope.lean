import ExprTree.Failure

/-!
# Scopes of parameter substitutions

A scope maps parameters to the expressions that replace them. Scopes are nested: a child scope sees
all bindings of its parents. Replacements are already expanded when they are bound, so what a lookup
finds is final. `Scope.extend` refuses to bind a parameter a second time along the chain.
-/

namespace ExprTree

/-- A chain of scopes, the innermost first; each scope lists its bindings. -/
structure Scope where
  frames : List (List (Variable × Expr))

namespace Scope

/-- The empty top-level scope. -/
def root : Scope := ⟨[[]]⟩

/-- All bindings visible from a scope. -/
def bindings (s : Scope) : List (Variable × Expr) := s.frames.flatten

/-- The replacement of a variable. -/
def lookup? (s : Scope) (v : Variable) : Option Expr := s.bindings.lookup v

/-- Is the variable bound here or further out? -/
def binds (s : Scope) (v : Variable) : Bool := (s.lookup? v).isSome

/-- The bindings of a new frame inside `s`, given the ones made so far. -/
def bindAll (s : Scope) (frame : List (Variable × Expr)) :
    List (Variable × Expr) → Except Failure (List (Variable × Expr))
  | [] => .ok frame
  | (v, e) :: rest =>
    if s.binds v || (frame.lookup v).isSome then .error (.recursiveBinding v.name)
    else s.bindAll (frame ++ [(v, e)]) rest

/-- A child scope with the given bindings. It fails if a parameter is already bound along the chain
or occurs twice, since such an inlining would substitute into its own body. -/
def extend (s : Scope) (pairs : List (Variable × Expr)) : Except Failure Scope := do
  let frame ← s.bindAll [] pairs
  return ⟨frame :: s.frames⟩

/-- The number of scopes from this one out to the top. -/
def depth (s : Scope) : Nat := s.frames.length

/-- The number of bindings visible from this scope. -/
def size (s : Scope) : Nat := s.bindings.length

end Scope

end ExprTree
