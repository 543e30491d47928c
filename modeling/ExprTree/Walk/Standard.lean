import ExprTree.Tree.Describe
import ExprTree.Walk.Basic

/-!
# Some walkers

Small walkers that show what a walk does: one that changes nothing, one that records the nodes in
the order in which they are visited, and three that record and replace one sort of leaf.
-/

namespace ExprTree

namespace Walker

/-- Visits everything and changes nothing. -/
def plain : Walker Unit := {}

/-- The record of a visited node: its kind, and for a leaf what it holds. -/
def entry (e : Expr) : String :=
  match e.node with
  | .variable v => "variable " ++ v.name
  | .constant value _ => "constant " ++ value.describe
  | n => n.kind.text

/-- Records every node before it is visited. -/
def tracing : Walker (Array String) where
  enter e := Walk.modifyOwn (·.push (entry e))

/-- Replaces every integer constant by its successor, of type `Int`; the greatest one wraps
around. -/
def bumping : Walker (Array String) :=
  { tracing with
    constant := fun e value =>
      match value with
      | .int n => Walk.alloc (.int (n + 1))
      | _ => pure e }

/-- Replaces every string constant by one in upper case; only ASCII letters have one. -/
def capitalizing : Walker (Array String) :=
  { tracing with
    constant := fun e value =>
      match value with
      | .str s => Walk.alloc (.str (s.map Char.toUpper))
      | _ => pure e }

/-- Replaces every variable by zero. -/
def zeroing : Walker (Array String) :=
  { tracing with var := fun _ _ => Walk.alloc (.int 0) }

/-- Runs a walker on a tree, under a nesting limit if one is given. The state is kept if it
fails. -/
def run {σ : Type} (w : Walker σ) (limit : Option Nat) (own : σ) (e : Expr) (supply : Supply) :
    Except Failure Expr × WalkState σ :=
  (w.visit e).run { supply, guard := limit.map fun limit => { limit }, own }

end Walker

end ExprTree
