import ExprTree.Expansion.Inline

/-!
# Expandable queries

A query is an expression together with the type of its elements; its provider makes and executes
queries. Wrapping a query as expandable makes its provider expand every expression before the
backend sees it, so that the backend meets expanded trees only while callers compose reusable ones.
-/

namespace ExprTree

/-- Why a provider fails. -/
inductive QueryError where
  | expansion (failure : Failure)
  | backend (message : String)
  deriving DecidableEq, Inhabited

/-- The message of a query error. -/
def QueryError.message : QueryError → String
  | .expansion failure => "cannot expand query expression: " ++ failure.message
  | .backend message => "query backend failed: " ++ message

/-- A composable query. -/
inductive Query where
  /-- A query of the backend. -/
  | plain (expr : Expr) (element : Ty)
  /-- A query whose provider expands expressions, under a nesting limit, before delegating. -/
  | expandable (inner : Query) (limit : Nat)

namespace Query

/-- The expression of a query. -/
def expr : Query → Expr
  | .plain e _ => e
  | .expandable inner _ => inner.expr

/-- The type of the elements of a query. -/
def element : Query → Ty
  | .plain _ ty => ty
  | .expandable inner _ => inner.element

/-- Does the query expand what it hands to its backend? -/
def isExpandable : Query → Bool
  | .plain .. => false
  | .expandable .. => true

/-- The query with a provider that expands; an expandable query is returned as it is. -/
def asExpandable (q : Query) (limit : Nat) : Query :=
  match q with
  | .plain .. => .expandable q limit
  | .expandable .. => q

end Query

/-- A step of a provider over a backend with state `σ`; it may draw identities. -/
abbrev QueryStep (σ : Type) := ExceptT QueryError (StateM (σ × Supply))

/-- Makes and executes queries. -/
structure Provider (σ : Type) where
  /-- Makes a query with the given element type. -/
  create : Expr → Ty → QueryStep σ Query
  /-- Makes a query whose element type the provider infers. -/
  createUntyped : Expr → QueryStep σ Query
  /-- Executes an expression for a result of the given type. -/
  execute : Expr → Ty → QueryStep σ Value
  /-- Executes an expression. -/
  executeUntyped : Expr → QueryStep σ Value

namespace Provider

variable {σ : Type}

/-- Expands an expression; if that fails, nothing else happens. -/
def expanded (limit : Nat) (e : Expr) : QueryStep σ Expr := do
  let (own, supply) ← get
  match expand limit e supply with
  | .ok (r, supply) =>
    set (own, supply)
    return r.tree
  | .error failure => throw (.expansion failure)

/-- The provider that expands every expression before delegating to `inner`. Typed queries stay
expandable, so that what is composed from them is expanded too. -/
def expanding (inner : Provider σ) (limit : Nat) : Provider σ where
  create e element := do
    let q ← inner.create (← expanded limit e) element
    return q.asExpandable limit
  createUntyped e := do inner.createUntyped (← expanded limit e)
  execute e result := do inner.execute (← expanded limit e) result
  executeUntyped e := do inner.executeUntyped (← expanded limit e)

end Provider

/-- The provider of a query over a backend. -/
def Query.provider {σ : Type} (backend : Provider σ) : Query → Provider σ
  | .plain .. => backend
  | .expandable inner limit => (inner.provider backend).expanding limit

/-! ## A backend that records -/

/-- A call that a backend received. -/
structure QueryCall where
  /-- The name of the operation. -/
  operation : String
  expr : Expr
  /-- The type given with a typed call. -/
  ty : Option Ty

/-- The calls that a recording backend received, and whether it refuses further ones. -/
structure Recorder where
  calls : Array QueryCall := #[]
  refuses : Bool := false

namespace Recorder

/-- Records a call, or refuses it. -/
def record (call : QueryCall) : QueryStep Recorder Unit := do
  let (r, supply) ← get
  if r.refuses then throw (.backend (call.operation ++ " refused"))
  set ({ r with calls := r.calls.push call }, supply)

/-- A backend that records its calls. It executes an expression to the number of calls so far, or
untyped to the expression itself. -/
def backend : Provider Recorder where
  create e element := do
    record { operation := "create_query", expr := e, ty := some element }
    return .plain e element
  createUntyped e := do
    record { operation := "create_untyped_query", expr := e, ty := none }
    return .plain e (e.ty.elementType?.getD .object)
  execute e result := do
    record { operation := "execute", expr := e, ty := some result }
    return .int (Int64.ofNat (← get).1.calls.size)
  executeUntyped e := do
    record { operation := "execute_untyped", expr := e, ty := none }
    return .tree e

end Recorder

end ExprTree
