import ExprTree.Ty

/-!
# Members, methods and markers

A node may refer to a member of a declaring type or to a method. Two distinctions matter later: a
member may be declared on a closure capture type (`Owner.capture`), and a method may be one of the
markers of the expansion interface (`Marker`).
-/

namespace ExprTree

/-- The declaring type of a member. -/
inductive Owner where
  | type (name : String)
  /-- A capture type, made for the variables of an enclosing scope. -/
  | capture (name : String)
  deriving DecidableEq, Inhabited

/-- The name of a declaring type. -/
def Owner.name : Owner → String
  | .type name | .capture name => name

/-- Is the declaring type a capture type? -/
def Owner.isCapture : Owner → Bool
  | .type _ => false
  | .capture _ => true

/-- The kinds of members. -/
inductive MemberKind where
  | field
  | property
  deriving DecidableEq, Inhabited

/-- The word a member kind is written as. -/
def MemberKind.word : MemberKind → String
  | .field => "field"
  | .property => "prop"

/-- A reference to a member of a type. -/
structure Member where
  owner : Owner
  name : String
  kind : MemberKind
  ty : Ty
  deriving DecidableEq, Inhabited

namespace Member

/-- Is this a field declared on a capture type? -/
def isCapturedField (m : Member) : Bool := m.owner.isCapture && m.kind == .field

/-- The spelling `Owner::name`. -/
def path (m : Member) : String := m.owner.name ++ "::" ++ m.name

end Member

/-- The marker calls of the expansion interface. -/
inductive Marker where
  /-- Invokes a lambda given as an expression tree; the target is the first argument. -/
  | invoke
  /-- Marks a nested query as expandable. -/
  | asExpandable
  /-- Turns an expression tree into a delegate. -/
  | compile
  deriving DecidableEq, Inhabited

/-- The method name of a marker. -/
def Marker.name : Marker → String
  | .invoke => "Invoke"
  | .asExpandable => "AsExpandable"
  | .compile => "Compile"

/-- A reference to a method. -/
structure Method where
  owner : String
  name : String
  isStatic : Bool
  ret : Ty
  marker : Option Marker := none
  deriving DecidableEq, Inhabited

namespace Method

/-- The spelling `Owner::name`. -/
def path (m : Method) : String := m.owner ++ "::" ++ m.name

/-- The method of a marker call returning `ret`. -/
def ofMarker (k : Marker) (ret : Ty) : Method where
  owner := match k with
    | .invoke | .asExpandable => "Expandable"
    | .compile => "Expr"
  name := k.name
  isStatic := match k with
    | .invoke | .asExpandable => true
    | .compile => false
  ret := ret
  marker := some k

end Method

end ExprTree
