import ExprTree.Operator
import ExprTree.Reference
import ExprTree.Binary64.Basic

/-!
# Expression trees

A tree is made of nodes. Nodes are immutable, and each one carries a *label*: the identity it got
when it was made. Labels come from a `Supply`, which never gives the same one twice, so two nodes
with one label are the same node and a walk can tell "returned as it was" from "built again with
equal parts". Variables and closures have identities of the same kind.

* `Expr` is a labelled node, `Node` what stands at it, `Value` the payload of a constant.
* `Construct`, `ElementInit` and `Binding` are the parts of constructor calls and initializers.
* `Node.ty` is the declared type and `Node.kind` the kind of a node.
* `Node.unaryOf`, `Node.binaryOf` and the others make nodes whose type follows from their parts.
-/

namespace ExprTree

/-- A bound or free variable. Its identity is `id`; names may repeat. -/
structure Variable where
  id : Nat
  name : String
  ty : Ty
  deriving DecidableEq, Inhabited

/-- A container for variables captured from an enclosing scope, with its fields in order. -/
structure Closure (ν : Type) where
  id : Nat
  name : String
  fields : List (String × ν)

/-- The value of the first field with a given name. -/
def Closure.field? {ν : Type} (c : Closure ν) (name : String) : Option ν :=
  (c.fields.find? (·.1 == name)).map (·.2)

/-- A constructor call; `members` lists the members its arguments initialize, if it says so. -/
structure Construct (α : Type) where
  ty : Ty
  args : List α
  members : Option (List Member)

/-- One `Add` call of a collection initializer. -/
structure ElementInit (α : Type) where
  addMethod : Method
  args : List α

/-- A member binding of an object initializer. -/
inductive Binding (α : Type) where
  /-- The member is set to an expression. -/
  | assign (member : Member) (expr : α)
  /-- The members of the member are bound in turn. -/
  | nested (member : Member) (bindings : List (Binding α))
  /-- Elements are added to the member. -/
  | elements (member : Member) (elements : List (ElementInit α))

/-- The two ways to make an array. -/
inductive ArrayKind where
  /-- From its elements. -/
  | elements
  /-- From its bounds. -/
  | bounds
  deriving DecidableEq, Inhabited

mutual

/-- An expression: a node together with its identity. -/
inductive Expr where
  | mk (label : Nat) (node : Node)

/-- What stands at one place of a tree. -/
inductive Node where
  | unary (op : UnaryOp) (operand : Expr) (ty : Ty) (method : Option Method)
  /-- `conversion` is the lambda that a coalescing operator applies. -/
  | binary (op : BinaryOp) (left right : Expr) (conversion : Option Expr) (lifted : Bool)
      (method : Option Method) (ty : Ty)
  | typeIs (operand : Expr) (tested : Ty)
  | conditional (test ifTrue ifFalse : Expr) (ty : Ty)
  | constant (value : Value) (ty : Ty)
  | variable (var : Variable)
  /-- No object for a static member. -/
  | memberAccess (object : Option Expr) (member : Member)
  /-- No object for a static method. -/
  | call (object : Option Expr) (method : Method) (args : List Expr)
  | lambda (params : List Variable) (body : Expr) (ty : Ty)
  | construct (call : Construct Expr)
  | newArray (kind : ArrayKind) (elem : Ty) (items : List Expr)
  | invocation (target : Expr) (args : List Expr) (ty : Ty)
  | memberInit (call : Construct Expr) (bindings : List (Binding Expr))
  | listInit (call : Construct Expr) (elements : List (ElementInit Expr))
  /-- A kind of node that expansion does not know. -/
  | extension (kind : String) (ty : Ty)

/-- The payload of a constant. -/
inductive Value where
  | null
  | bool (b : Bool)
  | int (n : Int64)
  | float (x : Binary64)
  | str (s : String)
  /-- A tree carried as data. -/
  | tree (tree : Expr)
  | closure (closure : Closure Value)

end

instance : Inhabited Value := ⟨.null⟩
instance : Inhabited Node := ⟨.constant .null .object⟩
instance : Inhabited Expr := ⟨.mk 0 default⟩

namespace Expr

/-- The identity of an expression. -/
def label : Expr → Nat
  | .mk l _ => l

/-- The node of an expression. -/
def node : Expr → Node
  | .mk _ n => n

@[simp] theorem label_mk (l : Nat) (n : Node) : (Expr.mk l n).label = l := rfl

@[simp] theorem node_mk (l : Nat) (n : Node) : (Expr.mk l n).node = n := rfl

/-- Are two expressions the very same node? -/
def identical (a b : Expr) : Bool := a.label == b.label

end Expr

/-- The kinds of nodes. -/
inductive Kind where
  | unary
  | binary
  | typeIs
  | conditional
  | constant
  | variable
  | memberAccess
  | call
  | lambda
  | construct
  | newArray
  | invocation
  | memberInit
  | listInit
  | extension
  deriving DecidableEq, Inhabited

/-- The words for a kind of node in messages. -/
def Kind.text : Kind → String
  | .unary => "unary"
  | .binary => "binary"
  | .typeIs => "type test"
  | .conditional => "conditional"
  | .constant => "constant"
  | .variable => "variable"
  | .memberAccess => "member access"
  | .call => "call"
  | .lambda => "lambda"
  | .construct => "construct"
  | .newArray => "array construct"
  | .invocation => "invocation"
  | .memberInit => "object initializer"
  | .listInit => "list initializer"
  | .extension => "extension"

namespace Node

/-- The kind of a node. -/
def kind : Node → Kind
  | .unary .. => .unary
  | .binary .. => .binary
  | .typeIs .. => .typeIs
  | .conditional .. => .conditional
  | .constant .. => .constant
  | .variable .. => .variable
  | .memberAccess .. => .memberAccess
  | .call .. => .call
  | .lambda .. => .lambda
  | .construct .. => .construct
  | .newArray .. => .newArray
  | .invocation .. => .invocation
  | .memberInit .. => .memberInit
  | .listInit .. => .listInit
  | .extension .. => .extension

/-- The declared static type of a node. -/
def ty : Node → Ty
  | .unary _ _ ty _ => ty
  | .binary _ _ _ _ _ _ ty => ty
  | .typeIs .. => .bool
  | .conditional _ _ _ ty => ty
  | .constant _ ty => ty
  | .variable v => v.ty
  | .memberAccess _ m => m.ty
  | .call _ m _ => m.ret
  | .lambda _ _ ty => ty
  | .construct c => c.ty
  | .newArray _ elem _ => .array elem
  | .invocation _ _ ty => ty
  | .memberInit c _ => c.ty
  | .listInit c _ => c.ty
  | .extension _ ty => ty

end Node

/-- The declared static type of an expression. -/
def Expr.ty (e : Expr) : Ty := e.node.ty

/-- The kind of an expression. -/
def Expr.kind (e : Expr) : Kind := e.node.kind

namespace Node

/-! ## Nodes whose type follows from their parts -/

/-- An integer constant. -/
def int (n : Int64) : Node := .constant (.int n) .int

/-- A truth value. -/
def bool (b : Bool) : Node := .constant (.bool b) .bool

/-- A string constant. -/
def str (s : String) : Node := .constant (.str s) .str

/-- A float constant. -/
def float (x : Binary64) : Node := .constant (.float x) .float

/-- The null constant, of type `Object`. -/
def null : Node := .constant .null .object

/-- A constant carrying a tree as data. -/
def tree (t : Expr) : Node := .constant (.tree t) (.expr t.ty)

/-- A constant referring to a closure; its type is named after the closure. -/
def closure (c : Closure Value) : Node := .constant (.closure c) (.named c.name)

/-- A unary operation of the type that its operand implies. -/
def unaryOf (op : UnaryOp) (operand : Expr) : Node :=
  .unary op operand (op.resultType operand.ty) none

/-- A plain binary operation of the type that its operands imply. -/
def binaryOf (op : BinaryOp) (left right : Expr) : Node :=
  .binary op left right none false none (op.resultType left.ty right.ty)

/-- A conditional of the type of its first branch. -/
def conditionalOf (test ifTrue ifFalse : Expr) : Node :=
  .conditional test ifTrue ifFalse ifTrue.ty

/-- The delegate type of a lambda. -/
def lambdaTy (params : List Variable) (body : Expr) : Ty := .func (params.map (·.ty)) body.ty

/-- A lambda of the function type of its parameters and body. -/
def lambdaOf (params : List Variable) (body : Expr) : Node :=
  .lambda params body (lambdaTy params body)

/-- An invocation of the result type of its target. -/
def invokeOf (target : Expr) (args : List Expr) : Node :=
  .invocation target args target.ty.callResult

/-- The marker call that invokes `target`. -/
def invokeMarked (target : Expr) (args : List Expr) : Node :=
  .call none (.ofMarker .invoke target.ty.callResult) (target :: args)

/-- The marker call around a nested query. -/
def expandableOf (query : Expr) : Node :=
  .call none (.ofMarker .asExpandable query.ty) [query]

/-- The marker call that compiles a tree; its type is the delegate behind the tree. -/
def compileOf (tree : Expr) : Node :=
  .call (some tree) (.ofMarker .compile tree.ty.delegate) []

/-- The node with its declared type replaced, for kinds whose type otherwise follows from their
parts. -/
def withTy? : Node → Ty → Option Node
  | .unary op e _ m, ty => some (.unary op e ty m)
  | .binary op l r c lifted m _, ty => some (.binary op l r c lifted m ty)
  | .conditional t a b _, ty => some (.conditional t a b ty)
  | .lambda ps b _, ty => some (.lambda ps b ty)
  | .invocation t as _, ty => some (.invocation t as ty)
  | .call o m as, ty => if m.marker.isSome then some (.call o { m with ret := ty } as) else none
  | _, _ => none

end Node

/-! ## Identities -/

/-- The source of identities: everything from `next` on is unused. -/
structure Supply where
  next : Nat := 0
  deriving DecidableEq, Inhabited

/-- Computations that draw identities. -/
abbrev Fresh := StateM Supply

/-- Draws an identity. -/
def Fresh.draw : Fresh Nat := modifyGet fun s => (s.next, ⟨s.next + 1⟩)

/-- Gives a node an identity of its own. -/
def Node.alloc (n : Node) : Fresh Expr := return .mk (← Fresh.draw) n

/-- A new variable. -/
def Variable.alloc (name : String) (ty : Ty) : Fresh Variable := return ⟨← Fresh.draw, name, ty⟩

/-- A new closure. -/
def Closure.alloc (name : String) (fields : List (String × Value)) : Fresh (Closure Value) :=
  return ⟨← Fresh.draw, name, fields⟩

end ExprTree
