/-!
# Static types

Every node of an expression tree declares a static type. `Ty` is that type, with decidable equality,
its spelling in the tree language (`Ty.text`), and the views that typing rules need: the delegate
behind a tree type, the result of a call, the element of an array.
-/

namespace ExprTree

/-- The declared static type of a node. -/
inductive Ty where
  | unit
  | bool
  | int
  | float
  | str
  | object
  | named (name : String)
  | array (elem : Ty)
  /-- A delegate type: parameters and result. -/
  | func (params : List Ty) (ret : Ty)
  /-- The type of an expression tree whose value has type `inner`. -/
  | expr (inner : Ty)
  deriving Inhabited

namespace Ty

mutual

/-- Do two types agree at every position? -/
def same : Ty → Ty → Bool
  | .unit, .unit => true
  | .bool, .bool => true
  | .int, .int => true
  | .float, .float => true
  | .str, .str => true
  | .object, .object => true
  | .named a, .named b => a == b
  | .array a, .array b => a.same b
  | .func ps r, .func qs s => sameAll ps qs && r.same s
  | .expr a, .expr b => a.same b
  | _, _ => false

/-- Do two parameter lists agree type by type? -/
def sameAll : List Ty → List Ty → Bool
  | [], [] => true
  | p :: ps, q :: qs => p.same q && sameAll ps qs
  | _, _ => false

end

mutual

/-- `same` decides equality of types. -/
theorem same_iff : ∀ {a b : Ty}, a.same b = true ↔ a = b
  | a, b => by
    cases a <;> cases b <;> simp [same, same_iff, sameAll_iff]

/-- `sameAll` decides equality of parameter lists. -/
theorem sameAll_iff : ∀ {ps qs : List Ty}, sameAll ps qs = true ↔ ps = qs
  | [], qs => by cases qs <;> simp [sameAll]
  | p :: ps, qs => by cases qs <;> simp [sameAll, same_iff, sameAll_iff]

end

instance : DecidableEq Ty := fun a b => decidable_of_iff (a.same b = true) same_iff

mutual

/-- The spelling of a type: `Int`, `[T]`, `Fn(A, B) -> R`, `Expr<T>`, or a plain name. -/
def text : Ty → String
  | .unit => "Unit"
  | .bool => "Bool"
  | .int => "Int"
  | .float => "Float"
  | .str => "Str"
  | .object => "Object"
  | .named name => name
  | .array elem => "[" ++ elem.text ++ "]"
  | .func params ret => "Fn(" ++ paramsText params ++ ") -> " ++ ret.text
  | .expr inner => "Expr<" ++ inner.text ++ ">"

/-- The spelling of a parameter list, separated by a comma and a blank. -/
def paramsText : List Ty → String
  | [] => ""
  | [p] => p.text
  | p :: ps => p.text ++ ", " ++ paramsText ps

end

/-- The built-in type of a word, if the word names one. -/
def builtin? : String → Option Ty
  | "Unit" => some .unit
  | "Bool" => some .bool
  | "Int" => some .int
  | "Float" => some .float
  | "Str" => some .str
  | "Object" => some .object
  | _ => none

/-- The type behind an expression-tree type, or the type itself. -/
def delegate : Ty → Ty
  | .expr inner => inner
  | ty => ty

/-- The result of calling a value of this type; a tree of a delegate is called like the delegate. -/
def returnType? (ty : Ty) : Option Ty :=
  match ty.delegate with
  | .func _ ret => some ret
  | _ => none

/-- The result of calling a value of this type, `Object` when it is not known to be callable. -/
def callResult (ty : Ty) : Ty := ty.returnType?.getD .object

/-- The element type of an array type. -/
def elementType? : Ty → Option Ty
  | .array elem => some elem
  | _ => none

end Ty

end ExprTree
