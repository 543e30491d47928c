import ExprTree.Ty

/-!
# Operators

Unary and binary operators are written as words. Each operator has one word, and reading a word
finds the operator that has it, so `ofWord? op.word = some op`. Binary operators derive their result
type from the types of their operands.
-/

namespace ExprTree

/-- The operators on one operand. -/
inductive UnaryOp where
  | negate
  | negateChecked
  | not
  | convert
  | convertChecked
  | arrayLength
  | quote
  | typeAs
  deriving DecidableEq, Inhabited

namespace UnaryOp

/-- Every unary operator. -/
def all : List UnaryOp :=
  [.negate, .negateChecked, .not, .convert, .convertChecked, .arrayLength, .quote, .typeAs]

/-- The word an operator is written as. -/
def word : UnaryOp → String
  | .negate => "neg"
  | .negateChecked => "neg_checked"
  | .not => "not"
  | .convert => "convert"
  | .convertChecked => "convert_checked"
  | .arrayLength => "len"
  | .quote => "quote"
  | .typeAs => "as"

/-- The operator written as a word. -/
def ofWord? (w : String) : Option UnaryOp := all.find? (·.word == w)

/-- Conversions carry an explicit target type. -/
def takesType : UnaryOp → Bool
  | .convert | .convertChecked | .typeAs => true
  | _ => false

/-- The type of an application to an operand of the given type, where none is declared. -/
def resultType (op : UnaryOp) (operand : Ty) : Ty :=
  match op with
  | .arrayLength => .int
  | .quote => .expr operand
  | _ => operand

/-- Reading an operator's word gives the operator. -/
theorem ofWord?_word (op : UnaryOp) : ofWord? op.word = some op := by
  cases op <;> rfl

end UnaryOp

/-- The operators on two operands. -/
inductive BinaryOp where
  | add
  | addChecked
  | subtract
  | subtractChecked
  | multiply
  | multiplyChecked
  | divide
  | modulo
  | and
  | andAlso
  | or
  | orElse
  | lessThan
  | lessThanOrEqual
  | greaterThan
  | greaterThanOrEqual
  | equal
  | notEqual
  | coalesce
  | arrayIndex
  | rightShift
  | leftShift
  | exclusiveOr
  deriving DecidableEq, Inhabited

namespace BinaryOp

/-- Every binary operator. -/
def all : List BinaryOp :=
  [.add, .addChecked, .subtract, .subtractChecked, .multiply, .multiplyChecked, .divide, .modulo,
    .and, .andAlso, .or, .orElse, .lessThan, .lessThanOrEqual, .greaterThan, .greaterThanOrEqual,
    .equal, .notEqual, .coalesce, .arrayIndex, .rightShift, .leftShift, .exclusiveOr]

/-- The word an operator is written as. -/
def word : BinaryOp → String
  | .add => "add"
  | .addChecked => "add_checked"
  | .subtract => "sub"
  | .subtractChecked => "sub_checked"
  | .multiply => "mul"
  | .multiplyChecked => "mul_checked"
  | .divide => "div"
  | .modulo => "rem"
  | .and => "and"
  | .andAlso => "and_also"
  | .or => "or"
  | .orElse => "or_else"
  | .lessThan => "lt"
  | .lessThanOrEqual => "le"
  | .greaterThan => "gt"
  | .greaterThanOrEqual => "ge"
  | .equal => "eq"
  | .notEqual => "ne"
  | .coalesce => "coalesce"
  | .arrayIndex => "index"
  | .rightShift => "shr"
  | .leftShift => "shl"
  | .exclusiveOr => "xor"

/-- The operator written as a word. -/
def ofWord? (w : String) : Option BinaryOp := all.find? (·.word == w)

/-- The static result type for operands of types `left` and `right`. -/
def resultType (op : BinaryOp) (left right : Ty) : Ty :=
  match op with
  | .lessThan | .lessThanOrEqual | .greaterThan | .greaterThanOrEqual
  | .equal | .notEqual | .andAlso | .orElse => .bool
  | .arrayIndex => left.elementType?.getD .object
  | .coalesce => right
  | _ => left

/-- Reading an operator's word gives the operator. -/
theorem ofWord?_word (op : BinaryOp) : ofWord? op.word = some op := by
  cases op <;> rfl

end BinaryOp

end ExprTree
