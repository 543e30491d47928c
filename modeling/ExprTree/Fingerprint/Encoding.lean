import ExprTree.Tree.Basic
import ExprTree.Fingerprint.Blake3
import ExprTree.Fingerprint.Digest

/-!
# Fingerprints

A tree is written as bytes in which a bound variable is the distance to its binder and a free one
its name and type, so that renaming parameters changes nothing; the fingerprint is the hash of these
bytes.

* Every form starts with a tag byte; lists and strings start with their length in four bytes.
* A tree carried as data is written with no binder in scope.
* A closure is written out where it first occurs; later occurrences refer back to it by number. The
  table of closures met so far is the state of `Encoder`.
-/

namespace ExprTree

/-- A piece of an encoding. -/
abbrev Bytes := List UInt8

namespace Encoding

/-! ## Numbers, strings, types and references -/

/-- A number in the given count of bytes, the least significant first. -/
def number : (count : Nat) → Nat → Bytes
  | 0, _ => []
  | count + 1, n => UInt8.ofNat n :: number count (n / 256)

/-- A length or an index. -/
def count (n : Nat) : Bytes := number 4 n

/-- A string, its length first. -/
def string (s : String) : Bytes := count s.utf8ByteSize ++ s.toUTF8.toList

/-- A truth value takes one byte. -/
def flag (b : Bool) : Bytes := [if b then 1 else 0]

mutual

/-- A type. -/
def ty : Ty → Bytes
  | .unit => [0x80]
  | .bool => [0x81]
  | .int => [0x82]
  | .float => [0x83]
  | .str => [0x84]
  | .object => [0x85]
  | .named name => 0x86 :: string name
  | .array elem => 0x87 :: ty elem
  | .func params ret => 0x88 :: (count params.length ++ tys params ++ ty ret)
  | .expr inner => 0x89 :: ty inner

/-- A list of types without its length. -/
def tys : List Ty → Bytes
  | [] => []
  | t :: ts => ty t ++ tys ts

end

/-- A member, with its owner, its kind and its type. -/
def member (m : Member) : Bytes :=
  flag m.owner.isCapture ++ string m.owner.name ++ string m.name ++ flag (m.kind == .field)
    ++ ty m.ty

/-- A method; whether it is a marker is not written. -/
def method (m : Method) : Bytes :=
  string m.owner ++ string m.name ++ flag m.isStatic ++ ty m.ret

/-- A method that may be absent, behind a byte that tells. -/
def optMethod : Option Method → Bytes
  | none => [0]
  | some m => 1 :: method m

/-- The members that a constructor call lists; the length is one more, and zero if it lists none. -/
def members : Option (List Member) → Bytes
  | none => count 0
  | some ms => count (ms.length + 1) ++ ms.flatMap member

/-! ## Trees -/

/-- Writes bytes; the state lists the closures met so far, in order. -/
abbrev Encoder := StateM (List Nat) Bytes

/-- A variable under the binders in scope, the innermost first. -/
def variableRef (binders : List Variable) (v : Variable) : Bytes :=
  match binders.idxOf? v with
  | some i => 0x06 :: count i
  | none => 0x07 :: (string v.name ++ ty v.ty)

mutual

/-- An expression under the binders in scope. -/
def expr : Expr → List Variable → Encoder
  | .mk _ n, binders => node n binders

/-- A node under the binders in scope. -/
def node : Node → List Variable → Encoder
  | .unary op e t m, binders => do
    let operand ← expr e binders
    return [0x01] ++ string op.word ++ ty t ++ optMethod m ++ operand
  | .binary op l r c lifted m t, binders => do
    let left ← expr l binders
    let right ← expr r binders
    let conversion ← optExpr c binders
    return [0x02] ++ string op.word ++ ty t ++ flag lifted ++ optMethod m ++ left ++ right
      ++ conversion
  | .typeIs e t, binders => do
    let operand ← expr e binders
    return [0x03] ++ ty t ++ operand
  | .conditional a b c t, binders => do
    let test ← expr a binders
    let ifTrue ← expr b binders
    let ifFalse ← expr c binders
    return [0x04] ++ ty t ++ test ++ ifTrue ++ ifFalse
  | .constant v t, _ => do
    let payload ← value v
    return [0x05] ++ ty t ++ payload
  | .variable v, binders => return variableRef binders v
  | .memberAccess o m, binders => do
    let object ← optExpr o binders
    return [0x08] ++ member m ++ object
  | .call o m as, binders => do
    let object ← optExpr o binders
    let args ← exprs as binders
    return [0x09] ++ method m ++ object ++ (count as.length ++ args)
  | .lambda params b t, binders => do
    let body ← expr b (params.reverse ++ binders)
    return [0x0A] ++ count params.length ++ tys (params.map (·.ty)) ++ ty t ++ body
  | .construct c, binders => do
    let call ← construct c binders
    return [0x0B] ++ call
  | .newArray k t es, binders => do
    let items ← exprs es binders
    return [0x0C] ++ flag (k == .bounds) ++ ty t ++ (count es.length ++ items)
  | .invocation e as t, binders => do
    let target ← expr e binders
    let args ← exprs as binders
    return [0x0D] ++ ty t ++ target ++ (count as.length ++ args)
  | .memberInit c bs, binders => do
    let call ← construct c binders
    let rest ← bindings bs binders
    return [0x0E] ++ call ++ (count bs.length ++ rest)
  | .listInit c es, binders => do
    let call ← construct c binders
    let rest ← elements es binders
    return [0x0F] ++ call ++ (count es.length ++ rest)
  | .extension kind t, _ => return [0x10] ++ string kind ++ ty t

/-- An optional expression. -/
def optExpr : Option Expr → List Variable → Encoder
  | none, _ => return [0]
  | some e, binders => do
    let bytes ← expr e binders
    return 1 :: bytes

/-- A list of expressions without its length. -/
def exprs : List Expr → List Variable → Encoder
  | [], _ => return []
  | e :: es, binders => do
    let first ← expr e binders
    let rest ← exprs es binders
    return first ++ rest

/-- A constructor call. -/
def construct : Construct Expr → List Variable → Encoder
  | ⟨t, as, ms⟩, binders => do
    let args ← exprs as binders
    return ty t ++ (count as.length ++ args) ++ members ms

/-- A binding of an object initializer. -/
def binding : Binding Expr → List Variable → Encoder
  | .assign m e, binders => do
    let bytes ← expr e binders
    return [0x20] ++ member m ++ bytes
  | .nested m bs, binders => do
    let rest ← bindings bs binders
    return [0x21] ++ member m ++ (count bs.length ++ rest)
  | .elements m es, binders => do
    let rest ← elements es binders
    return [0x22] ++ member m ++ (count es.length ++ rest)

/-- A list of bindings without its length. -/
def bindings : List (Binding Expr) → List Variable → Encoder
  | [], _ => return []
  | b :: bs, binders => do
    let first ← binding b binders
    let rest ← bindings bs binders
    return first ++ rest

/-- An element of a collection initializer. -/
def element : ElementInit Expr → List Variable → Encoder
  | ⟨m, as⟩, binders => do
    let args ← exprs as binders
    return [0x23] ++ method m ++ (count as.length ++ args)

/-- A list of elements without its length. -/
def elements : List (ElementInit Expr) → List Variable → Encoder
  | [], _ => return []
  | e :: es, binders => do
    let first ← element e binders
    let rest ← elements es binders
    return first ++ rest

/-- The payload of a constant. It is closed over its own binders. -/
def value : Value → Encoder
  | .null => return [0x40]
  | .bool b => return 0x41 :: flag b
  | .int n => return 0x42 :: number 8 n.toUInt64.toNat
  | .float x => return 0x43 :: number 8 x.bits.toNat
  | .str s => return 0x44 :: string s
  | .tree t => do
    let bytes ← expr t []
    return 0x45 :: bytes
  | .closure ⟨id, name, fs⟩ => do
    let seen ← get
    match seen.idxOf? id with
    | some i => return [0x46, 0] ++ count i
    | none =>
      set (seen ++ [id])
      let rest ← fields fs
      return [0x46, 1] ++ string name ++ count fs.length ++ rest

/-- The fields of a closure without their number. -/
def fields : List (String × Value) → Encoder
  | [] => return []
  | (name, v) :: fs => do
    let first ← value v
    let rest ← fields fs
    return string name ++ first ++ rest

end

/-- The version of the format. -/
def version : UInt8 := 1

end Encoding

/-- The bytes that a tree is fingerprinted by. -/
def Expr.normalize (e : Expr) : Bytes := Encoding.version :: ((Encoding.expr e []).run []).1

/-- The digest of a tree under a hash; renaming bound variables does not change it. -/
def Expr.digest (hash : Bytes → Bytes) (e : Expr) : Digest := ⟨hash e.normalize⟩

theorem Expr.digest_congr {a b : Expr} (h : a.normalize = b.normalize) (hash : Bytes → Bytes) :
    a.digest hash = b.digest hash := by
  rw [digest, digest, h]

/-- The fingerprint of a tree: its digest under BLAKE3. -/
def Expr.fingerprint (e : Expr) : Digest := e.digest Blake3.hash

end ExprTree
