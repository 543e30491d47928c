import ExprTree.Surface.Layout
import ExprTree.Surface.Naming

/-!
# Printing trees

`formatTree` prints a tree as a source: free variables and closures are declared first, and a type
is written only where it differs from the one that the parts imply, so that the reader finds the
same types again.
-/

namespace ExprTree

/-- A character of a string literal. -/
def quoteChar : Char → List Char
  | '"' => ['\\', '"']
  | '\\' => ['\\', '\\']
  | '\n' => ['\\', 'n']
  | '\t' => ['\\', 't']
  | '\r' => ['\\', 'r']
  | c => [c]

/-- A string literal. -/
def quote (s : String) : String := "\"" ++ String.ofList (s.toList.flatMap quoteChar) ++ "\""

/-- The form of a member in initializers. -/
def Member.doc (m : Member) : Doc :=
  .text ("(" ++ m.kind.word ++ " " ++ m.path ++ " " ++ m.ty.text ++ ")")

/-- Is the type of a constant the one that its payload has when written bare? -/
def Value.isBare : Value → Ty → Bool
  | .null, .object => true
  | .bool _, .bool => true
  | .int _, .int => true
  | .float _, .float => true
  | .str _, .str => true
  | .closure c, .named name => c.name == name
  | .tree t, .expr inner => inner == t.ty
  | _, _ => false

/-- The parameters of a lambda. -/
def paramsDoc (ns : Names) (params : List Variable) : Doc :=
  .text ("(" ++ " ".intercalate (params.map fun p => "(" ++ ns.name p ++ " " ++ p.ty.text ++ ")")
    ++ ")")

namespace Printer

/-- The document of a call, given those of its object and its arguments. A marker call of the right
shape has a form of its own. -/
def callDoc (m : Method) (object : Option Expr) (args : List Expr) (objectDoc : Doc)
    (argDocs : List Doc) : Doc :=
  match m.marker, object, args with
  | some .invoke, none, target :: _ =>
    (Doc.headed "invoke!" argDocs).annotate m.ret target.ty.callResult
  | some .asExpandable, none, [query] =>
    (Doc.headed "expandable" argDocs).annotate m.ret query.ty
  | some .compile, some tree, [] =>
    (Doc.headed "compile" [objectDoc]).annotate m.ret tree.ty.delegate
  | _, _, _ => .headed "call" [objectDoc, .text m.path, .list argDocs, .text m.ret.text]

mutual

/-- The document of an expression. -/
def expr (ns : Names) : Expr → Doc
  | .mk _ n => node ns n

/-- The document of a node. -/
def node (ns : Names) : Node → Doc
  | .constant v ty =>
    let payload := value ns v
    if v.isBare ty then payload else .headed "const" [payload, .text ty.text]
  | .variable v => .text (ns.name v)
  | .unary op e ty _ =>
    let operand := expr ns e
    if op.takesType then .headed op.word [operand, .text ty.text]
    else (Doc.headed op.word [operand]).annotate ty (op.resultType e.ty)
  | .binary op l r _ _ _ ty =>
    (Doc.headed op.word [expr ns l, expr ns r]).annotate ty (op.resultType l.ty r.ty)
  | .typeIs e tested => .headed "is" [expr ns e, .text tested.text]
  | .conditional t a b ty =>
    (Doc.headed "if" [expr ns t, expr ns a, expr ns b]).annotate ty a.ty
  | .memberAccess o m =>
    .headed m.kind.word [object ns o, .text m.path, .text m.ty.text]
  | .call o m args => callDoc m o args (object ns o) (exprs ns args)
  | .lambda params body ty =>
    (Doc.headed "lambda" [paramsDoc ns params, expr ns body] 2).annotate ty
      (Node.lambdaTy params body)
  | .construct c => construct ns c
  | .newArray kind elem items =>
    let head := match kind with
      | .elements => "array"
      | .bounds => "array_bounds"
    .headed head (.text elem.text :: exprs ns items) 2
  | .invocation target args ty =>
    (Doc.headed "invoke" (expr ns target :: exprs ns args)).annotate ty target.ty.callResult
  | .memberInit c bs => .headed "init" (construct ns c :: bindings ns bs)
  | .listInit c es => .headed "list_init" (construct ns c :: elements ns es)
  | .extension kind ty => .headed "ext" [.text kind, .text ty.text]

/-- The document of an object, or the word for its absence. -/
def object (ns : Names) : Option Expr → Doc
  | some e => expr ns e
  | none => .text "static"

/-- The documents of a list of expressions. -/
def exprs (ns : Names) : List Expr → List Doc
  | [] => []
  | e :: es => expr ns e :: exprs ns es

/-- The document of a constructor call. -/
def construct (ns : Names) : Construct Expr → Doc
  | ⟨ty, args, members⟩ =>
    .headed "new" (.text ty.text :: .list (exprs ns args) :: (members.getD []).map Member.doc) 2

/-- The document of a binding. -/
def binding (ns : Names) : Binding Expr → Doc
  | .assign m e => .headed "=" [m.doc, expr ns e]
  | .nested m bs => .headed "bind" (m.doc :: bindings ns bs) 2
  | .elements m es => .headed "list" (m.doc :: elements ns es) 2

/-- The documents of a list of bindings. -/
def bindings (ns : Names) : List (Binding Expr) → List Doc
  | [] => []
  | b :: bs => binding ns b :: bindings ns bs

/-- The documents of a list of element initializers. -/
def elements (ns : Names) : List (ElementInit Expr) → List Doc
  | [] => []
  | ⟨m, args⟩ :: es => .headed "add" (.text m.path :: exprs ns args) 2 :: elements ns es

/-- The document of a payload. -/
def value (ns : Names) : Value → Doc
  | .null => .text "null"
  | .bool b => .text (boolText b)
  | .int n => .text (intText n)
  | .float x => .text x.text
  | .str s => .text (quote s)
  | .tree t => .headed "tree" [expr ns t]
  | .closure c => .text c.name

end

/-- The declaration of a free variable. -/
def freeDecl (ns : Names) (v : Variable) : String :=
  "free " ++ ns.name v ++ ": " ++ v.ty.text ++ "\n"

/-- The indentation of the fields of a broken closure declaration. -/
def fieldIndent : Nat := 4

/-- A field of a broken closure declaration. -/
def fieldLine (field : String × Doc) : String :=
  let start := Doc.blanks fieldIndent ++ field.1 ++ " = "
  start ++ field.2.render start.utf8ByteSize ++ ",\n"

/-- The declaration of a closure: on one line if it fits, else a line for each field. -/
def closureDecl (ns : Names) (c : Closure Value) : String :=
  let fields := c.fields.map fun f => (f.1, value ns f.2)
  let opening := "closure " ++ c.name ++ " \x7b"
  if fields.isEmpty then opening ++ " \x7d\n"
  else
    let line := opening ++ " " ++ ", ".intercalate (fields.map fun f => f.1 ++ " = " ++ f.2.flat)
      ++ " \x7d"
    if line.utf8ByteSize ≤ lineWidth then line ++ "\n"
    else opening ++ "\n" ++ String.join (fields.map fieldLine) ++ "\x7d\n"

end Printer

/-- Prints a tree as a source. -/
def formatTree (e : Expr) : String :=
  let closures := closuresOf e
  let ns := Names.ofTree closures e
  let decls := String.join (ns.free.reverse.map (Printer.freeDecl ns))
    ++ String.join (closures.map (Printer.closureDecl ns))
  decls ++ (if decls.isEmpty then "" else "\n") ++ (Printer.expr ns e).render 0 ++ "\n"

end ExprTree
