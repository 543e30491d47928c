import ExprTree.Surface.Token
import ExprTree.Tree.Basic

/-!
# The grammar of the notation

The productions of the tree notation, as relations between two points of a source and what stands
between them. A point is what lies ahead of it, so that a production may say what follows: `Fn` before
`(` and `Expr` before `<` are never plain names. It also has the supply from which the nodes, variables
and closures of the tree draw their identities.

The parts of a form are described relative to the expressions nested in it, a `Phrase`; `ExprAt` then
counts the levels on which expressions nest. `FileAt` is the whole source: declarations, one expression,
and the end of file.
-/

namespace ExprTree

namespace Grammar

variable {α : Type}

/-! ## Points and words -/

/-- What a source declares at its top level. -/
inductive Declaration where
  | free (v : Variable)
  | closure (c : Closure Value)

/-- What names stand for: variables, the innermost first and those of the top level last, and
closures. -/
structure Env where
  scopes : List (String × Variable) := []
  closures : List (String × Closure Value) := []

namespace Env

/-- The declaring type that a name in a path stands for. -/
def owner (Γ : Env) (name : String) : Owner :=
  if (Γ.closures.lookup name).isSome then .capture name else .type name

/-- Inside a lambda its parameters hide other variables of the same names. -/
def under (Γ : Env) (params : List Variable) : Env :=
  { Γ with scopes := params.reverse.map (fun v => (v.name, v)) ++ Γ.scopes }

/-- Behind a declaration its name has a meaning. -/
def declare (Γ : Env) : Declaration → Env
  | .free v => { Γ with scopes := (v.name, v) :: Γ.scopes }
  | .closure c => { Γ with closures := (c.name, c) :: Γ.closures }

end Env

/-- A point in a source: the words ahead, and the identities that are left. -/
structure Point where
  ahead : List Lexeme
  supply : Supply

/-- The word at hand. -/
def Point.head (p : Point) : Lexeme := p.ahead.head?.getD .eof

/-- What stands between two points, and what it means where names have a meaning. -/
abbrev Phrase (α : Type) := Env → Point → α → Point → Prop

/-- A word. -/
inductive Word (l : Lexeme) : Point → Point → Prop
  | mk (ls : List Lexeme) (supply : Supply) : Word l ⟨l :: ls, supply⟩ ⟨ls, supply⟩

/-- Nothing is written, but identities are drawn. -/
inductive Drawn (x : Fresh α) : Point → α → Point → Prop
  | mk (ls : List Lexeme) (supply : Supply) : Drawn x ⟨ls, supply⟩ (x.run supply).1
      ⟨ls, (x.run supply).2⟩

/-- Phrases one after the other. -/
inductive Many (R : Point → α → Point → Prop) : Point → List α → Point → Prop
  | nil {p : Point} : Many R p [] p
  | cons {p p₁ q : Point} {a : α} {as : List α} : R p a p₁ → Many R p₁ as q → Many R p (a :: as) q

/-- Phrases with commas between them. The last one may be followed by a comma too. -/
inductive CommaList (R : Point → α → Point → Prop) : Point → List α → Point → Prop
  | nil {p : Point} : CommaList R p [] p
  | last {p q : Point} {a : α} : R p a q → CommaList R p [a] q
  | cons {p p₁ p₂ q : Point} {a : α} {as : List α} : R p a p₁ → Word .comma p₁ p₂ →
      CommaList R p₂ as q → CommaList R p (a :: as) q

/-! ## Types and references -/

/-- A type. -/
inductive TyAt : Point → Ty → Point → Prop
  | builtin {p q : Point} {name : String} {t : Ty} : Ty.builtin? name = some t → Word (.ident name) p q →
      TyAt p t q
  | named {p q : Point} {name : String} : Ty.builtin? name = none → Word (.ident name) p q →
      (name = "Fn" → q.head ≠ .lparen) → (name = "Expr" → q.head ≠ .less) → TyAt p (.named name) q
  | array {p p₁ p₂ q : Point} {t : Ty} : Word .lbracket p p₁ → TyAt p₁ t p₂ → Word .rbracket p₂ q →
      TyAt p (.array t) q
  | func {p p₁ p₂ p₃ p₄ p₅ q : Point} {ts : List Ty} {t : Ty} : Word (.ident "Fn") p p₁ →
      Word .lparen p₁ p₂ → CommaList TyAt p₂ ts p₃ → Word .rparen p₃ p₄ → Word .arrow p₄ p₅ →
      TyAt p₅ t q → TyAt p (.func ts t) q
  | expr {p p₁ p₂ p₃ q : Point} {t : Ty} : Word (.ident "Expr") p p₁ → Word .less p₁ p₂ → TyAt p₂ t p₃ →
      Word .greater p₃ q → TyAt p (.expr t) q

/-- `Owner::name`. -/
inductive PathAt : Point → String × String → Point → Prop
  | mk {p p₁ p₂ q : Point} {owner name : String} : Word (.ident owner) p p₁ → Word .colonColon p₁ p₂ →
      Word (.ident name) p₂ q → PathAt p (owner, name) q

/-- `Owner::name Type`. -/
inductive MemberAt (kind : MemberKind) (Γ : Env) : Point → Member → Point → Prop
  | mk {p p₁ q : Point} {owner name : String} {t : Ty} : PathAt p (owner, name) p₁ → TyAt p₁ t q →
      MemberAt kind Γ p ⟨Γ.owner owner, name, kind, t⟩ q

/-- `(field Owner::name Type)` or `(prop Owner::name Type)`. -/
inductive MemberRefAt (Γ : Env) : Point → Member → Point → Prop
  | mk {p p₁ p₂ p₃ q : Point} (kind : MemberKind) {m : Member} : Word .lparen p p₁ →
      Word (.ident kind.word) p₁ p₂ → MemberAt kind Γ p₂ m p₃ → Word .rparen p₃ q → MemberRefAt Γ p m q

/-- `(x Type)`, a parameter of a lambda. -/
inductive ParamAt : Point → Variable → Point → Prop
  | mk {p p₁ p₂ p₃ p₄ q : Point} {name : String} {t : Ty} {v : Variable} : Word .lparen p p₁ →
      Word (.ident name) p₁ p₂ → TyAt p₂ t p₃ → Word .rparen p₃ p₄ →
      Drawn (Variable.alloc name t) p₄ v q →
      ParamAt p v q

/-- A word that stands for a constant. -/
inductive Literal : Lexeme → Value → Ty → Prop
  | integer (n : Int64) : Literal (.integer n) (.int n) .int
  | float (x : Binary64) : Literal (.float x) (.float x) .float
  | str (s : String) : Literal (.str s) (.str s) .str
  | true : Literal .true (.bool true) .bool
  | false : Literal .false (.bool false) .bool
  | null : Literal .null .null .object

/-! ## Parts of forms -/

section Forms

-- the expressions that are nested in a form
variable (E : Phrase Expr) (Γ : Env)

/-- The payload of a constant. -/
inductive ValueAt : Point → Value → Point → Prop
  | literal {p q : Point} {l : Lexeme} {v : Value} {t : Ty} : Literal l v t → Word l p q → ValueAt p v q
  | closure {p q : Point} {name : String} {c : Closure Value} : Γ.closures.lookup name = some c →
      Word (.ident name) p q → ValueAt p (.closure c) q
  | tree {p p₁ p₂ p₃ q : Point} {t : Expr} : Word .lparen p p₁ → Word (.ident "tree") p₁ p₂ →
      E Γ p₂ t p₃ → Word .rparen p₃ q → ValueAt p (.tree t) q

/-- `static` or an object. -/
inductive ObjectAt : Point → Option Expr → Point → Prop
  | static {p q : Point} : Word .static p q → ObjectAt p none q
  | expr {p q : Point} {e : Expr} : E Γ p e q → ObjectAt p (some e) q

/-- `Type (args..) member-ref*`. -/
inductive ConstructAt : Point → Construct Expr → Point → Prop
  | mk {p p₁ p₂ p₃ p₄ q : Point} {t : Ty} {args : List Expr} {members : List Member} : TyAt p t p₁ →
      Word .lparen p₁ p₂ → Many (E Γ) p₂ args p₃ → Word .rparen p₃ p₄ →
      Many (MemberRefAt Γ) p₄ members q →
      ConstructAt p ⟨t, args, if members.isEmpty then none else some members⟩ q

/-- `(new Type (args..) member-ref*)`. -/
inductive ConstructFormAt : Point → Construct Expr → Point → Prop
  | mk {p p₁ p₂ p₃ q : Point} {c : Construct Expr} : Word .lparen p p₁ → Word (.ident "new") p₁ p₂ →
      ConstructAt E Γ p₂ c p₃ → Word .rparen p₃ q → ConstructFormAt p c q

/-- `(add Owner::name args..)`. -/
inductive ElementAt : Point → ElementInit Expr → Point → Prop
  | mk {p p₁ p₂ p₃ p₄ q : Point} {owner name : String} {args : List Expr} : Word .lparen p p₁ →
      Word (.ident "add") p₁ p₂ → PathAt p₂ (owner, name) p₃ → Many (E Γ) p₃ args p₄ →
      Word .rparen p₄ q →
      ElementAt p ⟨{ owner, name, isStatic := false, ret := .unit }, args⟩ q

/-- `(= member expr)`, `(bind member binding*)` or `(list member element*)`. -/
inductive BindingAt : Point → Binding Expr → Point → Prop
  | assign {p p₁ p₂ p₃ p₄ q : Point} {m : Member} {e : Expr} : Word .lparen p p₁ → Word .equals p₁ p₂ →
      MemberRefAt Γ p₂ m p₃ → E Γ p₃ e p₄ → Word .rparen p₄ q → BindingAt p (.assign m e) q
  | nested {p p₁ p₂ p₃ p₄ q : Point} {m : Member} {bs : List (Binding Expr)} : Word .lparen p p₁ →
      Word (.ident "bind") p₁ p₂ → MemberRefAt Γ p₂ m p₃ → Many BindingAt p₃ bs p₄ → Word .rparen p₄ q →
      BindingAt p (.nested m bs) q
  | elements {p p₁ p₂ p₃ p₄ q : Point} {m : Member} {es : List (ElementInit Expr)} : Word .lparen p p₁ →
      Word (.ident "list") p₁ p₂ → MemberRefAt Γ p₂ m p₃ → Many (ElementAt E Γ) p₃ es p₄ →
      Word .rparen p₄ q → BindingAt p (.elements m es) q

/-! ## Forms -/

/-- What stands between the parentheses of a form, without a declared type. -/
inductive FormAt : Point → Node → Point → Prop
  | unary (op : UnaryOp) {p p₁ q : Point} {e : Expr} : op.takesType = false →
      Word (.ident op.word) p p₁ → E Γ p₁ e q → FormAt p (.unaryOf op e) q
  | conversion (op : UnaryOp) {p p₁ p₂ q : Point} {e : Expr} {t : Ty} : op.takesType = true →
      Word (.ident op.word) p p₁ → E Γ p₁ e p₂ → TyAt p₂ t q → FormAt p (.unary op e t none) q
  | binary (op : BinaryOp) {p p₁ p₂ q : Point} {left right : Expr} : Word (.ident op.word) p p₁ →
      E Γ p₁ left p₂ → E Γ p₂ right q → FormAt p (.binaryOf op left right) q
  | typeIs {p p₁ p₂ q : Point} {e : Expr} {t : Ty} : Word (.ident "is") p p₁ → E Γ p₁ e p₂ →
      TyAt p₂ t q → FormAt p (.typeIs e t) q
  | conditional {p p₁ p₂ p₃ q : Point} {test ifTrue ifFalse : Expr} : Word (.ident "if") p p₁ →
      E Γ p₁ test p₂ → E Γ p₂ ifTrue p₃ → E Γ p₃ ifFalse q →
      FormAt p (.conditionalOf test ifTrue ifFalse) q
  | constant {p p₁ p₂ q : Point} {v : Value} {t : Ty} : Word (.ident "const") p p₁ →
      ValueAt E Γ p₁ v p₂ → TyAt p₂ t q → FormAt p (.constant v t) q
  | tree {p p₁ q : Point} {t : Expr} : Word (.ident "tree") p p₁ → E Γ p₁ t q → FormAt p (.tree t) q
  | lambda {p p₁ p₂ p₃ p₄ q : Point} {params : List Variable} {body : Expr} :
      Word (.ident "lambda") p p₁ → Word .lparen p₁ p₂ → Many ParamAt p₂ params p₃ →
      (params.map (·.name)).Nodup → Word .rparen p₃ p₄ → E (Γ.under params) p₄ body q →
      FormAt p (.lambdaOf params body) q
  | invoke {p p₁ p₂ q : Point} {target : Expr} {args : List Expr} : Word (.ident "invoke") p p₁ →
      E Γ p₁ target p₂ → Many (E Γ) p₂ args q → FormAt p (.invokeOf target args) q
  | invokeMarked {p p₁ p₂ q : Point} {target : Expr} {args : List Expr} : Word (.ident "invoke!") p p₁ →
      E Γ p₁ target p₂ → Many (E Γ) p₂ args q → FormAt p (.invokeMarked target args) q
  | expandable {p p₁ q : Point} {query : Expr} : Word (.ident "expandable") p p₁ → E Γ p₁ query q →
      FormAt p (.expandableOf query) q
  | compile {p p₁ q : Point} {t : Expr} : Word (.ident "compile") p p₁ → E Γ p₁ t q →
      FormAt p (.compileOf t) q
  | memberAccess (kind : MemberKind) {p p₁ p₂ q : Point} {object : Option Expr} {m : Member} :
      Word (.ident kind.word) p p₁ → ObjectAt E Γ p₁ object p₂ → MemberAt kind Γ p₂ m q →
      FormAt p (.memberAccess object m) q
  | call {p p₁ p₂ p₃ p₄ p₅ p₆ q : Point} {object : Option Expr} {owner name : String} {args : List Expr}
      {ret : Ty} : Word (.ident "call") p p₁ → ObjectAt E Γ p₁ object p₂ → PathAt p₂ (owner, name) p₃ →
      Word .lparen p₃ p₄ → Many (E Γ) p₄ args p₅ → Word .rparen p₅ p₆ → TyAt p₆ ret q →
      FormAt p (.call object { owner, name, isStatic := object.isNone, ret } args) q
  | construct {p p₁ q : Point} {c : Construct Expr} : Word (.ident "new") p p₁ → ConstructAt E Γ p₁ c q →
      FormAt p (.construct c) q
  | array {p p₁ p₂ q : Point} {t : Ty} {items : List Expr} : Word (.ident "array") p p₁ → TyAt p₁ t p₂ →
      Many (E Γ) p₂ items q → FormAt p (.newArray .elements t items) q
  | arrayBounds {p p₁ p₂ q : Point} {t : Ty} {bounds : List Expr} : Word (.ident "array_bounds") p p₁ →
      TyAt p₁ t p₂ → Many (E Γ) p₂ bounds q → FormAt p (.newArray .bounds t bounds) q
  | memberInit {p p₁ p₂ q : Point} {c : Construct Expr} {bs : List (Binding Expr)} :
      Word (.ident "init") p p₁ → ConstructFormAt E Γ p₁ c p₂ → Many (BindingAt E Γ) p₂ bs q →
      FormAt p (.memberInit c bs) q
  | listInit {p p₁ p₂ q : Point} {c : Construct Expr} {es : List (ElementInit Expr)} :
      Word (.ident "list_init") p p₁ → ConstructFormAt E Γ p₁ c p₂ → Many (ElementAt E Γ) p₂ es q →
      FormAt p (.listInit c es) q
  | extension {p p₁ p₂ q : Point} {kind : String} {t : Ty} : Word (.ident "ext") p p₁ →
      Word (.ident kind) p₁ p₂ → TyAt p₂ t q → FormAt p (.extension kind t) q

/-- A declared type takes the place of the one that follows from the parts. Only some kinds of nodes
may have one. -/
inductive Annotated (t : Ty) : Node → Node → Prop
  | unary {op : UnaryOp} {e : Expr} {s : Ty} {m : Option Method} :
      Annotated t (.unary op e s m) (.unary op e t m)
  | binary {op : BinaryOp} {left right : Expr} {c : Option Expr} {lifted : Bool} {m : Option Method}
      {s : Ty} : Annotated t (.binary op left right c lifted m s) (.binary op left right c lifted m t)
  | conditional {test ifTrue ifFalse : Expr} {s : Ty} :
      Annotated t (.conditional test ifTrue ifFalse s) (.conditional test ifTrue ifFalse t)
  | lambda {params : List Variable} {body : Expr} {s : Ty} :
      Annotated t (.lambda params body s) (.lambda params body t)
  | invocation {target : Expr} {args : List Expr} {s : Ty} :
      Annotated t (.invocation target args s) (.invocation target args t)
  | marker {object : Option Expr} {m : Method} {k : Marker} {args : List Expr} : m.marker = some k →
      Annotated t (.call object m args) (.call object { m with ret := t } args)

/-- A form, with or without a declared type. -/
inductive DeclaredFormAt : Point → Node → Point → Prop
  | plain {p q : Point} {n : Node} : FormAt E Γ p n q → DeclaredFormAt p n q
  | declared {p p₁ p₂ q : Point} {n n' : Node} {t : Ty} : FormAt E Γ p n p₁ → Word .colon p₁ p₂ →
      TyAt p₂ t q → Annotated t n n' → DeclaredFormAt p n' q

/-- A literal, a name, or a form in parentheses. A name stands for the innermost variable of that name,
and for a closure if there is no variable. -/
inductive NodeAt : Point → Node → Point → Prop
  | literal {p q : Point} {l : Lexeme} {v : Value} {t : Ty} : Literal l v t → Word l p q →
      NodeAt p (.constant v t) q
  | var {p q : Point} {name : String} {v : Variable} : Γ.scopes.lookup name = some v →
      Word (.ident name) p q → NodeAt p (.variable v) q
  | closure {p q : Point} {name : String} {c : Closure Value} : Γ.scopes.lookup name = none →
      Γ.closures.lookup name = some c → Word (.ident name) p q → NodeAt p (.closure c) q
  | form {p p₁ p₂ q : Point} {n : Node} : Word .lparen p p₁ → DeclaredFormAt E Γ p₁ n p₂ →
      Word .rparen p₂ q → NodeAt p n q

end Forms

/-- An expression in which expressions nest through at most the given number of levels. -/
def ExprAt : (levels : Nat) → Phrase Expr
  | 0, _, _, _, _ => False
  | levels + 1, Γ, p, e, r => ∃ n q, NodeAt (ExprAt levels) Γ p n q ∧ Drawn n.alloc q e r

/-! ## Sources -/

/-- Expressions nest at most this deep. -/
def depth : Nat := 256

/-- `name = value`. -/
inductive FieldAt (Γ : Env) : Point → String × Value → Point → Prop
  | mk {p p₁ p₂ q : Point} {name : String} {v : Value} : Word (.ident name) p p₁ → Word .equals p₁ p₂ →
      ValueAt (ExprAt depth) Γ p₂ v q → FieldAt Γ p (name, v) q

/-- `free name : Type`, or `closure name { field = value, .. }`. No name is declared twice. -/
inductive DeclAt (Γ : Env) : Point → Declaration → Point → Prop
  | free {p p₁ p₂ p₃ p₄ q : Point} {name : String} {t : Ty} {v : Variable} : Word .free p p₁ →
      Word (.ident name) p₁ p₂ → Word .colon p₂ p₃ → TyAt p₃ t p₄ → Γ.scopes.lookup name = none →
      Drawn (Variable.alloc name t) p₄ v q → DeclAt Γ p (.free v) q
  | closure {p p₁ p₂ p₃ p₄ p₅ q : Point} {name : String} {fields : List (String × Value)}
      {c : Closure Value} : Word .closure p p₁ → Word (.ident name) p₁ p₂ → Word .lbrace p₂ p₃ →
      CommaList (FieldAt Γ) p₃ fields p₄ → (fields.map (·.1)).Nodup → Word .rbrace p₄ p₅ →
      Γ.closures.lookup name = none → Drawn (Closure.alloc name fields) p₅ c q →
      DeclAt Γ p (.closure c) q

/-- Declarations, from what names stand for before them to what they stand for behind them. -/
inductive DeclsAt : Env → Point → Env → Point → Prop
  | nil {Γ : Env} {p : Point} : DeclsAt Γ p Γ p
  | cons {Γ Δ : Env} {p p₁ q : Point} {d : Declaration} : DeclAt Γ p d p₁ →
      DeclsAt (Γ.declare d) p₁ Δ q → DeclsAt Γ p Δ q

/-- A source: declarations, and one expression up to the end of file. -/
inductive FileAt : Point → Expr → Supply → Prop
  | mk {Γ : Env} {p p₁ : Point} {e : Expr} {supply : Supply} : DeclsAt {} p Γ p₁ →
      ExprAt depth Γ p₁ e ⟨[.eof], supply⟩ → FileAt p e supply

end Grammar

end ExprTree
