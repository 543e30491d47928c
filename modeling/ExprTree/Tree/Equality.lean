import ExprTree.Tree.Basic

/-!
# Structural equality of trees

Two trees are equal if they have equal nodes at every place; the labels of the nodes do not count.
Variables and closures are equal only if they are the same one. Numbers compare numerically, so a
tree holding a NaN differs from itself, except where a constant carries the very same tree on both
sides.
-/

namespace ExprTree

mutual

/-- Are two expressions equal at every place? -/
def Expr.equal : Expr → Expr → Bool
  | .mk _ a, .mk _ b => a.equal b

/-- Are two nodes equal, with equal children? -/
def Node.equal : Node → Node → Bool
  | .unary op e t m, .unary op' e' t' m' => op == op' && e.equal e' && t == t' && m == m'
  | .binary op l r c lifted m t, .binary op' l' r' c' lifted' m' t' =>
    op == op' && l.equal l' && r.equal r' && Expr.equalOption c c' && lifted == lifted' && m == m'
      && t == t'
  | .typeIs e t, .typeIs e' t' => e.equal e' && t == t'
  | .conditional a b c t, .conditional a' b' c' t' =>
    a.equal a' && b.equal b' && c.equal c' && t == t'
  | .constant v t, .constant v' t' => v.equal v' && t == t'
  | .variable v, .variable v' => v == v'
  | .memberAccess o m, .memberAccess o' m' => Expr.equalOption o o' && m == m'
  | .call o m as, .call o' m' as' => Expr.equalOption o o' && m == m' && Expr.equalList as as'
  | .lambda ps b t, .lambda ps' b' t' => ps == ps' && b.equal b' && t == t'
  | .construct c, .construct c' => Expr.equalConstruct c c'
  | .newArray k t es, .newArray k' t' es' => k == k' && t == t' && Expr.equalList es es'
  | .invocation e as t, .invocation e' as' t' => e.equal e' && Expr.equalList as as' && t == t'
  | .memberInit c bs, .memberInit c' bs' => Expr.equalConstruct c c' && Expr.equalBindings bs bs'
  | .listInit c es, .listInit c' es' => Expr.equalConstruct c c' && Expr.equalElements es es'
  | .extension k t, .extension k' t' => k == k' && t == t'
  | _, _ => false

/-- Are two payloads equal? -/
def Value.equal : Value → Value → Bool
  | .null, .null => true
  | .bool a, .bool b => a == b
  | .int a, .int b => a == b
  | .float a, .float b => a.numEq b
  | .str a, .str b => a == b
  | .tree a, .tree b => a.identical b || a.equal b
  | .closure a, .closure b => a.id == b.id
  | _, _ => false

/-- Are two optional expressions equal? -/
def Expr.equalOption : Option Expr → Option Expr → Bool
  | none, none => true
  | some a, some b => a.equal b
  | _, _ => false

/-- Are two lists of expressions equal item by item? -/
def Expr.equalList : List Expr → List Expr → Bool
  | [], [] => true
  | a :: as, b :: bs => a.equal b && Expr.equalList as bs
  | _, _ => false

/-- Are two constructor calls equal? -/
def Expr.equalConstruct : Construct Expr → Construct Expr → Bool
  | ⟨t, as, ms⟩, ⟨t', as', ms'⟩ => t == t' && Expr.equalList as as' && ms == ms'

/-- Are two bindings equal? -/
def Expr.equalBinding : Binding Expr → Binding Expr → Bool
  | .assign m e, .assign m' e' => m == m' && e.equal e'
  | .nested m bs, .nested m' bs' => m == m' && Expr.equalBindings bs bs'
  | .elements m es, .elements m' es' => m == m' && Expr.equalElements es es'
  | _, _ => false

/-- Are two lists of bindings equal item by item? -/
def Expr.equalBindings : List (Binding Expr) → List (Binding Expr) → Bool
  | [], [] => true
  | a :: as, b :: bs => Expr.equalBinding a b && Expr.equalBindings as bs
  | _, _ => false

/-- Are two lists of element initializers equal item by item? -/
def Expr.equalElements : List (ElementInit Expr) → List (ElementInit Expr) → Bool
  | [], [] => true
  | ⟨m, as⟩ :: es, ⟨m', as'⟩ :: es' => m == m' && Expr.equalList as as' && Expr.equalElements es es'
  | _, _ => false

end

end ExprTree
