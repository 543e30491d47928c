import ExprTree.Failure
import ExprTree.Tree.Children

/-!
# Copy-on-write walks

A walk visits a tree and gives back a tree. At each node it visits the children, and it builds the
node again only if a child came back as a different node; otherwise the node itself is returned, so
a walk that changes nothing returns its input.

* `Node.traverse` visits the children of a node in order and puts the results in their places. An
  invocation is the one node whose arguments are visited before its target.
* `Walk.children` adds the sharing: it keeps the node if every child came back as itself.
* `Guard` counts nested visits against a limit, and `Walk.guarded` runs a visit one level further
  down and comes back up whatever its outcome.
* `Walker` is a walk with its own treatment of variables and constants.
-/

namespace ExprTree

/-! ## Visiting the children of one node -/

/-- Visits the items of a list in order. -/
def visitList {m : Type → Type} [Monad m] {α β : Type} :
    (items : List α) → (visit : (a : α) → a ∈ items → m β) → m (List β)
  | [], _ => pure []
  | a :: rest, visit => do
    let b ← visit a List.mem_cons_self
    let bs ← visitList rest fun a h => visit a (List.mem_cons_of_mem _ h)
    pure (b :: bs)

/-- Visits an optional item; an absent one stays absent. -/
def visitOption {m : Type → Type} [Monad m] {α β : Type} :
    (item : Option α) → (visit : (a : α) → a ∈ item.toList → m β) → m (Option β)
  | none, _ => pure none
  | some a, visit => do
    let b ← visit a (by simp)
    pure (some b)

/-- Visits the arguments of a constructor call. -/
def Construct.traverse {m : Type → Type} [Monad m] {α β : Type} (c : Construct α)
    (visit : (a : α) → a ∈ c.args → m β) : m (Construct β) := do
  let args ← visitList c.args visit
  pure { ty := c.ty, args := args, members := c.members }

/-- Visits the arguments of element initializers. -/
def ElementInit.traverseAll {m : Type → Type} [Monad m] {α β : Type} :
    (es : List (ElementInit α)) → (visit : (a : α) → a ∈ es.flatMap (·.args) → m β) →
      m (List (ElementInit β))
  | [], _ => pure []
  | e :: es, visit => do
    let args ← visitList e.args fun a h => visit a (by simp [h])
    let rest ← ElementInit.traverseAll es fun a h =>
      visit a (by rw [List.flatMap_cons]; exact List.mem_append_right _ h)
    pure ({ addMethod := e.addMethod, args := args } :: rest)

mutual

/-- Visits the expressions of a binding. -/
def Binding.traverse {m : Type → Type} [Monad m] {α β : Type} :
    (b : Binding α) → (visit : (a : α) → a ∈ b.exprs → m β) → m (Binding β)
  | .assign member e, visit => do
    let e ← visit e (by simp [Binding.exprs])
    pure (.assign member e)
  | .nested member bs, visit => do
    let bs ← Binding.traverseAll bs fun a h => visit a (by rw [Binding.exprs]; exact h)
    pure (.nested member bs)
  | .elements member es, visit => do
    let es ← ElementInit.traverseAll es fun a h => visit a (by rw [Binding.exprs]; exact h)
    pure (.elements member es)

/-- Visits the expressions of a list of bindings. -/
def Binding.traverseAll {m : Type → Type} [Monad m] {α β : Type} :
    (bs : List (Binding α)) → (visit : (a : α) → a ∈ Binding.exprsOfAll bs → m β) →
      m (List (Binding β))
  | [], _ => pure []
  | b :: bs, visit => do
    let b ← Binding.traverse b fun a h => visit a (by simp [Binding.exprsOfAll, h])
    let bs ← Binding.traverseAll bs fun a h => visit a (by simp [Binding.exprsOfAll, h])
    pure (b :: bs)

end

/-- Visits the children of a node and puts the results in their places; everything else is kept. -/
def Node.traverse {m : Type → Type} [Monad m] :
    (n : Node) → (visit : (c : Expr) → c ∈ n.children → m Expr) → m Node
  | .unary op e ty method, visit => do
    let e ← visit e (by simp [Node.children])
    pure (.unary op e ty method)
  | .binary op l r c lifted method ty, visit => do
    let l' ← visit l (by simp [Node.children])
    let r' ← visit r (by simp [Node.children])
    let c' ← visitOption c fun a h =>
      visit a (by simp only [Node.children, List.mem_cons, h, or_true])
    pure (.binary op l' r' c' lifted method ty)
  | .typeIs e tested, visit => do
    let e ← visit e (by simp [Node.children])
    pure (.typeIs e tested)
  | .conditional t a b ty, visit => do
    let t' ← visit t (by simp [Node.children])
    let a' ← visit a (by simp [Node.children])
    let b' ← visit b (by simp [Node.children])
    pure (.conditional t' a' b' ty)
  | .constant value ty, _ => pure (.constant value ty)
  | .variable v, _ => pure (.variable v)
  | .memberAccess o member, visit => do
    let o ← visitOption o visit
    pure (.memberAccess o member)
  | .call o method args, visit => do
    let o ← visitOption o fun a h => visit a (List.mem_append_left _ h)
    let args ← visitList args fun a h => visit a (List.mem_append_right _ h)
    pure (.call o method args)
  | .lambda params body ty, visit => do
    let body ← visit body (by simp [Node.children])
    pure (.lambda params body ty)
  | .construct c, visit => do
    let c ← c.traverse visit
    pure (.construct c)
  | .newArray kind elem items, visit => do
    let items ← visitList items visit
    pure (.newArray kind elem items)
  | .invocation target args ty, visit => do
    let args ← visitList args fun a h => visit a (List.mem_cons_of_mem _ h)
    let target ← visit target List.mem_cons_self
    pure (.invocation target args ty)
  | .memberInit c bs, visit => do
    let c ← c.traverse fun a h => visit a (List.mem_append_left _ h)
    let bs ← Binding.traverseAll bs fun a h => visit a (List.mem_append_right _ h)
    pure (.memberInit c bs)
  | .listInit c es, visit => do
    let c ← c.traverse fun a h => visit a (List.mem_append_left _ h)
    let es ← ElementInit.traverseAll es fun a h => visit a (List.mem_append_right _ h)
    pure (.listInit c es)
  | .extension kind ty, _ => pure (.extension kind ty)

/-! ## Guarded walks -/

/-- Counts nested visits against a limit. -/
structure Guard where
  limit : Nat
  depth : Nat := 0
  deriving DecidableEq, Inhabited

/-- One level further down, unless the limit is reached. -/
def Guard.enter? (g : Guard) : Option Guard :=
  if g.depth < g.limit then some { g with depth := g.depth + 1 } else none

/-- One level up. -/
def Guard.leave (g : Guard) : Guard := { g with depth := g.depth - 1 }

/-- The state of a walk: the supply of identities, a guard if nesting is limited, and what the walk
keeps for itself. It survives a failure. -/
structure WalkState (σ : Type) where
  supply : Supply
  guard : Option Guard
  own : σ

/-- A step of a walk that keeps a state of type `σ`. -/
abbrev Walk (σ : Type) := ExceptT Failure (StateM (WalkState σ))

namespace Walk

variable {σ : Type} {α : Type}

/-- Changes what the walk keeps for itself. -/
@[inline] def modifyOwn (f : σ → σ) : Walk σ Unit := modify fun s => { s with own := f s.own }

/-- Gives a node an identity of its own. -/
def alloc (n : Node) : Walk σ Expr := do
  let s ← get
  let (e, supply) := n.alloc.run s.supply
  set { s with supply := supply }
  pure e

/-- Runs a step one level further down. The guard is back at its old depth afterwards, also if the
step fails; at the limit the step is not run. -/
def guarded (step : Walk σ α) : Walk σ α := fun s =>
  match s.guard with
  | none => step s
  | some g =>
    match g.enter? with
    | none => (.error (.depthExceeded g.limit), s)
    | some g' =>
      let (result, s') := step { s with guard := some g' }
      (result, { s' with guard := s'.guard.map Guard.leave })

/-- Did every child come back as the very same node? -/
def sameChildren (before after : Node) : Bool :=
  before.children.map (·.label) == after.children.map (·.label)

/-- Visits the children of an expression. If each comes back as itself the expression is returned,
otherwise a new node around the results. -/
def children (e : Expr) (visit : (c : Expr) → c ∈ e.children → Walk σ Expr) : Walk σ Expr := do
  let n ← e.node.traverse visit
  if sameChildren e.node n then pure e else alloc n

end Walk

/-! ## Walkers -/

/-- A walk with its own treatment of leaves. -/
structure Walker (σ : Type) where
  /-- Runs before a node is visited. -/
  enter : Expr → Walk σ Unit := fun _ => pure ()
  /-- What a constant becomes. -/
  constant : Expr → Value → Walk σ Expr := fun e _ => pure e
  /-- What a variable becomes. -/
  var : Expr → Variable → Walk σ Expr := fun e _ => pure e

/-- Visits an expression: leaves as the walker says, an extension node fails, and any other node is
walked through its children. -/
def Walker.visit {σ : Type} (w : Walker σ) (e : Expr) : Walk σ Expr := do
  w.enter e
  Walk.guarded <|
    match e.node with
    | .constant value _ => w.constant e value
    | .variable v => w.var e v
    | .extension kind _ => throw (.unhandledKind kind)
    | _ => Walk.children e fun c _ => w.visit c
termination_by sizeOf e
decreasing_by exact Expr.sizeOf_lt_of_mem_children ‹_›

end ExprTree
