import ExprTree.Expansion.Inline

/-!
# Expansion with two openings

`Expansion.expandUnder` is expansion with a *watch*, which can stop it at what it meets, and a
*preparation*, which can change a lambda before it is inlined. With the idle watch and lambdas taken
as written it is `Expansion.expandIn` itself (`Expansion.expandUnder_idle`), so that what is proved
for every watch and preparation holds of expansion; `expandWith` is `expand` with the same openings.

What a visit does is decided by the node alone: `Node.action` names it, and `Node.layer` names the
outermost layer of an invocation target.
-/

namespace ExprTree

/-! ## What is done at a node -/

/-- What a visit does at a node. -/
inductive Action where
  /-- Looks a variable up in the scope. -/
  | look (v : Variable)
  /-- Gives back a constant. -/
  | pass
  /-- Inlines the lambda that `target` stands for. -/
  | inline (target : Expr) (args : List Expr)
  /-- Goes on with a captured tree; `compiled` if a marker around the read goes with it. -/
  | capture (compiled : Bool) (tree : Expr)
  /-- Goes on with the query inside a marker. -/
  | unwrap (query : Expr)
  /-- Visits the children. -/
  | descend
  | fail (failure : Failure)

/-- What a visit does at a node. -/
def Node.action : Node → Action
  | .variable v => .look v
  | .constant .. => .pass
  | .extension kind _ => .fail (.unhandledKind kind)
  | .invocation target args _ => .inline target args
  | .memberAccess object member =>
    match member.capturedTree? object with
    | some tree => .capture false tree
    | none => .descend
  | .call object method args =>
    match method.marker with
    | some .invoke =>
      match args with
      | target :: args => .inline target args
      | [] => .fail (.malformedMarker .invoke 0)
    | some .asExpandable =>
      match args with
      | [query] => .unwrap query
      | _ => .fail (.malformedMarker .asExpandable args.length)
    | some .compile =>
      match object.map Expr.node with
      | some (.memberAccess inner member) =>
        match member.capturedTree? inner with
        | some tree => .capture true tree
        | none => .descend
      | _ => .descend
    | none => .descend
  | _ => .descend

/-- What an invocation target is made of: a lambda, a variable to be looked up, or a layer around
another target, which counts as `count`. -/
inductive Layer where
  | lambda (params : List Variable) (body : Expr)
  | var (v : Variable)
  | around (count : Stats → Stats) (inner : Expr)
  | blocked (failure : Failure)

/-- The outermost layer of an invocation target. -/
def Node.layer : Node → Layer
  | .lambda params body _ => .lambda params body
  | .variable v => .var v
  | .memberAccess object member =>
    match member.capturedTree? object with
    | some tree => .around Stats.resolved tree
    | none => .blocked (.unresolvedTarget (.node .memberAccess))
  | .call object method args =>
    match method.marker with
    | some .compile =>
      match object with
      | some tree => .around Stats.unwrapped tree
      | none => .blocked (.malformedMarker .compile args.length)
    | _ => .blocked (.unresolvedTarget (.node .call))
  | .constant (.tree tree) _ => .around id tree
  | .unary .quote operand _ _ => .around id operand
  | other => .blocked (.unresolvedTarget (.node other.kind))

/-- The parameters that a node binds. -/
def Node.params : Node → List Variable
  | .lambda params _ _ => params
  | _ => []

/-- The tree that a node carries as data, outside a closure. -/
def Node.quoted : Node → List Expr
  | .constant (.tree t) _ => [t]
  | _ => []

/-! ## Expansion under a watch -/

/-- Conditions on what an expansion meets in a scope. -/
structure Watch where
  /-- May the children of this expression be visited? -/
  walks : Scope → Expr → Bool
  /-- May this replacement be opened as an invocation target? -/
  opens : Scope → Expr → Bool
  /-- May this constant be given back? -/
  passes : Scope → Expr → Bool
  /-- May this tree, which a constant carries, be opened as an invocation target? -/
  unquotes : Expr → Bool

/-- The watch that lets everything pass. -/
def Watch.idle : Watch := ⟨fun _ _ => true, fun _ _ => true, fun _ _ => true, fun _ => true⟩

/-- The watch that lets the trees in constants be opened only if they are among the given ones. -/
def Watch.opening (opened : Expr → Bool) : Watch := { Watch.idle with unquotes := opened }

/-- What is done to a lambda before its parameters are bound and its body is expanded. -/
abbrev Preparation := List Variable → Expr → Expansion (List Variable × Expr)

namespace Expansion

/-- Takes the lambda as it is. -/
def asWritten : Preparation := fun params body => pure (params, body)

/-- Goes on only if a condition holds. -/
def require (condition : Bool) : Expansion Unit :=
  if condition then pure () else throw (.recursiveBinding "")

/-- `peelTarget`, under a watch. -/
def peelUnder (watch : Watch) (scope : Scope) :
    (levels : Nat) → (target : Expr) → Expansion (List Variable × Expr)
  | 0, _ => tooDeep
  | levels + 1, target => Walk.guarded <|
    match target.node.layer with
    | .lambda params body => pure (params, body)
    | .var v =>
      match scope.lookup? v with
      | none => throw (.unresolvedTarget .unboundVariable)
      | some replacement =>
        match replacement.node with
        | .variable _ => throw (.unresolvedTarget .unboundVariable)
        | _ => do
          require (watch.opens scope replacement)
          peelUnder watch scope levels replacement
    | .around count inner => do
      Walk.modifyOwn count
      require (target.node.quoted.all watch.unquotes)
      peelUnder watch scope levels inner
    | .blocked failure => throw failure

/-- `expandIn`, under a watch and with inlined lambdas prepared. -/
def expandUnder (watch : Watch) (prepare : Preparation) :
    (levels : Nat) → (scope : Scope) → (e : Expr) → Expansion Expr
  | 0, _, _ => tooDeep
  | levels + 1, scope, e => Walk.guarded <|
    match e.node.action with
    | .look v => pure ((scope.lookup? v).getD e)
    | .pass => do
      require (watch.passes scope e)
      pure e
    | .inline target args => do
      let (params, body) ← peelUnder watch scope levels target
      if params.length ≠ args.length then
        throw (.arityMismatch params.length args.length)
      let replacements ← visitList args fun a _ => expandUnder watch prepare levels scope a
      let (params, body) ← prepare params body
      let inner ← liftM (scope.extend (params.zip replacements))
      Walk.modifyOwn Stats.inlined
      expandUnder watch prepare levels inner body
    | .capture compiled tree => do
      Walk.modifyOwn (if compiled then Stats.resolved ∘ Stats.unwrapped else Stats.resolved)
      expandUnder watch prepare levels scope tree
    | .unwrap query => do
      Walk.modifyOwn Stats.unwrapped
      expandUnder watch prepare levels scope query
    | .descend => do
      require (watch.walks scope e)
      Walk.children e fun c _ => expandUnder watch prepare levels scope c
    | .fail failure => throw failure

/-- The idle watch asks for nothing. -/
theorem require_unquotes_idle (n : Node) : require (n.quoted.all Watch.idle.unquotes) = pure () :=
  if_pos (List.all_eq_true.2 fun _ _ => rfl)

theorem peelUnder_idle (scope : Scope) (levels : Nat) (target : Expr) :
    peelUnder .idle scope levels target = peelTarget scope levels target := by
  induction levels generalizing target with
  | zero => rfl
  | succ levels ih =>
    rw [peelUnder, peelTarget]
    congr 1
    obtain ⟨l, n⟩ := target
    simp only [Expr.node_mk]
    cases n with
    | lambda | binary | typeIs | conditional | construct | newArray | invocation | memberInit
      | listInit | extension => rfl
    | «variable» v =>
      simp only [Node.layer]
      cases scope.lookup? v with
      | none => rfl
      | some r =>
        obtain ⟨l', n'⟩ := r
        cases n' <;> first | rfl | exact ih _
    | memberAccess object member =>
      simp only [Node.layer]
      cases member.capturedTree? object with
      | none => rfl
      | some tree =>
        simp only [ih]
        rfl
    | call object method args =>
      simp only [Node.layer]
      rcases method.marker with _ | _ | _ | _
      · rfl
      · rfl
      · rfl
      · cases object with
        | none => rfl
        | some tree =>
        simp only [ih]
        rfl
    | constant value ty =>
      cases value with
      | tree t => exact ih t
      | _ => rfl
    | unary op operand ty method =>
      cases op <;> first | rfl | exact ih operand

theorem expandUnder_idle (levels : Nat) (scope : Scope) (e : Expr) :
    expandUnder .idle asWritten levels scope e = expandIn levels scope e := by
  induction levels generalizing scope e with
  | zero => rfl
  | succ levels ih =>
    rw [expandUnder, expandIn]
    congr 1
    obtain ⟨l, n⟩ := e
    simp only [Expr.node_mk]
    cases n with
    | «variable» v => rfl
    | constant v ty => rfl
    | extension kind ty => rfl
    | invocation target args ty =>
      simp only [Node.action, ih, peelUnder_idle]
      rfl
    | memberAccess object member =>
      simp only [Node.action]
      cases member.capturedTree? object with
      | none =>
        simp only [ih]
        rfl
      | some tree =>
        simp only [ih]
        rfl
    | call object method args =>
      simp only [Node.action]
      rcases method.marker with _ | _ | _ | _
      · simp only [ih]
        rfl
      · cases args with
        | nil => rfl
        | cons target args =>
          simp only [ih, peelUnder_idle]
          rfl
      · rcases args with _ | ⟨query, _ | ⟨_, _⟩⟩
        · rfl
        · simp only [ih]
        · rfl
      · rcases object with _ | ⟨_, n⟩
        · simp only [Option.map_none, ih]
          rfl
        · cases n with
          | memberAccess inner member =>
            simp only [Option.map_some, Expr.node_mk]
            cases member.capturedTree? inner with
            | none =>
              simp only [ih]
              rfl
            | some tree =>
              simp only [ih]
              rfl
          | _ =>
            simp only [Option.map_some, Expr.node_mk, ih]
            rfl
    | _ =>
      simp only [Node.action, ih]
      rfl

end Expansion

/-- `expand`, under a watch and with inlined lambdas prepared. -/
def expandWith (watch : Watch) (prepare : Preparation) (limit : Nat) (e : Expr)
    (supply : Supply) : Except Failure (Expanded × Supply) :=
  match Expansion.expandUnder watch prepare limit .root e
    { supply, guard := some { limit }, own := {} } with
  | (.ok tree, s) => .ok (⟨tree, s.own⟩, s.supply)
  | (.error failure, _) => .error failure

theorem expandWith_idle (limit : Nat) (e : Expr) (supply : Supply) :
    expandWith .idle Expansion.asWritten limit e supply = expand limit e supply := by
  rw [expandWith, Expansion.expandUnder_idle]
  rfl

end ExprTree
