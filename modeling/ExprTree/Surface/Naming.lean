import ExprTree.Surface.Lexer
import ExprTree.Tree.Children

/-!
# Closures and names of a printed tree

Before a tree is printed, two things are settled.

* `closuresOf` lists the closures that the tree reaches, each once and each behind those that its
  own fields use: the order of their declarations.
* `Names.ofTree` gives every variable a name of its own. A variable keeps its name if it is an
  identifier that nothing else has; otherwise a number is added. Variables that are met outside the
  lambdas that bind them become free declarations.
-/

namespace ExprTree

/-! ## Closures -/

/-- The closures met so far, and those that are settled, the last one first. -/
structure ClosureScan where
  seen : List Nat := []
  settled : List (Closure Value) := []

/-- The payload of a field is smaller than its closure. -/
theorem Closure.sizeOf_lt_of_mem {c : Closure Value} {f : String × Value} (h : f ∈ c.fields) :
    sizeOf f.2 < sizeOf c := by
  have := List.sizeOf_lt_of_mem h
  obtain ⟨name, value⟩ := f
  cases c
  simp only [Prod.mk.sizeOf_spec, Closure.mk.sizeOf_spec] at this ⊢
  omega

mutual

/-- Adds the closures that an expression reaches. -/
def Expr.scanClosures : Expr → ClosureScan → ClosureScan
  | .mk _ (.constant v _), s => v.scanClosures s
  | e, s => e.children.attach.foldl (fun s c => c.1.scanClosures s) s
termination_by e => sizeOf e
decreasing_by
  · simp only [Expr.mk.sizeOf_spec, Node.constant.sizeOf_spec]
    omega
  · exact Expr.sizeOf_lt_of_mem_children c.2

/-- Adds the closures that a payload reaches. A closure is marked before its fields are entered and
settled after them. -/
def Value.scanClosures : Value → ClosureScan → ClosureScan
  | .tree t, s => t.scanClosures s
  | .closure c, s =>
    if s.seen.contains c.id then s
    else
      let inner := c.fields.attach.foldl (fun s f => f.1.2.scanClosures s)
        { s with seen := c.id :: s.seen }
      { inner with settled := c :: inner.settled }
  | _, s => s
termination_by v => sizeOf v
decreasing_by
  · simp only [Value.tree.sizeOf_spec]
    omega
  · have := Closure.sizeOf_lt_of_mem f.2
    simp only [Value.closure.sizeOf_spec]
    omega

end

/-- The closures that a tree reaches, each behind those that its fields use. -/
def closuresOf (e : Expr) : List (Closure Value) := (e.scanClosures {}).settled.reverse

/-! ## Names -/

/-- The words that no variable may be called. -/
def reservedWords : List String := ["closure", "free", "static", "true", "false", "null"]

/-- Can a variable be called this? -/
def isPlainName (name : String) : Bool :=
  match name.toList with
  | [] => false
  | c :: cs => Lexer.isIdentStart c && cs.all Lexer.isIdentRest && !reservedWords.contains name

/-- The names given to variables. -/
structure Names where
  /-- The names given so far. -/
  assigned : List (Variable × String) := []
  /-- The names that can no longer be given. -/
  taken : List String := []
  /-- The variables bound at the place being looked at. -/
  bound : List Variable := []
  /-- The variables to be declared as free, the last one first. -/
  free : List Variable := []

namespace Names

/-- The name of a variable. -/
def name (ns : Names) (v : Variable) : String := (ns.assigned.lookup v).getD v.name

/-- The `n`-th name tried for a variable. -/
def nthCandidate (base : String) (n : Nat) : String :=
  if n == 0 then base else base ++ "_" ++ toString n

/-- The first candidate that is not taken. Of one more candidates than there are taken names, one is
free. -/
def unusedName (taken : List String) (base : String) : String :=
  let n := (List.range (taken.length + 1)).find? fun n => !taken.contains (nthCandidate base n)
  nthCandidate base (n.getD 0)

/-- Gives a variable a name, unless it has one. -/
def assign (ns : Names) (v : Variable) : Names :=
  if (ns.assigned.lookup v).isSome then ns
  else
    let name := unusedName ns.taken (if isPlainName v.name then v.name else "v")
    { ns with assigned := (v, name) :: ns.assigned, taken := name :: ns.taken }

/-- Names a variable that occurs here; it is free if it has no name yet and is not bound here. -/
def occur (ns : Names) (v : Variable) : Names :=
  if (ns.assigned.lookup v).isSome then ns
  else
    let ns' := ns.assign v
    if ns.bound.contains v then ns' else { ns' with free := v :: ns'.free }

/-- Names the variables of an expression in the order in which they are met. -/
def scan : Expr → Names → Names
  | .mk _ (.variable v), ns => ns.occur v
  | .mk _ (.lambda params body _), ns =>
    let inner := params.foldl (fun ns v => { ns.assign v with bound := v :: ns.bound }) ns
    { scan body inner with bound := ns.bound }
  | .mk _ (.constant (.tree t) _), ns => scan t ns
  | e, ns => e.children.attach.foldl (fun ns c => scan c.1 ns) ns
termination_by e => sizeOf e
decreasing_by
  · simp only [Expr.mk.sizeOf_spec, Node.lambda.sizeOf_spec]
    omega
  · simp only [Expr.mk.sizeOf_spec, Node.constant.sizeOf_spec, Value.tree.sizeOf_spec]
    omega
  · exact Expr.sizeOf_lt_of_mem_children c.2

/-- Names the variables of the trees in the fields of a closure, which stand outside every
lambda. -/
def scanFields (ns : Names) (c : Closure Value) : Names :=
  c.fields.foldl (fun ns f =>
    match f.2 with
    | .tree t => { scan t { ns with bound := [] } with bound := ns.bound }
    | _ => ns) ns

/-- The names for a tree and the closures declared before it. No variable is called like a
closure. -/
def ofTree (closures : List (Closure Value)) (e : Expr) : Names :=
  scan e (closures.foldl scanFields { taken := closures.map (·.name) })

end Names

end ExprTree
