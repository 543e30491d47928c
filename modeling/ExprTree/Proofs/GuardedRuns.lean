import ExprTree.Proofs.Lockstep
import ExprTree.Proofs.Sequencing
import ExprTree.Proofs.Watch

/-!
# Runs under a guard

Expansion is a recursion on the number of levels that are left. That number only says what the guard knows
already: it is the guard that ends a run, and nothing in the tree has to. Here the recursion is run without
the number. One call of it is written once, for any *runner*. Run directly, with the next smaller number of
levels for the calls inside it, it is expansion (`Expansion.expandIn_succ`); run *watched*, it keeps where
the guard stood after every step, and the calls inside it are the same function again, cut off only after so
many nested calls.

`Balances` says that a watched run comes to an end, like the walk it is compared with, that the guard is then
back where it was, and that it never stood beyond its limit. One call keeps this if the calls inside it do,
one level further down; so more calls than there are levels are never used
(`guarded_runs_end_balanced`).
-/

namespace ExprTree

/-! ## Calls -/

/-- How the steps of a recursion are taken, single steps and steps one level further down. -/
structure Runner (σ : Type) (m : Type → Type) where
  step : {α : Type} → Walk σ α → m α
  nested : {α : Type} → m α → m α

section Calls

variable {σ : Type} {m : Type → Type} [Monad m]

/-- Visits the children of an expression, and keeps it or makes it again. -/
def childrenCall (r : Runner σ m) (e : Expr) (visit : Expr → m Expr) : m Expr := do
  let n ← e.node.traverse fun c _ => visit c
  r.step (if Walk.sameChildren e.node n then pure e else Walk.alloc n)

/-- One call of the search for the lambda that a target stands for. -/
def resolveCall (r : Runner Stats m) (resolve : Expr → m (List Variable × Expr)) (scope : Scope)
    (target : Expr) : m (List Variable × Expr) :=
  r.nested <|
    match target.node.layer with
    | .lambda params body => pure (params, body)
    | .var v =>
      match scope.lookup? v with
      | none => r.step (throw (.unresolvedTarget .unboundVariable))
      | some replacement =>
        match replacement.node with
        | .variable _ => r.step (throw (.unresolvedTarget .unboundVariable))
        | _ => resolve replacement
    | .around count inner => do
      r.step (Walk.modifyOwn count)
      resolve inner
    | .blocked failure => r.step (throw failure)

/-- One call of expansion. -/
def visitCall (r : Runner Stats m) (resolve : Scope → Expr → m (List Variable × Expr))
    (visit : Scope → Expr → m Expr) (scope : Scope) (e : Expr) : m Expr :=
  r.nested <|
    match e.node.action with
    | .look v => pure ((scope.lookup? v).getD e)
    | .pass => pure e
    | .inline target args => do
      let (params, body) ← resolve scope target
      if params.length ≠ args.length then
        r.step (throw (.arityMismatch params.length args.length))
      let replacements ← visitList args fun a _ => visit scope a
      let inner ← r.step (liftM (scope.extend (params.zip replacements)))
      r.step (Walk.modifyOwn Stats.inlined)
      visit inner body
    | .capture compiled tree => do
      r.step (Walk.modifyOwn (if compiled then Stats.resolved ∘ Stats.unwrapped else Stats.resolved))
      visit scope tree
    | .unwrap query => do
      r.step (Walk.modifyOwn Stats.unwrapped)
      visit scope query
    | .descend => childrenCall r e (visit scope)
    | .fail failure => r.step (throw failure)

/-- One call of a walker. -/
def Walker.visitCall (r : Runner σ m) (w : Walker σ) (visit : Expr → m Expr) (e : Expr) : m Expr := do
  r.step (w.enter e)
  r.nested <|
    match e.node with
    | .constant value _ => r.step (w.constant e value)
    | .variable v => r.step (w.var e v)
    | .extension kind _ => r.step (throw (.unhandledKind kind))
    | _ => childrenCall r e visit

end Calls

/-- Steps are taken as they are. -/
def Runner.direct {σ : Type} : Runner σ (Walk σ) := ⟨fun x => x, Walk.guarded⟩

namespace Expansion

/-- The search for a lambda is made of such calls, each with one level less. -/
theorem peelTarget_succ (scope : Scope) (levels : Nat) (target : Expr) :
    peelTarget scope (levels + 1) target =
      resolveCall .direct (peelTarget scope levels) scope target := by
  have hinner : peelTarget scope levels = peelUnder .idle scope levels :=
    funext fun inner => (peelUnder_idle scope levels inner).symm
  rw [hinner, ← peelUnder_idle, peelUnder]
  refine congrArg Walk.guarded ?_
  cases target.node.layer with
  | var v =>
    simp only
    cases scope.lookup? v with
    | none => rfl
    | some replacement => cases replacement.node <;> rfl
  | around count inner =>
    simp only [require_unquotes_idle]
    rfl
  | _ => rfl

/-- Expansion is made of such calls, each with one level less. -/
theorem expandIn_succ (levels : Nat) (scope : Scope) (e : Expr) : expandIn (levels + 1) scope e =
    visitCall .direct (fun scope => peelTarget scope levels) (expandIn levels) scope e := by
  have hinner : expandIn levels = expandUnder .idle asWritten levels :=
    funext fun scope => funext fun e => (expandUnder_idle levels scope e).symm
  rw [hinner, ← expandUnder_idle, expandUnder]
  refine congrArg Walk.guarded ?_
  cases e.node.action with
  | inline target args =>
    simp only [peelUnder_idle]
    rfl
  | _ => rfl

end Expansion

theorem Walker.visit_eq {σ : Type} (w : Walker σ) (e : Expr) :
    w.visit e = w.visitCall .direct w.visit e := by
  rw [Walker.visit, Walker.visitCall]
  cases e.node <;> rfl

/-! ## Watched runs -/

/-- A run that keeps where the guard stood after every step. It may be cut off without an outcome. -/
abbrev Watched (σ : Type) := ExceptT Failure (StateT (WalkState σ × List (Option Guard)) Option)

namespace Watched

variable {σ α β : Type}

/-- Takes a step and looks at the guard. -/
def step (x : Walk σ α) : Watched σ α := fun (st, seen) =>
  some ((x st).1, (x st).2, seen ++ [(x st).2.guard])

/-- Runs one level further down. The guard is looked at on the way down, on the way up, and if it does not
let the run pass. -/
def nested (x : Watched σ α) : Watched σ α := fun (st, seen) =>
  match st.guard with
  | none => x (st, seen)
  | some g =>
    match g.enter? with
    | none => some (.error (.depthExceeded g.limit), st, seen ++ [some g])
    | some g' =>
      match x ({ st with guard := some g' }, seen ++ [some g']) with
      | none => none
      | some (result, st', seen') =>
        some (result, { st' with guard := st'.guard.map Guard.leave },
          seen' ++ [st'.guard.map Guard.leave])

/-- The run that is cut off at once. -/
def cutOff : Watched σ α := fun _ => none

theorem run_bind (x : Watched σ α) (f : α → Watched σ β) (s : WalkState σ × List (Option Guard)) :
    (x >>= f) s = match x s with
      | none => none
      | some (.ok a, s') => f a s'
      | some (.error failure, s') => some (.error failure, s') := by
  change (x s).bind (fun p => ExceptT.bindCont f p.1 p.2) = _
  rcases x s with _ | ⟨_ | a, s'⟩ <;> rfl

end Watched

/-- Steps are taken one by one and looked at. -/
def Runner.watched {σ : Type} : Runner σ (Watched σ) := ⟨Watched.step, Watched.nested⟩

/-- The search for a lambda, cut off after a number of nested calls. -/
def Expansion.resolveWithin (scope : Scope) :
    (calls : Nat) → (target : Expr) → Watched Stats (List Variable × Expr)
  | 0, _ => Watched.cutOff
  | calls + 1, target => resolveCall .watched (resolveWithin scope calls) scope target

/-- Expansion, cut off after a number of nested calls. -/
def Expansion.visitWithin : (calls : Nat) → (scope : Scope) → (e : Expr) → Watched Stats Expr
  | 0, _, _ => Watched.cutOff
  | calls + 1, scope, e =>
    visitCall .watched (fun scope => resolveWithin scope calls) (visitWithin calls) scope e

/-- A walker, cut off after a number of nested calls. -/
def Walker.visitWithin {σ : Type} (w : Walker σ) : (calls : Nat) → (e : Expr) → Watched σ Expr
  | 0, _ => Watched.cutOff
  | calls + 1, e => w.visitCall .watched (w.visitWithin calls) e

/-! ## Runs that end where they began -/

section Balances

variable {σ α β : Type} {limit depth : Nat}

/-- Wherever the guard stands at `depth`, the watched run comes to an end, with the outcome of the walk and
in the same state. Then the guard stands at `depth` again, and at every moment in between it had its limit
and stood no deeper. -/
def Balances (limit depth : Nat) (x : Watched σ α) (y : Walk σ α) : Prop :=
  ∀ (st : WalkState σ) (seen : List (Option Guard)), st.guard = some ⟨limit, depth⟩ →
    ∃ moments, x (st, seen) = some ((y st).1, (y st).2, seen ++ moments) ∧
      (y st).2.guard = some ⟨limit, depth⟩ ∧ ∀ g ∈ moments, ∃ d ≤ limit, g = some ⟨limit, d⟩

theorem balances_pure (a : α) : Balances limit depth (pure a : Watched σ α) (pure a) := by
  intro st seen hguard
  refine ⟨[], ?_, hguard, by simp⟩
  rw [List.append_nil]
  rfl

/-- The step does not touch the guard, whether it succeeds or fails. -/
def Walk.LeavesGuard (x : Walk σ α) : Prop := ∀ st, (x st).2.guard = st.guard

theorem balances_step (hdepth : depth ≤ limit) {x : Walk σ α} (hx : x.LeavesGuard) :
    Balances limit depth (Watched.step x) x := by
  intro st seen hguard
  have hsame := (hx st).trans hguard
  refine ⟨[(x st).2.guard], rfl, hsame, fun g hg => ?_⟩
  rw [List.mem_singleton.1 hg]
  exact ⟨depth, hdepth, hsame⟩

theorem Balances.bind {x : Watched σ α} {y : Walk σ α} {f : α → Watched σ β} {g : α → Walk σ β}
    (hxy : Balances limit depth x y) (hfg : ∀ a, Balances limit depth (f a) (g a)) :
    Balances limit depth (x >>= f) (y >>= g) := by
  intro st seen hguard
  obtain ⟨moments, hrun, hafter, hmoments⟩ := hxy st seen hguard
  rw [Watched.run_bind, Walk.run_bind, hrun]
  rcases hy : y st with ⟨failure | a, st'⟩
  · rw [hy] at hafter
    exact ⟨moments, rfl, hafter, hmoments⟩
  · rw [hy] at hafter
    obtain ⟨moments', hrun', hafter', hmoments'⟩ := hfg a st' (seen ++ moments) hafter
    refine ⟨moments ++ moments', ?_, hafter', fun g hg => ?_⟩
    · rw [← List.append_assoc]
      exact hrun'
    · exact (List.mem_append.1 hg).elim (hmoments g) (hmoments' g)

/-- A run that balances one level further down balances here, and at the limit nothing is run. -/
theorem Balances.nested (hdepth : depth ≤ limit) {x : Watched σ α} {y : Walk σ α}
    (h : depth < limit → Balances limit (depth + 1) x y) :
    Balances limit depth (Watched.nested x) (Walk.guarded y) := by
  intro st seen hguard
  by_cases hlt : depth < limit
  · have henter : Guard.enter? ⟨limit, depth⟩ = some ⟨limit, depth + 1⟩ := if_pos hlt
    obtain ⟨moments, hrun, hafter, hmoments⟩ := h hlt { st with guard := some ⟨limit, depth + 1⟩ }
      (seen ++ [some ⟨limit, depth + 1⟩]) rfl
    rw [Walk.guarded_inside hguard hlt y]
    simp only [Watched.nested, hguard, henter, hrun, hafter]
    refine ⟨some ⟨limit, depth + 1⟩ :: (moments ++ [some ⟨limit, depth⟩]), ?_, rfl, ?_⟩
    · simp [Guard.leave]
    · intro g hg
      simp only [List.mem_cons, List.mem_append, List.not_mem_nil, or_false] at hg
      rcases hg with rfl | hg | rfl
      · exact ⟨depth + 1, hlt, rfl⟩
      · exact hmoments g hg
      · exact ⟨depth, hdepth, rfl⟩
  · have henter : Guard.enter? ⟨limit, depth⟩ = none := if_neg hlt
    simp only [Watched.nested, Walk.guarded, hguard, henter]
    refine ⟨[some ⟨limit, depth⟩], rfl, trivial, fun g hg => ?_⟩
    exact ⟨depth, hdepth, List.mem_singleton.1 hg⟩

/-- With no level left, a walk does what the guard does at its limit. -/
theorem balances_tooDeep (x : Watched Stats α) :
    Balances limit limit (Watched.nested x) (Expansion.tooDeep : Expansion α) := by
  have hnested : Balances limit limit (Watched.nested x) (Walk.guarded (throw (.depthExceeded limit))) :=
    Balances.nested (Nat.le_refl limit) fun hlt => absurd hlt (Nat.lt_irrefl limit)
  intro st seen hguard
  have hsame : (Expansion.tooDeep : Expansion α) st =
      Walk.guarded (throw (.depthExceeded limit)) st := by
    have henter : Guard.enter? ⟨limit, limit⟩ = none := if_neg (Nat.lt_irrefl limit)
    obtain ⟨supply, guard, own⟩ := st
    cases hguard
    simp only [Walk.guarded, henter]
    rfl
  rw [hsame]
  exact hnested st seen hguard

end Balances

/-! ## One call -/

theorem sequenced_balances {σ : Type} (limit depth : Nat) :
    Sequenced fun α (x : Watched σ α) (y : Walk σ α) => Balances limit depth x y :=
  ⟨balances_pure, Balances.bind⟩

namespace Walk

variable {σ α : Type}

theorem leavesGuard_throw (failure : Failure) : LeavesGuard (throw failure : Walk σ α) := fun _ => rfl

theorem leavesGuard_modifyOwn (f : σ → σ) : LeavesGuard (modifyOwn f) := fun _ => rfl

theorem leavesGuard_extend (s : Scope) (pairs : List (Variable × Expr)) :
    LeavesGuard (liftM (s.extend pairs) : Walk σ Scope) := by
  intro st
  cases s.extend pairs <;> rfl

theorem leavesGuard_kept_or_made (condition : Bool) (e : Expr) (n : Node) :
    LeavesGuard (if condition then pure e else alloc n : Walk σ Expr) := by
  intro st
  cases condition <;> rfl

end Walk

/-- The walker does not touch the guard where it treats a node in its own way. -/
structure Walker.LeavesGuard {σ : Type} (w : Walker σ) : Prop where
  enter : ∀ e, (w.enter e).LeavesGuard
  constant : ∀ e value, (w.constant e value).LeavesGuard
  var : ∀ e v, (w.var e v).LeavesGuard

section Call

open Walk

variable {σ : Type} {limit depth : Nat}

theorem balances_childrenCall (hdepth : depth ≤ limit) (e : Expr) {visit : Expr → Watched σ Expr}
    {visit' : Expr → Walk σ Expr} (hvisit : ∀ c, Balances limit depth (visit c) (visit' c)) :
    Balances limit depth (childrenCall .watched e visit) (childrenCall .direct e visit') := by
  refine Balances.bind ((sequenced_balances limit depth).node fun c _ => hvisit c) fun n => ?_
  exact balances_step hdepth (leavesGuard_kept_or_made _ e n)

theorem balances_resolveCall (hdepth : depth ≤ limit) (scope : Scope) (target : Expr)
    {resolve : Expr → Watched Stats (List Variable × Expr)}
    {resolve' : Expr → Expansion (List Variable × Expr)}
    (hresolve : depth < limit → ∀ t, Balances limit (depth + 1) (resolve t) (resolve' t)) :
    Balances limit depth (resolveCall .watched resolve scope target)
      (resolveCall .direct resolve' scope target) := by
  refine Balances.nested hdepth fun hlt => ?_
  cases target.node.layer with
  | lambda params body => exact balances_pure (params, body)
  | var v =>
    simp only
    cases scope.lookup? v with
    | none => exact balances_step hlt (leavesGuard_throw _)
    | some replacement =>
      simp only
      split
      · exact balances_step hlt (leavesGuard_throw _)
      · exact hresolve hlt replacement
  | around count inner =>
    exact (balances_step hlt (leavesGuard_modifyOwn count)).bind fun _ => hresolve hlt inner
  | blocked failure => exact balances_step hlt (leavesGuard_throw failure)

theorem balances_visitCall (hdepth : depth ≤ limit) (scope : Scope) (e : Expr)
    {resolve : Scope → Expr → Watched Stats (List Variable × Expr)}
    {resolve' : Scope → Expr → Expansion (List Variable × Expr)}
    {visit : Scope → Expr → Watched Stats Expr} {visit' : Scope → Expr → Expansion Expr}
    (hresolve : depth < limit → ∀ s t, Balances limit (depth + 1) (resolve s t) (resolve' s t))
    (hvisit : depth < limit → ∀ s a, Balances limit (depth + 1) (visit s a) (visit' s a)) :
    Balances limit depth (visitCall .watched resolve visit scope e)
      (visitCall .direct resolve' visit' scope e) := by
  refine Balances.nested hdepth fun hlt => ?_
  have hcount : ∀ f : Stats → Stats,
      Balances limit (depth + 1) (Watched.step (modifyOwn f)) (modifyOwn f) := fun f =>
    balances_step hlt (leavesGuard_modifyOwn f)
  cases e.node.action with
  | look v => exact balances_pure _
  | pass => exact balances_pure e
  | inline target args =>
    refine (hresolve hlt scope target).bind fun found => ?_
    obtain ⟨params, body⟩ := found
    have hrest : ∀ _ : PUnit, Balances limit (depth + 1)
        (visitList args (fun a _ => visit scope a) >>= fun replacements => do
          let inner ← Watched.step (liftM (scope.extend (params.zip replacements)))
          Watched.step (modifyOwn Stats.inlined)
          visit inner body)
        (visitList args (fun a _ => visit' scope a) >>= fun replacements => do
          let inner ← (liftM (scope.extend (params.zip replacements)) : Expansion Scope)
          modifyOwn Stats.inlined
          visit' inner body) := fun _ =>
      ((sequenced_balances limit (depth + 1)).visitList fun a _ => hvisit hlt scope a).bind
        fun replacements => (balances_step hlt (leavesGuard_extend scope _)).bind fun inner =>
          (hcount Stats.inlined).bind fun _ => hvisit hlt inner body
    simp only
    split
    · exact (balances_step hlt (leavesGuard_throw _)).bind hrest
    · exact hrest ⟨⟩
  | capture compiled tree => exact (hcount _).bind fun _ => hvisit hlt scope tree
  | unwrap query => exact (hcount _).bind fun _ => hvisit hlt scope query
  | descend => exact balances_childrenCall hlt e (hvisit hlt scope)
  | fail failure => exact balances_step hlt (leavesGuard_throw failure)

theorem Walker.balances_visitCall {w : Walker σ} (hw : w.LeavesGuard) (hdepth : depth ≤ limit) (e : Expr)
    {visit : Expr → Watched σ Expr} {visit' : Expr → Walk σ Expr}
    (hvisit : depth < limit → ∀ c, Balances limit (depth + 1) (visit c) (visit' c)) :
    Balances limit depth (w.visitCall .watched visit e) (w.visitCall .direct visit' e) := by
  refine (balances_step hdepth (hw.enter e)).bind fun _ => Balances.nested hdepth fun hlt => ?_
  cases e.node with
  | constant value ty => exact balances_step hlt (hw.constant e value)
  | «variable» v => exact balances_step hlt (hw.var e v)
  | extension kind ty => exact balances_step hlt (leavesGuard_throw _)
  | _ => exact balances_childrenCall hlt e (hvisit hlt)

end Call

/-! ## Whole runs -/

namespace Expansion

variable {limit depth calls : Nat}

theorem balances_resolveWithin (hdepth : depth ≤ limit) (hcalls : limit - depth < calls) (scope : Scope)
    (target : Expr) : Balances limit depth (resolveWithin scope calls target)
      (peelTarget scope (limit - depth) target) := by
  induction calls generalizing depth target with
  | zero => cases hcalls
  | succ calls ih =>
    rw [resolveWithin]
    rcases Nat.lt_or_eq_of_le hdepth with hlt | rfl
    · rw [show limit - depth = limit - (depth + 1) + 1 by omega, peelTarget_succ]
      exact balances_resolveCall hdepth scope target fun _ inner => ih hlt (by omega) inner
    · rw [Nat.sub_self, peelTarget]
      exact balances_tooDeep _

theorem balances_visitWithin (hdepth : depth ≤ limit) (hcalls : limit - depth < calls) (scope : Scope)
    (e : Expr) : Balances limit depth (visitWithin calls scope e) (expandIn (limit - depth) scope e) := by
  induction calls generalizing depth scope e with
  | zero => cases hcalls
  | succ calls ih =>
    rw [visitWithin]
    rcases Nat.lt_or_eq_of_le hdepth with hlt | rfl
    · rw [show limit - depth = limit - (depth + 1) + 1 by omega, expandIn_succ]
      exact balances_visitCall hdepth scope e
        (fun _ s target => balances_resolveWithin hlt (by omega) s target)
        fun _ s a => ih hlt (by omega) s a
    · rw [Nat.sub_self, expandIn]
      exact balances_tooDeep _

end Expansion

theorem Walker.balances_visitWithin {σ : Type} {w : Walker σ} (hw : w.LeavesGuard) {limit depth calls : Nat}
    (hdepth : depth ≤ limit) (hcalls : limit - depth < calls) (e : Expr) :
    Balances limit depth (w.visitWithin calls e) (w.visit e) := by
  induction calls generalizing depth e with
  | zero => cases hcalls
  | succ calls ih =>
    rw [visitWithin, Walker.visit_eq]
    exact Walker.balances_visitCall hw hdepth e fun hlt c => ih hlt (by omega) c

/-- The guard bounds and balances every run. Let it stand at a depth within its limit. Then the recursion of
expansion, the search for a lambda and every walker that leaves the guard alone come to an end in any scope
and on any tree, also one that would reproduce itself forever: they never nest more calls than there are
levels left, and one to be refused. Their outcome is that of the walk, the guard is never beyond its limit,
and after a success as after a failure it stands where it stood before. -/
theorem guarded_runs_end_balanced {σ : Type} (limit depth calls : Nat) (hdepth : depth ≤ limit)
    (hcalls : limit - depth < calls) :
    (∀ scope e, Balances limit depth (Expansion.visitWithin calls scope e)
      (Expansion.expandIn (limit - depth) scope e)) ∧
    (∀ scope target, Balances limit depth (Expansion.resolveWithin scope calls target)
      (Expansion.peelTarget scope (limit - depth) target)) ∧
    ∀ w : Walker σ, w.LeavesGuard → ∀ e, Balances limit depth (w.visitWithin calls e) (w.visit e) :=
  ⟨Expansion.balances_visitWithin hdepth hcalls, Expansion.balances_resolveWithin hdepth hcalls,
    fun _ hw => Walker.balances_visitWithin hw hdepth hcalls⟩

namespace SelfReproduction

def x : Variable := ⟨0, "x", .object⟩

def applied : Expr := .mk 2 (.invokeOf (.mk 1 (.variable x)) [])

/-- The variable stands for a lambda that invokes it again. -/
def reproducing : Scope := ⟨[[(x, .mk 4 (.tree (.mk 3 (.lambdaOf [] applied))))]]⟩

/-- The variable stands for a tree that is the variable again. -/
def circular : Scope := ⟨[[(x, .mk 5 (.tree (.mk 1 (.variable x))))]]⟩

/-- Two of six levels are in use. -/
def start : WalkState Stats := { supply := ⟨6⟩, guard := some ⟨6, 2⟩, own := {} }

/-- Neither the expansion nor the search for a lambda would ever end by itself. Both are ended by the guard
after four levels more, and both leave it at the second level, as does a walker that succeeds. -/
theorem guarded_runs_end_balanced_on_selfReproduction :
    (∃ moments, Expansion.visitWithin 5 reproducing applied (start, []) =
        some (.error (.depthExceeded 6), { start with own := { invocationsInlined := 1 } }, moments) ∧
      ∀ g ∈ moments, ∃ d ≤ 6, g = some ⟨6, d⟩) ∧
    (∃ moments, Expansion.resolveWithin circular 5 (.mk 1 (.variable x)) (start, []) =
        some (.error (.depthExceeded 6), start, moments) ∧
      ∀ g ∈ moments, ∃ d ≤ 6, g = some ⟨6, d⟩) ∧
    ∃ moments, ({} : Walker Stats).visitWithin 5 applied (start, []) =
        some (.ok applied, start, moments) ∧
      ∀ g ∈ moments, ∃ d ≤ 6, g = some ⟨6, d⟩ := by
  have hplain : ({} : Walker Stats).LeavesGuard :=
    ⟨fun _ _ => rfl, fun _ _ _ => rfl, fun _ _ _ => rfl⟩
  obtain ⟨hvisit, hresolve, hwalk⟩ :=
    guarded_runs_end_balanced (σ := Stats) 6 2 5 (by decide) (by decide)
  obtain ⟨moments₁, hrun₁, -, hbound₁⟩ := hvisit reproducing applied start [] rfl
  obtain ⟨moments₂, hrun₂, -, hbound₂⟩ := hresolve circular (.mk 1 (.variable x)) start [] rfl
  obtain ⟨moments₃, hrun₃, -, hbound₃⟩ := hwalk {} hplain applied start [] rfl
  have hended : (({} : Walker Stats).visitWithin 5 applied (start, [])).map (fun r => (r.1, r.2.1)) =
      some (.ok applied, start) := rfl
  rw [hrun₃] at hended
  have hwalked : ({} : Walker Stats).visit applied start = (.ok applied, start) := Option.some.inj hended
  rw [hwalked] at hrun₃
  exact ⟨⟨moments₁, hrun₁, hbound₁⟩, ⟨moments₂, hrun₂, hbound₂⟩, moments₃, hrun₃, hbound₃⟩

end SelfReproduction

end ExprTree
