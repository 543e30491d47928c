import ExprTree.Query
import ExprTree.Proofs.Vocabulary
import Mathlib.Logic.Relation

/-!
# Sessions with an expandable query

A caller who holds an expandable query asks its provider for queries and for values, and goes on
with the typed queries that come back. What the backend receives is observed by a backend that notes
each call and otherwise answers as the one observed (`Provider.noting`), whatever that does: it may
keep any state, fail, draw identities and hand back queries that are expandable already.

One request is settled by `Provider.ask_expanding`: it is refused where the expression does not
expand, and is delegated with the expanded tree otherwise. The invariant of a session is that the
caller holds queries with one wrapper each; a request keeps it, because `Query.asExpandable` adds a
wrapper only where there is none. An induction over the requests gives it for every session.
-/

namespace ExprTree

variable {σ : Type}

/-! ## Wrappers -/

namespace Query

/-- The number of wrappers around the backend's own query. -/
def layers : Query → Nat
  | .plain .. => 0
  | .expandable inner _ => inner.layers + 1

/-- The queries that can be had: a wrapper is put around one by `asExpandable` only. -/
inductive Built : Query → Prop
  | plain (e : Expr) (element : Ty) : Built (.plain e element)
  | wrapped {q : Query} (limit : Nat) : q.Built → Built (q.asExpandable limit)

theorem isExpandable_asExpandable (q : Query) (limit : Nat) :
    (q.asExpandable limit).isExpandable = true := by
  cases q <;> rfl

/-- An expandable query is not wrapped again. -/
theorem asExpandable_of_isExpandable {q : Query} (h : q.isExpandable = true) (limit : Nat) :
    q.asExpandable limit = q := by
  cases q with
  | plain => cases h
  | expandable => rfl

/-- A wrapper stands around a query of the backend, never around another wrapper. -/
theorem Built.eq_plain_of_expandable {q : Query} (hq : q.Built) :
    ∀ {inner : Query} {limit : Nat}, q = .expandable inner limit → ∃ e element, inner = .plain e element := by
  induction hq with
  | plain => exact fun h => nomatch h
  | @wrapped q limit _ ih =>
    intro inner limit' h
    cases q with
    | plain e element =>
      cases h
      exact ⟨e, element, rfl⟩
    | expandable => exact ih h

/-- Among the queries that can be had, the expandable ones have one wrapper. -/
theorem Built.layers_eq_one {q : Query} (hq : q.Built) (h : q.isExpandable = true) : q.layers = 1 := by
  cases q with
  | plain => cases h
  | expandable inner limit =>
    obtain ⟨e, element, rfl⟩ := hq.eq_plain_of_expandable rfl
    rfl

end Query

/-! ## Requests -/

/-- What a provider is asked for, with the type that a typed request gives. -/
inductive Operation where
  | create (element : Ty)
  | createUntyped
  | execute (result : Ty)
  | executeUntyped
  deriving DecidableEq

/-- What a provider answers. -/
inductive Answer where
  | query (q : Query)
  | value (v : Value)

/-- What becomes of the answer of a backend on its way to the caller: typed queries are wrapped. -/
def Operation.rewrap (limit : Nat) : Operation → Answer → Answer
  | .create _, .query q => .query (q.asExpandable limit)
  | _, answer => answer

namespace Provider

/-- Asks a provider for one of its operations on an expression. -/
def ask (p : Provider σ) (op : Operation) (e : Expr) : QueryStep σ Answer :=
  match op with
  | .create element => .query <$> p.create e element
  | .createUntyped => .query <$> p.createUntyped e
  | .execute result => .value <$> p.execute e result
  | .executeUntyped => .value <$> p.executeUntyped e

/-- What goes on after an expression is expanded goes on with the expanded tree, if there is one. -/
theorem expanded_bind {α : Type} (limit : Nat) (e : Expr) (next : Expr → QueryStep σ α) (own : σ)
    (supply : Supply) :
    (expanded limit e >>= next) (own, supply) =
      match expand limit e supply with
      | .error failure => (.error (.expansion failure), (own, supply))
      | .ok (r, supply') => next r.tree (own, supply') := by
  have hget : (get : QueryStep σ (σ × Supply)) (own, supply) = (.ok (own, supply), (own, supply)) := rfl
  simp only [expanded, bind, ExceptT.bind, ExceptT.mk, StateT.bind, ExceptT.bindCont, hget]
  cases expand limit e supply <;> rfl

/-- An expanding provider asks its inner provider for the same on the expanded expression. -/
theorem ask_expanding (p : Provider σ) (limit : Nat) (op : Operation) (e : Expr) :
    (p.expanding limit).ask op e =
      expanded limit e >>= fun t => op.rewrap limit <$> p.ask op t := by
  cases op <;> simp [ask, expanding, Operation.rewrap]

end Provider

/-- A function applied to the result of a step leaves failures and states alone. -/
theorem QueryStep.map_apply {α β : Type} (f : α → β) (step : QueryStep σ α) (st : σ × Supply) :
    (f <$> step) st = (Except.map f (step st).1, (step st).2) := by
  simp only [Functor.map, ExceptT.map, ExceptT.mk, bind, StateT.bind]
  rcases step st with ⟨_ | _, _⟩ <;> rfl

/-! ## What a backend receives -/

/-- The requests that a backend received, in their order. -/
abbrev Received := List (Operation × Expr)

/-- The step over a state that also holds what was received, with one more request noted. -/
def noted {α : Type} (op : Operation) (e : Expr) (step : QueryStep σ α) : QueryStep (σ × Received) α :=
  fun ((own, received), supply) =>
    let (result, own, supply) := step (own, supply)
    (result, ((own, received ++ [(op, e)]), supply))

/-- What came of a step, but for what was noted. -/
def unnoted {α : Type} (out : Except QueryError α × ((σ × Received) × Supply)) :
    Except QueryError α × (σ × Supply) :=
  (out.1, (out.2.1.1, out.2.2))

namespace Provider

/-- The provider that notes what it receives and answers as `p` does. -/
def noting (p : Provider σ) : Provider (σ × Received) where
  create e element := noted (.create element) e (p.create e element)
  createUntyped e := noted .createUntyped e (p.createUntyped e)
  execute e result := noted (.execute result) e (p.execute e result)
  executeUntyped e := noted .executeUntyped e (p.executeUntyped e)

theorem map_noted {α β : Type} (f : α → β) (op : Operation) (e : Expr) (step : QueryStep σ α) :
    f <$> noted op e step = noted op e (f <$> step) := by
  funext ⟨⟨own, received⟩, supply⟩
  rw [QueryStep.map_apply, noted, noted, QueryStep.map_apply]
  rfl

theorem ask_noting (p : Provider σ) (op : Operation) (e : Expr) :
    p.noting.ask op e = noted op e (p.ask op e) := by
  cases op <;> exact map_noted ..

end Provider

/-- Whatever wrappers there are, a request comes out the same where the backend notes its calls. -/
theorem Query.unnoted_ask (p : Provider σ) (q : Query) (op : Operation) (own : σ) (received : Received) :
    ∀ (e : Expr) (supply : Supply),
      unnoted ((q.provider p.noting).ask op e ((own, received), supply)) =
        (q.provider p).ask op e (own, supply) := by
  induction q with
  | plain =>
    intro e supply
    exact congrArg unnoted (congrFun (p.ask_noting op e) _)
  | expandable inner limit ih =>
    intro e supply
    simp only [Query.provider, Provider.ask_expanding, Provider.expanded_bind]
    cases expand limit e supply with
    | error failure => rfl
    | ok r =>
      have hinner := ih r.1.tree r.2
      simp only [QueryStep.map_apply, ← hinner]
      rfl

/-- A provider of queries that can be had. Which ones it hands back is up to it, expandable queries
included. -/
structure Backend (σ : Type) extends Provider σ where
  create_built : ∀ (e : Expr) (element : Ty) (st : σ × Supply) (q : Query),
    (create e element st).1 = .ok q → q.Built

/-- A typed request that a backend grants is answered with a query that can be had. -/
theorem Backend.built_of_ask (b : Backend σ) {element : Ty} {e : Expr} {st : σ × Supply} {answer : Answer}
    (h : (b.ask (.create element) e st).1 = .ok answer) : ∃ q, answer = .query q ∧ q.Built := by
  rw [Provider.ask, QueryStep.map_apply] at h
  cases hcreate : (b.create e element st).1 with
  | error => simp [hcreate, Except.map] at h
  | ok q =>
    simp only [hcreate, Except.map, Except.ok.injEq] at h
    exact ⟨q, h.symm, b.create_built e element st q hcreate⟩

/-! ## Exchanges -/

/-- A request made through a query, and what came of it: what the backend received, what the caller
got, and the states of the backend before and after with the identities left. -/
structure Exchange (σ : Type) where
  backend : Backend σ
  query : Query
  operation : Operation
  expr : Expr
  before : σ × Supply
  received : Received
  result : Except QueryError Answer
  after : σ × Supply

namespace Exchange

/-- The request for an operation on an expression through the provider of a query. -/
def request (b : Backend σ) (q : Query) (op : Operation) (e : Expr) (st : σ × Supply) : Exchange σ :=
  let out := (q.provider b.noting).ask op e ((st.1, []), st.2)
  { backend := b, query := q, operation := op, expr := e, before := st, received := out.2.1.2,
    result := out.1, after := (out.2.1.1, out.2.2) }

/-- The typed query that the caller got. -/
def derived (x : Exchange σ) : List Query :=
  match x.operation, x.result with
  | .create _, .ok (.query q) => [q]
  | _, _ => []

/-- The request failed before the backend received anything. -/
structure Refused (x : Exchange σ) (failure : Failure) : Prop where
  result : x.result = .error (.expansion failure)
  received : x.received = []
  unchanged : x.after = x.before

/-- The backend received one request, for the same on the expanded tree, and its answer went to the
caller. -/
structure Delegated (x : Exchange σ) (limit : Nat) (r : Expanded) (supply : Supply) : Prop where
  received : x.received = [(x.operation, r.tree)]
  answered : (x.result, x.after) =
    (x.operation.rewrap limit <$> x.backend.ask x.operation r.tree) (x.before.1, supply)

/-- A request through an expandable query is refused if the expression does not expand, and
delegated if it does. -/
theorem refused_or_delegated (b : Backend σ) (e₀ : Expr) (element : Ty) (limit : Nat) (op : Operation)
    (e : Expr) (own : σ) (supply : Supply) :
    let x := request b (.expandable (.plain e₀ element) limit) op e (own, supply)
    (∃ failure, expand limit e supply = .error failure ∧ x.Refused failure) ∨
    (∃ r supply', expand limit e supply = .ok (r, supply') ∧ x.Delegated limit r supply') := by
  have hrun : ((Query.expandable (.plain e₀ element) limit).provider b.noting).ask op e ((own, []), supply) =
      match expand limit e supply with
      | .error failure => (.error (.expansion failure), ((own, []), supply))
      | .ok (r, supply') =>
        noted op r.tree (op.rewrap limit <$> b.ask op r.tree) ((own, []), supply') := by
    simp only [Query.provider, Provider.ask_expanding, Provider.expanded_bind, Provider.ask_noting,
      Provider.map_noted]
  intro x
  cases hexpand : expand limit e supply with
  | error failure =>
    rw [hexpand] at hrun
    refine .inl ⟨failure, rfl, ?_, ?_, ?_⟩ <;> simp only [x, request, hrun]
  | ok r =>
    rw [hexpand] at hrun
    refine .inr ⟨r.1, r.2, rfl, ?_, ?_⟩ <;> simp only [x, request, hrun] <;> rfl

/-- A request comes out as it does where nothing is noted. -/
theorem ask_request (b : Backend σ) (q : Query) (op : Operation) (e : Expr) (st : σ × Supply) :
    (q.provider b.toProvider).ask op e st =
      ((request b q op e st).result, (request b q op e st).after) :=
  (Query.unnoted_ask b.toProvider q op st.1 [] e st.2).symm

/-- The typed query that comes back from a delegated request is expandable, and can be had. -/
theorem Delegated.typed {x : Exchange σ} {limit : Nat} {r : Expanded} {supply : Supply}
    (h : x.Delegated limit r supply) {element : Ty} {answer : Answer} (hop : x.operation = .create element)
    (hresult : x.result = .ok answer) :
    ∃ q, answer = .query q ∧ q.Built ∧ q.isExpandable = true := by
  have hanswer := congrArg Prod.fst h.answered
  rw [QueryStep.map_apply, hop, hresult] at hanswer
  cases hask : (x.backend.ask (.create element) r.tree (x.before.1, supply)).1 with
  | error => simp [hask, Except.map] at hanswer
  | ok own =>
    obtain ⟨q, rfl, hq⟩ := x.backend.built_of_ask hask
    simp only [hask, Except.map, Except.ok.injEq, Operation.rewrap] at hanswer
    exact ⟨_, hanswer, hq.wrapped limit, q.isExpandable_asExpandable limit⟩

/-- The request came out as `ask` has it, and was refused or delegated. -/
structure Sound (x : Exchange σ) : Prop where
  run : (x.query.provider x.backend.toProvider).ask x.operation x.expr x.before = (x.result, x.after)
  settled : ∃ inner limit, x.query = .expandable inner limit ∧
    ((∃ failure, expand limit x.expr x.before.2 = .error failure ∧ x.Refused failure) ∨
    ∃ r supply, expand limit x.expr x.before.2 = .ok (r, supply) ∧ x.Delegated limit r supply ∧ r.tree.Plain)

/-- A request through a query with one wrapper is settled by the expansion of its expression. -/
theorem sound_request (b : Backend σ) {q : Query} (op : Operation) {e : Expr} {state : σ} {supply : Supply}
    (hbuilt : q.Built) (hexpandable : q.isExpandable = true) (he : e.Coherent supply) :
    (request b q op e (state, supply)).Sound := by
  refine ⟨ask_request b q op e _, ?_⟩
  cases q with
  | plain => cases hexpandable
  | expandable inner limit =>
    obtain ⟨e₀, element, rfl⟩ := hbuilt.eq_plain_of_expandable rfl
    refine ⟨_, limit, rfl, ?_⟩
    obtain hrefused | ⟨r, supply', hexpand, hdelegated⟩ :=
      refused_or_delegated b e₀ element limit op e state supply
    · exact .inl hrefused
    · exact .inr ⟨r, supply', hexpand, hdelegated, plain_of_expand he hexpand⟩

/-- The typed query that the caller gets is expandable, and can be had. -/
theorem Sound.derived {x : Exchange σ} (hx : x.Sound) (q : Query) (hq : q ∈ x.derived) :
    q.Built ∧ q.isExpandable = true := by
  unfold Exchange.derived at hq
  split at hq
  · next element q' hop hresult =>
    obtain ⟨_, _, -, ⟨failure, -, hrefused⟩ | ⟨r, supply, -, hdelegated, -⟩⟩ := hx.settled
    · cases hresult.symm.trans hrefused.result
    · obtain ⟨_, hanswer, hsingle⟩ := hdelegated.typed hop hresult
      rw [List.mem_singleton.1 hq, Answer.query.inj hanswer]
      exact hsingle
  · cases hq

end Exchange

/-! ## Sessions -/

/-- The queries that a caller holds, the state of the backend, the identities left, and the requests
made so far. -/
structure Session (σ : Type) where
  queries : List Query
  state : σ
  supply : Supply
  exchanges : List (Exchange σ)

namespace Session

/-- The session that begins with a query. -/
def opened (q : Query) (state : σ) (supply : Supply) : Session σ where
  queries := [q]
  state := state
  supply := supply
  exchanges := []

/-- The session after a request through a query; a typed query that comes back is kept. -/
def after (s : Session σ) (b : Backend σ) (q : Query) (op : Operation) (e : Expr) : Session σ :=
  let x := Exchange.request b q op e (s.state, s.supply)
  { queries := s.queries ++ x.derived, state := x.after.1, supply := x.after.2,
    exchanges := s.exchanges ++ [x] }

/-- A caller draws identities for expressions, or makes a request with an expression through a query
it holds. Each query may have its own backend. -/
inductive Step : Session σ → Session σ → Prop
  | draw {s : Session σ} {supply : Supply} : s.supply.next ≤ supply.next → Step s { s with supply }
  | request {s : Session σ} (b : Backend σ) {q : Query} (op : Operation) {e : Expr} : q ∈ s.queries →
      e.Coherent s.supply → Step s (s.after b q op e)

/-- The sessions that a session can become. -/
def Reaches : Session σ → Session σ → Prop := Relation.ReflTransGen Step

/-- What every request of a session comes to, and what queries the caller has. -/
structure Sound (s : Session σ) : Prop where
  queries : ∀ q ∈ s.queries, q.Built ∧ q.isExpandable = true
  exchanges : ∀ x ∈ s.exchanges, x.Sound

theorem sound_opened {q : Query} (hq : q.Built) (limit : Nat) (state : σ) (supply : Supply) :
    (opened (q.asExpandable limit) state supply).Sound where
  queries q' hq' := by
    rw [List.mem_singleton.1 hq']
    exact ⟨hq.wrapped limit, q.isExpandable_asExpandable limit⟩
  exchanges x hx := nomatch hx

theorem Step.sound {s s' : Session σ} (h : Step s s') (hs : s.Sound) : s'.Sound := by
  cases h with
  | draw => exact ⟨hs.queries, hs.exchanges⟩
  | @request b q op e hq he =>
    obtain ⟨hbuilt, hexpandable⟩ := hs.queries q hq
    have hsound : (Exchange.request b q op e (s.state, s.supply)).Sound :=
      Exchange.sound_request b op hbuilt hexpandable he
    constructor
    · intro q' hq'
      rcases List.mem_append.1 hq' with hq' | hq'
      · exact hs.queries q' hq'
      · exact hsound.derived q' hq'
    · intro x hx
      rcases List.mem_append.1 hx with hx | hx
      · exact hs.exchanges x hx
      · rw [List.mem_singleton.1 hx]
        exact hsound

theorem Reaches.sound {s s' : Session σ} (h : s.Reaches s') (hs : s.Sound) : s'.Sound := by
  induction h with
  | refl => exact hs
  | tail _ hstep ih => exact hstep.sound ih

/-- Behind an expandable query a backend receives expanded trees only. In every session that begins
with a wrapped query, over backends that do and answer what they like, the caller holds queries with
one wrapper each, which wrapping leaves as they are. A request through any of them fails with the
failure of the expansion, before the backend receives it and with its state unchanged, or reaches the
backend once, with the expanded tree of its expression; and the typed query that then comes back is
expandable too. -/
theorem receives_expanded_of_reaches (start : Query) (hstart : start.Built) (limit : Nat) (state : σ)
    (supply : Supply) (s : Session σ)
    (h : (opened (start.asExpandable limit) state supply).Reaches s) :
    (∀ q ∈ s.queries, q.isExpandable = true ∧ q.layers = 1 ∧ ∀ other, q.asExpandable other = q) ∧
    ∀ x ∈ s.exchanges,
      (x.query.provider x.backend.toProvider).ask x.operation x.expr x.before = (x.result, x.after) ∧
      ∃ inner own, x.query = .expandable inner own ∧
        ((∃ failure, expand own x.expr x.before.2 = .error failure ∧ x.Refused failure) ∨
        ∃ r supply', expand own x.expr x.before.2 = .ok (r, supply') ∧ x.Delegated own r supply' ∧
          r.tree.Plain ∧ ∀ element answer, x.operation = .create element → x.result = .ok answer →
            ∃ q, answer = .query q ∧ q.isExpandable = true ∧ q.layers = 1) := by
  have hsound : s.Sound := h.sound (sound_opened hstart limit state supply)
  constructor
  · intro q hq
    obtain ⟨hbuilt, hexpandable⟩ := hsound.queries q hq
    exact ⟨hexpandable, hbuilt.layers_eq_one hexpandable, Query.asExpandable_of_isExpandable hexpandable⟩
  · intro x hx
    obtain ⟨hrun, inner, own, hquery, hsettled⟩ := hsound.exchanges x hx
    refine ⟨hrun, inner, own, hquery, hsettled.imp_right ?_⟩
    rintro ⟨r, supply', hexpand, hdelegated, hplain⟩
    refine ⟨r, supply', hexpand, hdelegated, hplain, fun element answer hop hresult => ?_⟩
    obtain ⟨q, hanswer, hbuilt, hexpandable⟩ := hdelegated.typed hop hresult
    exact ⟨q, hanswer, hexpandable, hbuilt.layers_eq_one hexpandable⟩

end Session

/-! A session over the backend that records: a request is refused, and two are delegated, the second
of them through the query that the first brought. -/

namespace RecordedSession

/-- The backend that records makes plain queries. -/
def recorder : Backend Recorder where
  toProvider := Recorder.backend
  create_built e element st q h := by
    obtain ⟨⟨calls, refuses⟩, supply⟩ := st
    cases refuses with
    | true =>
      have hrefused : .error (.backend "create_query refused") = (.ok q : Except QueryError Query) := h
      cases hrefused
    | false =>
      have hcreated : .ok (.plain e element) = (.ok q : Except QueryError Query) := h
      cases hcreated
      exact .plain e element

def one : Expr := .mk 0 (.int 1)

/-- An invocation of what is no lambda. -/
def unresolved : Expr := .mk 1 (.invocation one [] .int)

def five : Expr := .mk 2 (.int 5)

/-- An expression marked as an expandable query. -/
def marked : Expr := .mk 3 (.expandableOf five)

theorem made_exprs : Made ⟨4⟩ [marked, five, unresolved, one] := by
  have hone : Made ⟨1⟩ [one] :=
    (Made.start ⟨0⟩).next (.int 1) (by simp [Node.int, Node.children, Node.payload, Value.trees])
  have hunresolved : Made ⟨2⟩ [unresolved, one] :=
    hone.next (.invocation one [] .int) (by simp [Node.children, Node.payload])
  have hfive : Made ⟨3⟩ [five, unresolved, one] :=
    hunresolved.next (.int 5) (by simp [Node.int, Node.children, Node.payload, Value.trees])
  exact hfive.next (.expandableOf five) (by simp [Node.expandableOf, Node.children, Node.payload])

def backendQuery : Query := .plain five .object

def wrapped : Query := backendQuery.asExpandable 2

/-- The query that a typed request for `marked` brings. -/
def derived : Query := .expandable (.plain five .int) 2

def start : Session Recorder := .opened wrapped {} ⟨4⟩

def refused : Session Recorder := start.after recorder wrapped .executeUntyped unresolved

def composed : Session Recorder := refused.after recorder wrapped (.create .int) marked

def executed : Session Recorder := composed.after recorder derived (.execute .int) marked

theorem start_reaches_executed : start.Reaches executed := by
  have hqueries : refused.queries = [wrapped] ∧ composed.queries = [wrapped, derived] := ⟨rfl, rfl⟩
  have hsupply : refused.supply = ⟨4⟩ ∧ composed.supply = ⟨4⟩ := ⟨rfl, rfl⟩
  have hunresolved : start.Step refused :=
    .request recorder .executeUntyped List.mem_cons_self (made_exprs.coherent (by simp))
  have hcreate : refused.Step composed :=
    .request recorder (.create .int) (by simp [hqueries.1]) (hsupply.1 ▸ made_exprs.coherent (by simp))
  have hexecute : composed.Step executed :=
    .request recorder (.execute .int) (by simp [hqueries.2]) (hsupply.2 ▸ made_exprs.coherent (by simp))
  exact ((Relation.ReflTransGen.single hunresolved).tail hcreate).tail hexecute

/-- The backend receives nothing of the refused request, and the query without its mark of the
others. -/
theorem receives_expanded_of_recorded :
    start.Reaches executed ∧
    executed.exchanges.map (fun x => x.received.map fun r => r.2.label) = [[], [2], [2]] ∧
    (∀ q ∈ executed.queries, q.layers = 1) ∧
    ∀ x ∈ executed.exchanges, (∃ failure, x.Refused failure) ∨
      ∃ r, x.received = [(x.operation, r)] ∧ r.Plain := by
  obtain ⟨hqueries, hexchanges⟩ := Session.receives_expanded_of_reaches backendQuery
    (.plain five .object) 2 ({} : Recorder) ⟨4⟩ executed start_reaches_executed
  refine ⟨start_reaches_executed, rfl, fun q hq => (hqueries q hq).2.1, fun x hx => ?_⟩
  obtain ⟨-, inner, limit, -, ⟨failure, -, hrefused⟩ | ⟨r, supply, -, hdelegated, hplain, -⟩⟩ :=
    hexchanges x hx
  · exact .inl ⟨failure, hrefused⟩
  · exact .inr ⟨r.tree, hdelegated.received, hplain⟩

end RecordedSession

end ExprTree
