import Mathlib.Order.CompleteBooleanAlgebra
import Mathlib.Order.CompletePartialOrder
import ExprTree.Proofs.Derivation
import ExprTree.Proofs.Lockstep
import ExprTree.Proofs.Reading

/-!
# The depth limit

A larger limit does not change what an expansion does: it goes the same way, and either ends there or
goes on from where the smaller limit stops it (`Expansion.tracks_expandUnder`). So a run that is not
stopped has the same outcome under every larger limit, and one that a limit stops is stopped by every
smaller one (`expand_of_larger_limit`).
-/

namespace ExprTree

/-- The failures that end a run which does not end by itself. All others come from a single node. -/
def Failure.isRunaway : Failure → Bool
  | .recursiveBinding _ | .depthExceeded _ => true
  | _ => false

theorem Failure.ne_recursiveBinding {failure : Failure} (h : failure.isRunaway = false) (name : String) :
    failure ≠ .recursiveBinding name := by
  rintro rfl
  cases h

theorem Failure.ne_depthExceeded {failure : Failure} (h : failure.isRunaway = false) (limit : Nat) :
    failure ≠ .depthExceeded limit := by
  rintro rfl
  cases h

/-- A node that cannot be visited fails in a way of its own. -/
theorem Node.failure_of_action {n : Node} {failure : Failure} (h : n.action = .fail failure) :
    failure.isRunaway = false := by
  unfold Node.action at h
  repeat' split at h
  all_goals cases h
  all_goals rfl

/-- A target that leads to no lambda fails in a way of its own. -/
theorem Node.failure_of_layer {n : Node} {failure : Failure} (h : n.layer = .blocked failure) :
    failure.isRunaway = false := by
  unfold Node.layer at h
  repeat' split at h
  all_goals cases h
  all_goals rfl

namespace Expansion

open Walk Walk.Pairing

theorem fails_tooDeep {α : Type} {st : WalkState Stats} {limit depth : Nat}
    (h : st.guard = some ⟨limit, depth⟩) :
    (tooDeep : Expansion α).Fails st (.depthExceeded limit) := by
  obtain ⟨supply, guard, own⟩ := st
  cases h
  exact ⟨_, rfl⟩

section Compared

variable {W α β : Type} [Preorder W] {p : Pairing W} {depth : Nat} {w : W} {Q : W → α → β → Prop}

/-- With no level left the first walk is at its limit; the second need not be, if its limit is larger. -/
theorem tracks_tooDeep {y : Expansion β} (h : p.limit = p.limit' → y = tooDeep) :
    p.Tracks depth w Q tooDeep y := by
  intro st st' hbeside
  rcases Nat.lt_or_eq_of_le p.limit_le with hlt | heq
  · exact .inr (.inr ⟨hlt, fails_tooDeep hbeside.guard⟩)
  · rw [h heq]
    exact .inr (.inl ⟨_, _, fails_tooDeep hbeside.guard, fails_tooDeep hbeside.guard',
      p.failures_limit heq⟩)

end Compared

/-- The same walk under two limits. -/
def underLimits {n m : Nat} (hle : n ≤ m) : Pairing Unit where
  limit := n
  limit' := m
  limit_le := hle
  supplies _ s s' := s' = s
  failures failure failure' := failure' = failure ∧
    ∀ limit, failure = .depthExceeded limit → limit = n ∧ limit = m
  failures_limit := by
    rintro rfl
    refine ⟨rfl, fun limit h => ?_⟩
    cases h
    exact ⟨rfl, rfl⟩

section Limits

variable {n m : Nat} {hle : n ≤ m} {watch : Watch} {depth : Nat}

/-- Under both limits the walk does the same. -/
abbrev SameWalk {α : Type} (hle : n ≤ m) (depth : Nat) (x y : Expansion α) : Prop :=
  (underLimits hle).Tracks depth () (fun _ a b => b = a) x y

theorem sameWalk_throw {α : Type} {failure : Failure} (h : ∀ limit, failure ≠ .depthExceeded limit) :
    SameWalk hle depth (throw failure : Expansion α) (throw failure) :=
  tracks_throw ⟨rfl, fun limit heq => absurd heq (h limit)⟩

theorem sameWalk_pure {α : Type} (a : α) : SameWalk hle depth (pure a : Expansion α) (pure a) :=
  tracks_pure rfl

theorem SameWalk.bind {α β : Type} {x y : Expansion α} {f g : α → Expansion β}
    (hxy : SameWalk hle depth x y) (hfg : ∀ a, SameWalk hle depth (f a) (g a)) :
    SameWalk hle depth (x >>= f) (y >>= g) := by
  refine Tracks.bind hxy fun _ a b _ heq => ?_
  obtain rfl : b = a := heq
  exact hfg b

theorem sameWalk_modifyOwn (f : Stats → Stats) :
    SameWalk hle depth (modifyOwn f : Expansion Unit) (modifyOwn f) := by
  intro st st' hbeside
  obtain ⟨a, b, st₁, st₁', w, hx, hy, hw, hbeside₁, -⟩ | hrest := tracks_modifyOwn f st st' hbeside
  · exact .inl ⟨a, b, st₁, st₁', w, hx, hy, hw, hbeside₁, rfl⟩
  · exact .inr hrest

theorem sameWalk_require (condition : Bool) :
    SameWalk hle depth (require condition) (require condition) := by
  unfold require
  split
  · exact sameWalk_pure ()
  · exact sameWalk_throw nofun

theorem sameWalk_extend (s : Scope) (pairs : List (Variable × Expr)) :
    SameWalk hle depth (liftM (s.extend pairs)) (liftM (s.extend pairs)) := by
  refine tracks_liftM ?_
  cases hextend : s.extend pairs with
  | ok inner => exact .inl ⟨inner, inner, rfl, rfl, rfl⟩
  | error failure =>
    obtain ⟨p, -, rfl⟩ := Scope.failure_of_extend hextend
    exact .inr ⟨_, _, rfl, rfl, rfl, fun _ h => by cases h⟩

theorem sameWalk_each {f g : Expr → Expansion Expr} (h : ∀ e, SameWalk hle depth (f e) (g e))
    (es : List Expr) : SameWalk hle depth (each f es) (each g es) := by
  induction es with
  | nil => exact sameWalk_pure []
  | cons e es ih => exact (h e).bind fun c => ih.bind fun cs => sameWalk_pure (c :: cs)

theorem sameWalk_children {f g : Expr → Expansion Expr} (h : ∀ e, SameWalk hle depth (f e) (g e))
    (e : Expr) :
    SameWalk hle depth (Walk.children e fun c _ => f c) (Walk.children e fun c _ => g c) := by
  intro st st' hbeside
  obtain ⟨cs, _, st₁, st₁', w, hf, hg, hw, hbeside₁, rfl⟩ | ⟨failure, failure', hf, hg, hfailures⟩ |
    ⟨hlt, hf⟩ := sameWalk_each h e.node.visitOrder st st' hbeside
  · obtain ⟨node, hnode, rfl⟩ := Node.exists_traverse hf
    obtain ⟨hshape, -⟩ := Node.shape_of_traverse hnode
    -- both walks have the same results, so they keep the expression or make it again together
    by_cases hsame : sameChildren e.node node = true
    · refine .inl ⟨e, e, st₁, st₁', w, yields_children.2 ⟨node, st₁, hf, hshape, ?_⟩,
        yields_children.2 ⟨node, st₁', hg, hshape, ?_⟩, hw, hbeside₁, rfl⟩
      · rw [if_pos hsame]
        exact yields_pure.2 ⟨rfl, rfl⟩
      · rw [if_pos hsame]
        exact yields_pure.2 ⟨rfl, rfl⟩
    · have hsupply : st₁'.supply = st₁.supply := hbeside₁.supply
      refine .inl ⟨.mk st₁.supply.next node, .mk st₁'.supply.next node,
        { st₁ with supply := ⟨st₁.supply.next + 1⟩ }, { st₁' with supply := ⟨st₁'.supply.next + 1⟩ }, w,
        yields_children.2 ⟨node, st₁, hf, hshape, ?_⟩,
        yields_children.2 ⟨node, st₁', hg, hshape, ?_⟩, hw,
        ⟨hbeside₁.guard, hbeside₁.guard', hbeside₁.own, ?_⟩, by rw [hsupply]⟩
      · rw [if_neg hsame]
        exact yields_alloc.2 ⟨rfl, rfl⟩
      · rw [if_neg hsame]
        exact yields_alloc.2 ⟨rfl, rfl⟩
      · rw [hsupply]
        rfl
  · exact .inr (.inl ⟨failure, failure', fails_children.2 hf, fails_children.2 hg, hfailures⟩)
  · exact .inr (.inr ⟨hlt, fails_children.2 hf⟩)

theorem tracks_peelUnder {levels levels' : Nat} (hlevels : levels ≤ levels')
    (hsame : n = m → levels = levels') (s : Scope) (target : Expr) :
    SameWalk hle depth (peelUnder watch s levels target) (peelUnder watch s levels' target) := by
  induction levels generalizing levels' depth target with
  | zero => exact tracks_tooDeep fun heq => by rw [← hsame heq]; rfl
  | succ levels ih =>
    obtain ⟨levels', rfl⟩ : ∃ k, levels' = k + 1 := ⟨levels' - 1, by omega⟩
    have hinner : ∀ inner, SameWalk hle (depth + 1) (peelUnder watch s levels inner)
        (peelUnder watch s levels' inner) := fun inner =>
      ih (by omega) (fun heq => Nat.succ.inj (hsame heq)) inner
    rw [peelUnder, peelUnder]
    refine Tracks.guarded ?_
    cases hlayer : target.node.layer with
    | lambda params body => exact sameWalk_pure (params, body)
    | var v =>
      simp only
      cases s.lookup? v with
      | none => exact sameWalk_throw (Failure.ne_depthExceeded rfl)
      | some replacement =>
        simp only
        split
        · exact sameWalk_throw (Failure.ne_depthExceeded rfl)
        · exact (sameWalk_require _).bind fun _ => hinner replacement
    | around count inner =>
      exact (sameWalk_modifyOwn count).bind fun _ => (sameWalk_require _).bind fun _ => hinner inner
    | blocked failure => exact sameWalk_throw (Failure.ne_depthExceeded (Node.failure_of_layer hlayer))

/-- An expansion goes the same way under a larger limit. -/
theorem tracks_expandUnder {levels levels' : Nat} (hlevels : levels ≤ levels')
    (hsame : n = m → levels = levels') (s : Scope) (e : Expr) :
    SameWalk hle depth (expandUnder watch asWritten levels s e)
      (expandUnder watch asWritten levels' s e) := by
  induction levels generalizing levels' depth s e with
  | zero => exact tracks_tooDeep fun heq => by rw [← hsame heq]; rfl
  | succ levels ih =>
    obtain ⟨levels', rfl⟩ : ∃ k, levels' = k + 1 := ⟨levels' - 1, by omega⟩
    have hle' : levels ≤ levels' := by omega
    have hsame' : n = m → levels = levels' := fun heq => Nat.succ.inj (hsame heq)
    have hinner : ∀ s e, SameWalk hle (depth + 1) (expandUnder watch asWritten levels s e)
        (expandUnder watch asWritten levels' s e) := fun s e => ih hle' hsame' s e
    rw [expandUnder, expandUnder]
    refine Tracks.guarded ?_
    cases haction : e.node.action with
    | look v => exact sameWalk_pure _
    | pass => exact (sameWalk_require _).bind fun _ => sameWalk_pure e
    | inline target args =>
      refine (tracks_peelUnder hle' hsame' s target).bind fun found => ?_
      obtain ⟨params, body⟩ := found
      simp only
      split
      · have harity : (underLimits hle).failures (.arityMismatch params.length args.length)
            (.arityMismatch params.length args.length) :=
          ⟨rfl, fun limit heq => absurd heq (Failure.ne_depthExceeded rfl limit)⟩
        exact tracks_throw_bind harity _ _
      · refine (sameWalk_each (hinner s) args).bind fun replacements => ?_
        refine (sameWalk_pure (params, body)).bind fun prepared => ?_
        refine (sameWalk_extend s _).bind fun inner => ?_
        exact (sameWalk_modifyOwn _).bind fun _ => hinner inner _
    | capture compiled tree => exact (sameWalk_modifyOwn _).bind fun _ => hinner s tree
    | unwrap query => exact (sameWalk_modifyOwn _).bind fun _ => hinner s query
    | descend => exact (sameWalk_require _).bind fun _ => sameWalk_children (hinner s) e
    | fail failure => exact sameWalk_throw (Failure.ne_depthExceeded (Node.failure_of_action haction))

end Limits

end Expansion

/-- The outcomes of one expansion under two limits: the smaller one stops it, or they are the same, and
then a limit that stops it is both of them. -/
theorem expand_under_limits {n m : Nat} (hle : n ≤ m) (e : Expr) (supply : Supply) :
    n < m ∧ expand n e supply = .error (.depthExceeded n) ∨
      expand m e supply = expand n e supply ∧
        ∀ limit, expand n e supply = .error (.depthExceeded limit) → limit = n ∧ limit = m := by
  simp only [← expandWith_idle]
  have htracks : Expansion.SameWalk hle 0 (Expansion.expandUnder .idle Expansion.asWritten n .root e)
      (Expansion.expandUnder .idle Expansion.asWritten m .root e) :=
    Expansion.tracks_expandUnder hle id .root e
  obtain ⟨_, out, st, st', w, hn, hm, -, hbeside, rfl⟩ | ⟨failure, _, hn, hm, rfl, hlimits⟩ | ⟨hlt, hn⟩ :=
    htracks { supply, guard := some { limit := n }, own := {} }
      { supply, guard := some { limit := m }, own := {} } ⟨rfl, rfl, rfl, rfl⟩
  · right
    have hsupply : st'.supply = st.supply := hbeside.supply
    have hok : expandWith .idle Expansion.asWritten n e supply = .ok (⟨out, st.own⟩, st.supply) :=
      expandWith_eq_ok_iff.2 ⟨st.guard, hn⟩
    have hok' : expandWith .idle Expansion.asWritten m e supply = .ok (⟨out, st'.own⟩, st'.supply) :=
      expandWith_eq_ok_iff.2 ⟨st'.guard, hm⟩
    rw [hok, hok', hbeside.own, hsupply]
    exact ⟨rfl, nofun⟩
  · right
    rw [expandWith_eq_error_iff.2 hn, expandWith_eq_error_iff.2 hm]
    exact ⟨rfl, fun limit h => hlimits limit (Except.error.inj h)⟩
  · exact .inl ⟨hlt, expandWith_eq_error_iff.2 hn⟩

/-- The depth limit only cuts a run short. A run that its limit does not stop has the same outcome under
every larger limit; and one that a limit stops is stopped by every smaller one. Each time the failure
names the limit. -/
theorem expand_of_larger_limit (n m : Nat) (hle : n ≤ m) (e : Expr) (supply : Supply) :
    ((∀ limit, expand n e supply ≠ .error (.depthExceeded limit)) →
      expand m e supply = expand n e supply) ∧
    ∀ limit, expand m e supply = .error (.depthExceeded limit) →
      limit = m ∧ expand n e supply = .error (.depthExceeded n) := by
  have hown := expand_under_limits (Nat.le_refl m) e supply
  refine ⟨fun hn => ?_, fun limit hm => ?_⟩
  · obtain ⟨-, hcut⟩ | ⟨hsame, -⟩ := expand_under_limits hle e supply
    · exact absurd hcut (hn n)
    · exact hsame
  · obtain ⟨hlt, -⟩ | ⟨-, hlimit⟩ := hown
    · exact absurd hlt (Nat.lt_irrefl m)
    · refine ⟨(hlimit limit hm).1, ?_⟩
      obtain ⟨-, hcut⟩ | ⟨hsame, hlimits⟩ := expand_under_limits hle e supply
      · exact hcut
      · rw [hsame] at hm
        rw [hm, (hlimits limit hm).1]

/-- A lambda that invokes its parameter. -/
def appliedParameter : String :=
  "(invoke (lambda ((f F)) (add 1 (invoke f 2))) (lambda ((x Int)) (neg x)))"

/-- Five levels are enough, and more change nothing; four are not, and so are three not. -/
theorem expand_appliedParameter_of_larger_limit :
    ∃ e supply, parseTree appliedParameter {} = .ok (e, supply) ∧
      (∀ limit, expand 5 e supply ≠ .error (.depthExceeded limit)) ∧
      expand 9 e supply = expand 5 e supply ∧ expand 4 e supply = .error (.depthExceeded 4) ∧
      expand 3 e supply = .error (.depthExceeded 3) := by
  have hpasses : passes appliedParameter 5 (fun e supply _ =>
      match expand 4 e supply with
      | .error failure => failure == .depthExceeded 4
      | .ok _ => false) = true := by decide +kernel
  obtain ⟨e, supply, r, supply', hparse, hexpand, hcheck⟩ := exists_run_of_passes hpasses
  have hstops : expand 4 e supply = .error (.depthExceeded 4) := by
    split at hcheck
    · rw [‹expand 4 e supply = _›, beq_iff_eq.1 hcheck]
    · cases hcheck
  have henough : ∀ limit, expand 5 e supply ≠ .error (.depthExceeded limit) := by
    intro limit h
    rw [hexpand] at h
    cases h
  exact ⟨e, supply, hparse, henough, (expand_of_larger_limit 5 9 (by decide) e supply).1 henough, hstops,
    ((expand_of_larger_limit 3 4 (by decide) e supply).2 4 hstops).2⟩

end ExprTree
