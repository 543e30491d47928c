import ExprTree.Proofs.Vocabulary

/-!
# Expanding twice

An expanded tree that is expanded again mostly comes back as itself: nothing foreign is left in it,
and variables and constants are final. The one thing a second run may still act on is a captured
read. The first run looks for captured reads in what it visits, and a read whose object becomes a
closure only by substitution is built after that.

`Walk.Grows` says that a step never lowers a counter. A run that counts nothing has met no captured
read (`Expansion.settled_of_total_eq`), and a tree without any runs to itself
(`Expansion.yields_self`). Together they say when expansion is idempotent
(`expand_again_iff_no_captured_read`).
-/

namespace ExprTree

/-! ## Counters never go down -/

namespace Walk

variable {σ α β : Type} {measure : σ → Nat}

/-- Whenever the step succeeds, the measure of what the walk keeps has not gone down. -/
def Grows (measure : σ → Nat) (x : Walk σ α) : Prop :=
  ∀ st a st', x.Yields st a st' → measure st.own ≤ measure st'.own

theorem grows_pure (a : α) : Grows measure (pure a : Walk σ α) := by
  intro st b st' h
  obtain ⟨-, rfl⟩ := yields_pure.1 h
  exact Nat.le_refl _

theorem grows_throw (failure : Failure) : Grows measure (throw failure : Walk σ α) :=
  fun _ _ _ h => absurd h not_yields_throw

theorem grows_liftM (x : Except Failure α) : Grows measure (liftM x : Walk σ α) := by
  intro st a st' h
  obtain ⟨-, rfl⟩ := yields_liftM.1 h
  exact Nat.le_refl _

theorem grows_modifyOwn {f : σ → σ} (hf : ∀ own, measure own ≤ measure (f own)) :
    Grows measure (modifyOwn f) := by
  intro st u st' h
  obtain rfl := yields_modifyOwn.1 h
  exact hf st.own

theorem Grows.bind {x : Walk σ α} {f : α → Walk σ β} (hx : Grows measure x)
    (hf : ∀ a, Grows measure (f a)) : Grows measure (x >>= f) := by
  intro st b st' h
  obtain ⟨a, st₁, ha, hb⟩ := yields_bind.1 h
  exact Nat.le_trans (hx _ _ _ ha) (hf a _ _ _ hb)

theorem Grows.guarded {x : Walk σ α} (hx : Grows measure x) : Grows measure (guarded x) := by
  intro st a st' h
  obtain ⟨g, st₁, hrun, -, hown⟩ := h.of_guarded
  rw [hown]
  exact hx { st with guard := g } a st₁ hrun

theorem grows_each {f : α → Walk σ β} (hf : ∀ a, Grows measure (f a)) (xs : List α) :
    Grows measure (each f xs) := by
  induction xs with
  | nil => exact grows_pure []
  | cons x xs ih => exact (hf x).bind fun b => ih.bind fun bs => grows_pure (b :: bs)

theorem grows_children {f : Expr → Walk σ Expr} (hf : ∀ e, Grows measure (f e)) (e : Expr) :
    Grows measure (children e fun c _ => f c) := by
  intro st out st' h
  obtain ⟨n, st₁, heach, -, hout⟩ := h.of_children
  have hvisits := grows_each hf _ _ _ _ heach
  rcases hout with ⟨-, -, rfl⟩ | ⟨-, rfl⟩
  · exact hvisits
  · exact hvisits

/-- If every child comes back as itself, the expression comes back as itself. -/
theorem Yields.children_self {f : Expr → Walk σ Expr} {e : Expr} {st st' : WalkState σ}
    (h : (each f e.node.visitOrder).Yields st e.node.visitOrder st') :
    (Walk.children e fun c _ => f c).Yields st e st' := by
  obtain ⟨n, hn, horder⟩ := Node.exists_traverse h
  obtain rfl : n = e.node := Node.eq_of_shape (Node.shape_of_traverse hn).1 horder
  refine yields_bind.2 ⟨e.node, st', hn, ?_⟩
  rw [if_pos (by simp [sameChildren])]
  exact yields_pure.2 ⟨rfl, rfl⟩

end Walk

/-- All that an expansion has counted. -/
def Stats.total (s : Stats) : Nat :=
  s.invocationsInlined + s.capturesResolved + s.markersUnwrapped

namespace Stats

@[simp] theorem total_inlined (s : Stats) : s.inlined.total = s.total + 1 := by
  simp only [total, inlined]
  omega

@[simp] theorem total_resolved (s : Stats) : s.resolved.total = s.total + 1 := by
  simp only [total, resolved]
  omega

@[simp] theorem total_unwrapped (s : Stats) : s.unwrapped.total = s.total + 1 := by
  simp only [total, unwrapped]
  omega

end Stats

/-- Does the action put something else in the place of an expression? -/
def Action.replaces : Action → Bool
  | .inline .. | .capture .. | .unwrap .. => true
  | _ => false

/-- The layers of a target count up, if anything. -/
theorem Node.le_total_of_layer {n : Node} {count : Stats → Stats} {inner : Expr}
    (h : n.layer = .around count inner) (s : Stats) : s.total ≤ (count s).total := by
  have hlayered := n.layered
  rw [h] at hlayered
  cases hlayered with
  | read => simp
  | compile => simp
  | tree => exact Nat.le_refl _
  | quote => exact Nat.le_refl _

namespace Expansion

open Walk

variable {watch : Watch}

theorem grows_tooDeep {α : Type} : Walk.Grows Stats.total (tooDeep : Expansion α) :=
  fun _ _ _ h => absurd h not_yields_tooDeep

theorem grows_require (condition : Bool) : Walk.Grows Stats.total (require condition) := by
  intro st u st' h
  obtain ⟨-, rfl⟩ := yields_require.1 h
  exact Nat.le_refl _

theorem grows_peelUnder (s : Scope) (n : Nat) (target : Expr) :
    Walk.Grows Stats.total (peelUnder watch s n target) := by
  induction n generalizing target with
  | zero => exact grows_tooDeep
  | succ n ih =>
    rw [peelUnder]
    refine Walk.Grows.guarded ?_
    split
    · exact grows_pure _
    · split
      · exact grows_throw _
      · split
        · exact grows_throw _
        · exact (grows_require _).bind fun _ => ih _
    · refine (grows_modifyOwn (Node.le_total_of_layer ‹_›)).bind fun _ => ?_
      exact (grows_require _).bind fun _ => ih _
    · exact grows_throw _

theorem le_total_of_capture (compiled : Bool) (s : Stats) : s.total <
    ((if compiled then Stats.resolved ∘ Stats.unwrapped else Stats.resolved) s).total := by
  cases compiled
  · simp
  · simp only [if_true, Function.comp_apply, Stats.total_resolved, Stats.total_unwrapped]
    omega

theorem grows_expandUnder (n : Nat) (s : Scope) (e : Expr) :
    Walk.Grows Stats.total (expandUnder watch asWritten n s e) := by
  induction n generalizing s e with
  | zero => exact grows_tooDeep
  | succ n ih =>
    rw [expandUnder]
    refine Walk.Grows.guarded ?_
    split
    · exact grows_pure _
    · exact (grows_require _).bind fun _ => grows_pure _
    · next target args _ =>
      refine (grows_peelUnder s n target).bind fun found => ?_
      have hrest : Walk.Grows Stats.total (do
          let replacements ← visitList args fun a _ => expandUnder watch asWritten n s a
          let found ← asWritten found.1 found.2
          let inner ← liftM (s.extend (found.1.zip replacements))
          modifyOwn Stats.inlined
          expandUnder watch asWritten n inner found.2) :=
        (grows_each (ih s) _).bind fun _ => (grows_pure _).bind fun _ =>
          (grows_liftM _).bind fun _ => (grows_modifyOwn (by simp)).bind fun _ => ih _ _
      simp only
      split
      · exact (grows_throw _).bind fun _ => hrest
      · exact hrest
    · exact (grows_modifyOwn fun s => Nat.le_of_lt (le_total_of_capture _ s)).bind fun _ => ih _ _
    · exact (grows_modifyOwn (by simp)).bind fun _ => ih _ _
    · exact (grows_require _).bind fun _ => grows_children (ih s) _
    · exact grows_throw _

/-- Whatever replaces an expression is counted. -/
theorem Visited.total_lt {n : Nat} {s : Scope} {e out : Expr} {st st' : WalkState Stats}
    (h : Visited watch n s e st out st')
    (hreplaces : e.node.action.replaces = true) : st.own.total < st'.own.total := by
  cases h with
  | look h | pass h | descend h =>
    rw [h] at hreplaces
    cases hreplaces
  | inline _ hpeel _ hreplacements _ hbody =>
    have hle := grows_peelUnder _ _ _ _ _ _ hpeel
    have hle₁ := grows_each (grows_expandUnder _ _) _ _ _ _ hreplacements
    have hle₂ := grows_expandUnder _ _ _ _ _ _ hbody
    simp only [Stats.total_inlined] at hle₂
    omega
  | @capture compiled _ _ _ _ hrest =>
    exact Nat.lt_of_lt_of_le (le_total_of_capture compiled st.own) (grows_expandUnder _ _ _ _ _ _ hrest)
  | unwrap _ hrest =>
    have hle := grows_expandUnder _ _ _ _ _ _ hrest
    simp only [Stats.total_unwrapped] at hle
    omega

end Expansion

/-! ## Settled trees -/

namespace Expr

/-- No node of the tree is a captured read that could be resolved. Trees in constants are not
entered. -/
def Settled (e : Expr) : Prop :=
  ∀ c ∈ e.nodes, ∀ object member, c.node = .memberAccess object member →
    member.capturedTree? object = none

theorem settled_iff {e : Expr} : e.Settled ↔
    (∀ object member, e.node = .memberAccess object member → member.capturedTree? object = none) ∧
      ∀ c ∈ e.children, c.Settled :=
  forall_mem_nodes_iff

theorem mem_nodes_self (e : Expr) : e ∈ e.nodes := by
  rw [nodes_eq]
  exact List.mem_cons_self

theorem mem_nodes_of_mem_children {a c e : Expr} (hc : c ∈ e.children) (ha : a ∈ c.nodes) :
    a ∈ e.nodes := by
  rw [nodes_eq]
  exact List.mem_cons_of_mem _ (List.mem_flatten.2 ⟨_, List.mem_map_of_mem hc, ha⟩)

/-- In a settled tree, nothing is captured. -/
theorem Settled.action_ne_capture {e : Expr} (h : e.Settled) (compiled : Bool) (tree : Expr) :
    e.node.action ≠ .capture compiled tree := by
  intro haction
  obtain ⟨l, n⟩ := e
  cases acts_of_action haction with
  | read hread =>
    have := h _ (mem_nodes_self _) _ _ rfl
    rw [this] at hread
    cases hread
  | @compiled object method args _ _ _ hnode hread =>
    have hchild : object ∈ (Expr.mk l (.call (some object) method args)).children :=
      List.mem_cons_self
    have := h object (mem_nodes_of_mem_children hchild (mem_nodes_self object)) _ _ hnode
    rw [this] at hread
    cases hread

/-- At a node that is not foreign, a visit looks up, passes, captures or descends. -/
theorem action_of_not_foreign {e : Expr} (h : e.node.isForeign = false) :
    (∃ v, e.node.action = .look v) ∨ e.node.action = .pass ∨
      (∃ compiled tree, e.node.action = .capture compiled tree) ∨ e.node.action = .descend := by
  obtain ⟨l, n⟩ := e
  simp only [node_mk] at h ⊢
  have hacts := n.acts
  generalize n.action = a at hacts ⊢
  cases hacts with
  | look v => exact .inl ⟨v, rfl⟩
  | pass => exact .inr (.inl rfl)
  | invocation => cases h
  | invoke object target args hmarker => simp [Node.isForeign, hmarker] at h
  | read => exact .inr (.inr (.inl ⟨_, _, rfl⟩))
  | compiled => exact .inr (.inr (.inl ⟨_, _, rfl⟩))
  | unwrap object query hmarker => simp [Node.isForeign, hmarker] at h
  | descend => exact .inr (.inr (.inr rfl))
  | fail failure hforeign =>
    rw [hforeign] at h
    cases h

/-- A child is lower than its expression. -/
theorem height_lt_of_mem_children {c e : Expr} (hc : c ∈ e.children) : c.height < e.height := by
  have := le_foldr_max (List.mem_map_of_mem (f := height) hc)
  rw [height_eq e]
  omega

end Expr

namespace Walk

variable {σ α : Type}

/-- If every item comes back as itself and the state as it was, so does the list. -/
theorem yields_each_self {f : α → Walk σ α} {st : WalkState σ} {xs : List α}
    (h : ∀ x ∈ xs, (f x).Yields st x st) : (each f xs).Yields st xs st := by
  induction xs with
  | nil => exact yields_each_nil.2 ⟨rfl, rfl⟩
  | cons x xs ih =>
    have hrest := ih fun y hy => h y (by simp [hy])
    exact yields_each_cons.2 ⟨x, st, xs, h x (by simp), hrest, rfl⟩

/-- If visiting a list leaves the measure as it was, so does every single visit. -/
theorem Yields.exists_visit {β : Type} {measure : σ → Nat} {f : α → Walk σ β}
    (hf : ∀ a, Grows measure (f a)) {st st' : WalkState σ} {xs : List α} {ys : List β}
    (h : (each f xs).Yields st ys st') (hle : measure st'.own ≤ measure st.own) {x : α}
    (hx : x ∈ xs) :
    ∃ y st₁ st₂, (f x).Yields st₁ y st₂ ∧ measure st₂.own ≤ measure st₁.own := by
  induction xs generalizing st ys with
  | nil => cases hx
  | cons z zs ih =>
    obtain ⟨y, st₁, ys, hy, hys, rfl⟩ := yields_each_cons.1 h
    have hfirst := hf z _ _ _ hy
    have hothers := grows_each hf zs _ _ _ hys
    rcases List.mem_cons.1 hx with rfl | hx
    · exact ⟨y, st, st₁, hy, by omega⟩
    · exact ih hys (by omega) hx

end Walk

namespace Expansion

open Walk

/-- A plain settled tree runs to itself, and nothing is counted or drawn. -/
theorem yields_self {e : Expr} (hplain : e.Plain) (hsettled : e.Settled) {n : Nat}
    {st : WalkState Stats} (hn : e.height ≤ n) (hroom : Room e.height st) :
    (expandUnder .idle asWritten n .root e).Yields st e st := by
  induction e using Expr.childInduction generalizing n st with
  | step e ih =>
    -- a visit takes one level, and the children are one level lower
    obtain ⟨k, hk⟩ : ∃ k, e.height = k + 1 := ⟨_, (e.height_eq).trans (Nat.add_comm _ _)⟩
    obtain ⟨n, rfl⟩ : ∃ m, n = m + 1 := ⟨n - 1, by omega⟩
    rw [expandUnder]
    rw [hk] at hroom
    obtain ⟨st₀, hsupply, hown, hroom₀, hguarded⟩ := hroom.enter
    have hself : ∀ x : Expansion Expr, x.Yields st₀ e st₀ → (guarded x).Yields st e st := by
      intro x hx
      have hrun := hguarded x e st₀ hx rfl
      rwa [hsupply, hown] at hrun
    refine hself _ ?_
    obtain ⟨hforeign, hplains⟩ := Expr.plain_iff.1 hplain
    obtain ⟨-, hsettleds⟩ := Expr.settled_iff.1 hsettled
    rcases Expr.action_of_not_foreign hforeign with
      ⟨v, haction⟩ | haction | ⟨compiled, tree, haction⟩ | haction
    · simp only [haction]
      exact yields_pure.2 ⟨rfl, rfl⟩
    · simp only [haction]
      exact yields_bind.2 ⟨(), st₀, yields_require.2 ⟨rfl, rfl⟩, yields_pure.2 ⟨rfl, rfl⟩⟩
    · exact absurd haction (hsettled.action_ne_capture compiled tree)
    · simp only [haction]
      refine yields_bind.2 ⟨(), st₀, yields_require.2 ⟨rfl, rfl⟩, Yields.children_self ?_⟩
      refine yields_each_self fun c hc => ?_
      have hchild : c ∈ e.children := Node.mem_visitOrder.1 hc
      have hlt := Expr.height_lt_of_mem_children hchild
      exact ih c hchild (hplains c hchild) (hsettleds c hchild) (by omega)
        (hroom₀.mono (by omega))

/-- If nothing is counted in a run, the tree is settled. -/
theorem settled_of_total_le {e out : Expr} {n : Nat} {s : Scope} {st st' : WalkState Stats}
    (hrun : (expandUnder .idle asWritten n s e).Yields st out st')
    (htotal : st'.own.total ≤ st.own.total) : e.Settled := by
  induction e using Expr.childInduction generalizing n out st st' with
  | step e ih =>
    cases n with
    | zero => exact absurd hrun not_yields_tooDeep
    | succ n =>
      obtain ⟨g, st₁, hvisited, -, hown⟩ := visited_of_yields hrun
      rw [hown] at htotal
      -- what replaces an expression counts at once, and what follows never takes that back
      have hreplaces : e.node.action.replaces ≠ true := fun hreplaces =>
        absurd (hvisited.total_lt hreplaces) (Nat.not_lt.2 htotal)
      cases hvisited with
      | look haction =>
        have hnode := Expr.node_of_look haction
        exact Expr.settled_iff.2 ⟨by simp [hnode], by simp [Expr.children, hnode, Node.children]⟩
      | pass haction =>
        obtain ⟨value, ty, hnode⟩ := Expr.node_of_pass haction
        exact Expr.settled_iff.2 ⟨by simp [hnode], by simp [Expr.children, hnode, Node.children]⟩
      | inline haction | capture haction | unwrap haction =>
        exact absurd (by rw [haction]; rfl) hreplaces
      | descend haction _ hwalk =>
        obtain ⟨node, st₂, heach, -, hout⟩ := hwalk.of_children
        have hsame : st₂.own.total ≤ st.own.total := by
          rcases hout with ⟨-, -, rfl⟩ | ⟨-, rfl⟩ <;> exact htotal
        refine Expr.settled_iff.2 ⟨fun _ _ => Expr.no_read_of_descend haction, fun c hc => ?_⟩
        obtain ⟨y, st₃, st₄, hvisit, hle⟩ :=
          heach.exists_visit (grows_expandUnder n s) hsame (Node.mem_visitOrder.2 hc)
        exact ih c hc hvisit hle

end Expansion

/-! ## Idempotence -/

/-- Expanding the result of an expansion again, under any limit that is not below its height, gives
it back as it is with nothing counted and nothing drawn, if and only if no captured read that could
be resolved is left in it. -/
theorem expand_again_iff_no_captured_read (limit again : Nat) (e : Expr) (supply supply' : Supply)
    (r : Expanded) (he : e.Coherent supply) (h : expand limit e supply = .ok (r, supply'))
    (hagain : r.tree.height ≤ again) :
    expand again r.tree supply' = .ok (⟨r.tree, {}⟩, supply') ↔
      ∀ c ∈ r.tree.nodes, ∀ object member, c.node = .memberAccess object member →
        member.capturedTree? object = none := by
  have hplain := plain_of_expand he h
  rw [← expandWith_idle, expandWith_eq_ok_iff]
  constructor
  · rintro ⟨guard, hrun⟩
    exact Expansion.settled_of_total_le hrun (Nat.le_refl _)
  · intro hsettled
    have hroom : Walk.Room r.tree.height
        ({ supply := supply', guard := some { limit := again }, own := {} } : WalkState Stats) :=
      ⟨_, rfl, by simpa using hagain⟩
    exact ⟨_, Expansion.yields_self hplain hsettled hagain hroom⟩

/-! A read that becomes resolvable by substitution, with the tree it stands in. -/

namespace AppliedRead

def param : Variable := ⟨2, "c", .named "E"⟩

def one : Expr := .mk 0 (.int 1)

def occurrence : Expr := .mk 3 (.variable param)

def held : Expr := .mk 6 (.closure ⟨1, "E", [("p", .tree one)]⟩)

def readAt (object : Expr) : Node :=
  .memberAccess (some object) ⟨.capture "E", "p", .field, .int⟩

def reader : Expr := .mk 5 (.lambdaOf [param] (.mk 4 (readAt occurrence)))

/-- A lambda that reads the captured field of its parameter, applied to the closure. -/
def applied : Expr := .mk 7 (.invokeOf reader [held])

theorem coherent_applied : applied.Coherent ⟨8⟩ := by
  have hone : Made ⟨1⟩ [one] :=
    Made.node (.int 1) (.start ⟨0⟩) (by simp [Node.int, Node.children, Node.payload, Value.trees])
  have hlater : Made ⟨3⟩ [one] := hone.later (by decide)
  have hvar : Made ⟨4⟩ [occurrence, one] :=
    hlater.node (.variable param) (by simp [Node.children, Node.payload])
  have hread : Made ⟨5⟩ [.mk 4 (readAt occurrence), occurrence, one] :=
    hvar.node (readAt occurrence) (by simp [readAt, Node.children, Node.payload])
  have hreader : Made ⟨6⟩ [reader, .mk 4 (readAt occurrence), occurrence, one] :=
    hread.node (.lambdaOf [param] (.mk 4 (readAt occurrence)))
      (by simp [Node.lambdaOf, Node.children, Node.payload])
  have hheld : Made ⟨7⟩ [held, reader, .mk 4 (readAt occurrence), occurrence, one] :=
    hreader.node (.closure ⟨1, "E", [("p", .tree one)]⟩)
      (by simp [Node.closure, Node.children, Node.payload, Closure.trees])
  have happlied : Made ⟨8⟩
      [applied, held, reader, .mk 4 (readAt occurrence), occurrence, one] :=
    hheld.node (.invokeOf reader [held]) (by simp [Node.invokeOf, Node.children, Node.payload])
  exact happlied.coherent List.mem_cons_self

/-- The read that inlining leaves at the closure is resolved by the second expansion only. -/
theorem expand_again_resolves_read :
    expand 4 applied ⟨8⟩ = .ok (⟨.mk 8 (readAt held), { invocationsInlined := 1 }⟩, ⟨9⟩) ∧
      expand 4 (.mk 8 (readAt held)) ⟨9⟩ = .ok (⟨one, { capturesResolved := 1 }⟩, ⟨9⟩) ∧
      expand 4 (.mk 8 (readAt held)) ⟨9⟩ ≠ .ok (⟨.mk 8 (readAt held), {}⟩, ⟨9⟩) := by
  refine ⟨rfl, rfl, fun hagain => ?_⟩
  have hheight : (Expr.mk 8 (readAt held)).height ≤ 4 := by
    simp [Expr.height_eq, Expr.children, readAt, held, Node.closure, Node.children]
  have hsettled := (expand_again_iff_no_captured_read 4 4 applied ⟨8⟩ ⟨9⟩
    ⟨.mk 8 (readAt held), { invocationsInlined := 1 }⟩ coherent_applied rfl hheight).1 hagain
  have hread := hsettled _ (Expr.mem_nodes_self _) _ _ rfl
  cases hread

end AppliedRead

end ExprTree
