import Mathlib.Algebra.BigOperators.Group.List.Basic
import Mathlib.Algebra.GroupWithZero.Nat
import ExprTree.Proofs.DepthLimit
import ExprTree.Proofs.Substitution

/-!
# What a residue tells

The residue of a tree counts the places that expansion would act on, without expanding anything. Two
recognizers have to agree for that: the count, and what a visit does at a node.

A tree without residue, and without nodes of unknown kind, is one that expansion gives back as it is; a
visit then does nothing but go down, so the limit it needs is the height of the tree
(`expand_of_no_residue`).

The count of captured reads asks less than a visit does. A field that holds a tree counts also where it is
read through the type of another closure, and such a *misnamed* read is not resolved
(`residue_counts_captured_and_misnamed`).
-/

namespace ExprTree

/-! ## Trees that are too high -/

/-- A tree of more than one level has a child on its longest chain. -/
theorem Expr.exists_child_of_lt_height {n : Nat} {e : Expr} (h : n + 1 < e.height) :
    ∃ c ∈ e.children, n < c.height := by
  rw [Expr.height_eq] at h
  have hbelow : n < (e.children.map height).foldr max 0 := by omega
  by_contra hlow
  push Not at hlow
  refine absurd hbelow (Nat.not_lt.2 (foldr_max_le_iff.2 fun k hk => ?_))
  obtain ⟨c, hc, rfl⟩ := List.mem_map.1 hk
  exact hlow c hc

namespace Walk

variable {σ α β : Type} {st : WalkState σ} {failure : Failure}

/-- A list in which every item leaves the state as it was or fails, and one fails, fails as that one. -/
theorem fails_each_of_mem {f : α → Walk σ β} {xs : List α}
    (hvisit : ∀ x ∈ xs, (∃ b, (f x).Yields st b st) ∨ (f x).Fails st failure)
    (hfails : ∃ x ∈ xs, (f x).Fails st failure) : (each f xs).Fails st failure := by
  induction xs with
  | nil =>
    obtain ⟨x, hx, -⟩ := hfails
    cases hx
  | cons x xs ih =>
    rw [List.forall_mem_cons] at hvisit
    rw [List.exists_mem_cons_iff] at hfails
    obtain ⟨⟨b, hb⟩ | hx, hrest⟩ := hvisit
    · obtain hx | hxs := hfails
      · exact fails_each_cons.2 (.inl hx)
      · exact fails_each_cons.2 (.inr ⟨b, st, hb, ih hrest hxs⟩)
    · exact fails_each_cons.2 (.inl hx)

/-- Below the limit a failure one level further down is a failure here. -/
theorem Fails.guarded {x : Walk σ α} {limit depth : Nat} (hguard : st.guard = some ⟨limit, depth⟩)
    (hlt : depth < limit) (h : x.Fails { st with guard := some ⟨limit, depth + 1⟩ } failure) :
    (guarded x).Fails st failure := by
  obtain ⟨st', hx⟩ := h
  have hrun := guarded_inside hguard hlt x
  rw [hx] at hrun
  exact ⟨_, hrun⟩

end Walk

namespace Expansion

open Walk

/-- On a plain settled tree that is higher than the levels left, a run reaches the limit. -/
theorem fails_of_lt_height {e : Expr} (hplain : e.Plain) (hsettled : e.Settled) {n limit depth : Nat}
    {st : WalkState Stats} (hguard : st.guard = some ⟨limit, depth⟩) (hlevels : depth + n = limit)
    (hheight : n < e.height) :
    (expandUnder .idle asWritten n .root e).Fails st (.depthExceeded limit) := by
  induction e using Expr.childInduction generalizing n depth st with
  | step e ih =>
    cases n with
    | zero => exact fails_tooDeep hguard
    | succ n =>
      rw [expandUnder]
      refine Fails.guarded hguard (by omega) ?_
      obtain ⟨c, hc, hlow⟩ := Expr.exists_child_of_lt_height hheight
      obtain ⟨hforeign, hplains⟩ := Expr.plain_iff.1 hplain
      obtain ⟨-, hsettleds⟩ := Expr.settled_iff.1 hsettled
      rcases Expr.action_of_not_foreign hforeign with
        ⟨v, haction⟩ | haction | ⟨compiled, tree, haction⟩ | haction
      · simp [Expr.children, Expr.node_of_look haction, Node.children] at hc
      · obtain ⟨value, ty, hnode⟩ := Expr.node_of_pass haction
        simp [Expr.children, hnode, Node.children] at hc
      · exact absurd haction (hsettled.action_ne_capture compiled tree)
      · simp only [haction]
        refine fails_bind.2 (.inr ⟨(), _, yields_require.2 ⟨rfl, rfl⟩, fails_children.2 ?_⟩)
        -- low children come back as they are, and the first one that is too high ends the run
        have hfails : ∀ x ∈ e.children, n < x.height → (expandUnder .idle asWritten n .root x).Fails
            { st with guard := some ⟨limit, depth + 1⟩ } (.depthExceeded limit) := fun x hx hx' =>
          ih x hx (hplains x hx) (hsettleds x hx) rfl (by omega) hx'
        refine fails_each_of_mem (fun x hx => ?_) ⟨c, Node.mem_visitOrder.2 hc, hfails c hc hlow⟩
        have hx : x ∈ e.children := Node.mem_visitOrder.1 hx
        by_cases hle : x.height ≤ n
        · have hroom : Room x.height { st with guard := some ⟨limit, depth + 1⟩ } :=
            ⟨_, rfl, by simp only; omega⟩
          exact .inl ⟨x, yields_self (hplains x hx) (hsettleds x hx) hle hroom⟩
        · exact .inr (hfails x hx (by omega))

end Expansion

/-- An empty residue means that there is nothing to expand. A tree without residue and without nodes of
unknown kind is given back as it is, with nothing counted and nothing drawn, under every limit that is not
below its height; under every other limit the expansion fails for its depth. -/
theorem expand_of_no_residue (e : Expr) (hresidue : e.residue.isEmpty = true)
    (hknown : ∀ c ∈ e.nodes, c.kind ≠ .extension) (limit : Nat) (supply : Supply) :
    (e.height ≤ limit → expand limit e supply = .ok (⟨e, {}⟩, supply)) ∧
      (limit < e.height → expand limit e supply = .error (.depthExceeded limit)) := by
  obtain ⟨hplain, hsettled⟩ := Expr.plain_of_residue hresidue hknown
  rw [← expandWith_idle]
  refine ⟨fun hle => ?_, fun hlt => ?_⟩
  · have hroom : Walk.Room e.height
        ({ supply, guard := some { limit }, own := {} } : WalkState Stats) :=
      ⟨_, rfl, by simpa using hle⟩
    exact expandWith_eq_ok_iff.2 ⟨_, Expansion.yields_self hplain hsettled hle hroom⟩
  · exact expandWith_eq_error_iff.2
      (Expansion.fails_of_lt_height hplain hsettled rfl (Nat.zero_add limit) hlt)

namespace CompiledRead

def member (name : String) : Member := ⟨.type "P", name, .field, .int⟩

def held : Expr := .mk 1 (.closure ⟨0, "E", [("n", .int 5)]⟩)

/-- A marker around a captured read, which looks like something to expand but reads no tree. -/
def compiled : Expr :=
  .mk 3 (.compileOf (.mk 2 (.memberAccess (some held) ⟨.capture "E", "n", .field, .expr .int⟩)))

/-- The marker inside a nested binding. -/
def initializer : Expr :=
  .mk 4 (.memberInit ⟨.named "P", [], none⟩ [.nested (member "b") [.assign (member "c") compiled]])

/-- Bindings take no level, so four levels are enough, and three are one too few. -/
theorem expand_initializer_of_no_residue : initializer.residue.isEmpty = true ∧
    expand 4 initializer ⟨5⟩ = .ok (⟨initializer, {}⟩, ⟨5⟩) ∧
    expand 3 initializer ⟨5⟩ = .error (.depthExceeded 3) := by
  have hresidue : initializer.residue.isEmpty = true := by decide +kernel
  have hknown : ∀ c ∈ initializer.nodes, c.kind ≠ .extension := by decide +kernel
  exact ⟨hresidue, (expand_of_no_residue initializer hresidue hknown 4 ⟨5⟩).1 (by decide +kernel),
    (expand_of_no_residue initializer hresidue hknown 3 ⟨5⟩).2 (by decide +kernel)⟩

end CompiledRead

/-! ## Counted reads -/

namespace Expr

/-- The tree that a captured read stands for: expansion goes on with it. -/
def capturedTree? (e : Expr) : Option Expr :=
  match e.node with
  | .memberAccess object member => member.capturedTree? object
  | _ => none

/-- Is this a read of a captured field that holds a tree, by way of a capture type that the closure is no
instance of? -/
def isMisnamedRead (e : Expr) : Bool :=
  match e.node with
  | .memberAccess object member =>
    match member.heldTree? object with
    | some (closure, _) => closure.name != member.owner.name
    | none => false
  | _ => false

/-- A node counts once as captured, or once as misnamed. -/
theorem capturedTrees_ofNode (e : Expr) : (Residue.ofNode e.node).capturedTrees =
    (if e.capturedTree?.isSome then 1 else 0) + if e.isMisnamedRead then 1 else 0 := by
  obtain ⟨l, n⟩ := e
  cases n with
  | memberAccess object member =>
    rcases hheld : member.heldTree? object with _ | ⟨closure, tree⟩
    · simp [Residue.ofNode, capturedTree?, isMisnamedRead, Member.capturedTree?, hheld]
    · by_cases hname : closure.name = member.owner.name <;>
        simp [Residue.ofNode, capturedTree?, isMisnamedRead, Member.capturedTree?, hheld, hname]
  | call object method args =>
    simp only [Residue.ofNode, capturedTree?, isMisnamedRead, node_mk]
    split <;> rfl
  | _ => rfl

end Expr

theorem Residue.capturedTrees_foldl (rs : List Residue) (r : Residue) :
    (rs.foldl (· + ·) r).capturedTrees = r.capturedTrees + (rs.map (·.capturedTrees)).sum := by
  induction rs generalizing r with
  | nil => rfl
  | cons a rs ih =>
    rw [List.foldl_cons, ih, List.map_cons, List.sum_cons, ← Nat.add_assoc]
    rfl

theorem Expr.countP_nodes (p : Expr → Bool) (e : Expr) :
    e.nodes.countP p = (if p e then 1 else 0) + (e.children.map fun c => c.nodes.countP p).sum := by
  rw [nodes_eq, List.countP_cons, List.countP_flatten, List.map_map, Nat.add_comm]
  rfl

theorem Expr.capturedTrees_residue (e : Expr) : e.residue.capturedTrees =
    e.nodes.countP (·.capturedTree?.isSome) + e.nodes.countP (·.isMisnamedRead) := by
  induction e using Expr.childInduction with
  | step e ih =>
    have hchildren : e.children.map (fun c => c.residue.capturedTrees) = e.children.map fun c =>
        c.nodes.countP (·.capturedTree?.isSome) + c.nodes.countP (·.isMisnamedRead) :=
      List.map_congr_left ih
    rw [countP_nodes, countP_nodes, residue, fold_eq, Residue.capturedTrees_foldl, List.map_map]
    show _ + (e.children.map fun c => c.residue.capturedTrees).sum = _
    rw [hchildren, List.sum_map_add, capturedTrees_ofNode]
    omega

/-- The residue of a tree counts the reads that a visit would resolve, and besides them the misnamed ones.
So it counts what expansion resolves exactly where no read is misnamed. -/
theorem residue_counts_captured_and_misnamed (e : Expr) :
    e.residue.capturedTrees =
        e.nodes.countP (·.capturedTree?.isSome) + e.nodes.countP (·.isMisnamedRead) ∧
      (e.residue.capturedTrees = e.nodes.countP (·.capturedTree?.isSome) ↔
        ∀ c ∈ e.nodes, c.isMisnamedRead = false) := by
  refine ⟨e.capturedTrees_residue, ?_⟩
  rw [e.capturedTrees_residue, Nat.add_eq_left, List.countP_eq_zero]
  simp only [Bool.not_eq_true]

namespace MisnamedRead

def closure : Closure Value := ⟨0, "A", [("f", .tree (.mk 1 (.int 1)))]⟩

/-- A read of a field of one closure through the type of another. -/
def read : Expr :=
  .mk 3 (.memberAccess (some (.mk 2 (.closure closure))) ⟨.capture "B", "f", .field, .int⟩)

/-- The read is counted, and it is left as it is: a visit would not resolve it. -/
theorem residue_counts_misnamed_read : read.residue.capturedTrees = 1 ∧
    read.nodes.countP (·.capturedTree?.isSome) = 0 ∧
    (expand 2 read ⟨4⟩).map (fun r => r.1.stats) = .ok {} := by
  have hmisnamed : read.nodes.countP (·.isMisnamedRead) = 1 := by decide +kernel
  have hcaptured : read.nodes.countP (·.capturedTree?.isSome) = 0 := by decide +kernel
  refine ⟨?_, hcaptured, by decide +kernel⟩
  rw [(residue_counts_captured_and_misnamed read).1, hcaptured, hmisnamed]

end MisnamedRead

end ExprTree
