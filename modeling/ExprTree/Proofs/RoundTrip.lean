import Mathlib.Data.Set.Function
import ExprTree.Proofs.FloatText
import ExprTree.Proofs.RereadingSource
import ExprTree.Proofs.Reprinting

/-!
# Printing and reading again

The text of a tree is read as the same tree under other identities. What was read is known up to
names (`Parser.SourceReread`), and in it a name stands for one variable: the names in the text are the
printed ones, and these keep the variables of the printed tree apart (`Parser.Reread.inj`). So each
variable of the printed tree has one that was read for it, and the tree that was read is the printed
tree recast (`Parser.Reread.exists_recasting`).

Two things follow. Printing what was read gives the same text again (`formatTree_reads_back`). And the
fingerprint stays, provided that the text keeps what the bytes hold besides the structure of the tree:
the owners of members, and the names of the variables that are given by name
(`normalize_reads_back`). The printer does not always keep these.
-/

namespace ExprTree

/-- Values for the keys of one list can be read off a second list. -/
theorem exists_assignment {α β κ ν : Type} {R : α → β → Prop} {as : List α} {bs : List β}
    (h : List.Forall₂ R as bs) (key : α → κ) (value : β → ν) (default : ν)
    (hnodup : (as.map key).Nodup) :
    ∃ f : κ → ν, List.Forall₂ (fun a b => value b = f (key a)) as bs := by
  classical
  induction h with
  | nil => exact ⟨fun _ => default, .nil⟩
  | @cons a b as bs _ hrest ih =>
    rw [List.map_cons, List.nodup_cons] at hnodup
    obtain ⟨f, hf⟩ := ih hnodup.2
    refine ⟨fun k => if k = key a then value b else f k, .cons (if_pos rfl).symm ?_⟩
    have hkeys : ∀ a' ∈ as, key a' ≠ key a := fun a' ha' heq =>
      hnodup.1 (heq ▸ List.mem_map_of_mem ha')
    clear hrest ih
    induction hf with
    | nil => exact .nil
    | cons hab _ ih =>
      rw [List.forall_mem_cons] at hkeys
      rw [List.map_cons, List.nodup_cons, List.mem_cons, not_or] at hnodup
      refine .cons ?_ (ih ⟨hnodup.1.2, hnodup.2.2⟩ hkeys.2)
      exact hab.trans (if_neg hkeys.1).symm

/-- The variables of a source: those declared at the top and all parameters. -/
def Expr.variables (top : List Variable) (e : Expr) : List Variable :=
  top ++ e.printed.flatMap Expr.binders

theorem FromSource.mem_variables {e : Expr} (h : FromSource e) {top : List Variable}
    (hfree : ∀ t ∈ e.printed, ∀ v ∈ t.freeVars, v ∈ top) {v : Variable} (hv : e.Uses v) :
    v ∈ e.variables top := by
  obtain ⟨t, ht, hv⟩ := h.closes.uses hv
  rcases Expr.mem_freeVars_or_binders hv with hv | hv
  · exact List.mem_append_left _ (hfree t ht v hv)
  · exact List.mem_append_right _ (List.mem_flatMap.2 ⟨t, ht, hv⟩)

/-- The variables of a tree from a source have names of their own. -/
theorem FromSource.has_variables {e : Expr} (h : FromSource e) :
    ∀ v ∈ e.variables e.names.free, e.names.Has v := by
  intro v hv
  rcases List.mem_append.1 hv with hv | hv
  · exact h.free_has v hv
  · obtain ⟨t, ht, hv⟩ := List.mem_flatMap.1 hv
    obtain ⟨a, ha, hv⟩ := Expr.mem_gather.1 hv
    exact h.has t ht v (Expr.mem_gather.2 ⟨a, ha, List.mem_append_right _ hv⟩)

namespace Parser

section Reread

variable {e e' : Expr} {s : ParseState} {owner : Owner → Owner} {supply : Supply}

/-- A tree, and the one that was read from its text. -/
structure Reread (owner : Owner → Owner) (e e' : Expr) (supply supply' : Supply) : Prop where
  source : FromSource e
  parse : parseTree (formatTree e) supply = .ok (e', supply')
  read : SourceReread owner e (file { tokens := (tokenize (formatTree e)).tokens, supply }).2 e'

theorem Rereadable.exists_reread (h : Rereadable e) (howners : OwnersKept owner e) (supply : Supply) :
    ∃ e' supply', Reread owner e e' supply supply' := by
  obtain ⟨hfaults, e', s, hrun, hsize, hread⟩ := h.reread howners supply
  refine ⟨e', s.supply, h.source, parseTree_eq_ok_iff.2 ⟨hfaults, s, hrun, hsize, rfl⟩, ?_⟩
  rw [hrun]
  exact hread

namespace Reread

variable {supply' : Supply}

theorem source' (h : Reread owner e e' supply supply') : FromSource e' :=
  fromSource_of_parseTree h.parse

/-- The identities of the closures that were read, for those of the printed ones. -/
theorem exists_likening (h : Reread owner e e' supply supply') : ∃ f : Nat → Nat,
    (∀ i j, e.UsesClosure i → e.UsesClosure j → f i = f j → i = j) ∧
      e'.recast (.called ⟨owner, f, id⟩) = e.recast (.printed e.names ⟨owner, f, id⟩) := by
  have hids : ((closuresOf e).reverse.map (·.id)).Nodup := by
    rw [List.map_reverse]
    exact List.nodup_reverse.2 h.source.ids
  obtain ⟨f, hf⟩ := exists_assignment h.read.closures.names (·.id) (·.2.id) 0 hids
  refine ⟨f, ?_, h.read.tree ⟨owner, f, id⟩ rfl hf⟩
  obtain ⟨_, hsettled, -, -⟩ := accepted_of_parseTree h.parse
  have hread : ((declaredClosures (formatTree e) supply).map (·.2.id)).Nodup := hsettled.nodup_ids.1
  have hmap : (declaredClosures (formatTree e) supply).map (·.2.id) =
      (closuresOf e).reverse.map fun c => f c.id := map_eq_of_forall₂ hf
  rw [hmap] at hread
  intro i j hi hj heq
  obtain ⟨c, hc, rfl⟩ := h.source.closes.usesClosure hi
  obtain ⟨d, hd, rfl⟩ := h.source.closes.usesClosure hj
  rw [List.inj_on_of_nodup_map hread (List.mem_reverse.2 hc) (List.mem_reverse.2 hd) heq]

/-- The variables that were read are called as those of the tree are printed, one after the other. -/
theorem variables_eq (h : Reread owner e e' supply supply') :
    (e'.variables (freeVariables (formatTree e) supply)).map (Recasting.called .blind).var =
      (e.variables e.names.free).map (Recasting.printed e.names .blind).var := by
  obtain ⟨f, hinj, hrecast⟩ := h.exists_likening
  have hread := Expr.binders_printed_recast (r := .called ⟨owner, f, id⟩) (e := e') fun _ _ _ _ h => h
  have hprinted := Expr.binders_printed_recast (r := .printed e.names ⟨owner, f, id⟩) hinj
  rw [hrecast, hprinted] at hread
  have hfree : (freeVariables (formatTree e) supply).map (Recasting.called .blind).var =
      e.names.free.map (Recasting.printed e.names .blind).var := by
    show (List.map _ _).map _ = _
    rw [List.map_map]
    refine map_eq_of_forall₂ (h.read.scopes.imp fun v b hv => ?_)
    show (⟨0, b.2.name, b.2.ty⟩ : Variable) = ⟨0, e.names.name v, v.ty⟩
    rw [hv.2.1, hv.2.2]
  rw [Expr.variables, Expr.variables, List.map_append, List.map_append, hfree]
  exact congrArg _ hread.symm

/-- Where a name is printed, one variable is meant. -/
theorem inj (h : Reread owner e e' supply supply') : Set.InjOn (Recasting.called .blind).var
    { v | v ∈ e'.variables (freeVariables (formatTree e) supply) } := by
  have hnodup : ((e.variables e.names.free).map (Recasting.printed e.names .blind).var).Nodup := by
    refine List.Nodup.map_on (fun v hv w hw heq => ?_) h.source.nodup
    exact h.source.given.name_inj (h.source.has_variables v hv) (h.source.has_variables w hw)
      (Variable.mk.inj heq).2.1
  rw [← h.variables_eq] at hnodup
  exact fun v hv w hw heq => List.inj_on_of_nodup_map hnodup hv hw heq

/-- What was read is the tree recast: different variables stand for different ones, each is called as
the one it stands for is printed, and has its type. -/
theorem exists_recasting (h : Reread owner e e' supply supply') :
    ∃ r : Recasting, e'.recast { owner } = e.recast r ∧ r.Faithful e ∧ r.owner = owner ∧
      ∀ v, e.Uses v → (r.var v).name = e.names.name v := by
  classical
  obtain ⟨f, hinj, hrecast⟩ := h.exists_likening
  have hground := grounded_of_parseTree h.parse
  obtain ⟨g, hg⟩ : ∃ g, Set.LeftInvOn g (Recasting.called .blind).var
      { v | v ∈ e'.variables (freeVariables (formatTree e) supply) } :=
    ⟨_, h.inj.leftInvOn_invFunOn⟩
  have hread : ∀ v, e'.Uses v → g (⟨0, v.name, v.ty⟩ : Variable) = v := fun v hv =>
    hg (h.source'.mem_variables (fun t ht => hground.freeVars_scanned h.source'.reached ht) hv)
  have hprinted : ∀ v, e.Uses v → (g ⟨0, e.names.name v, v.ty⟩).name = e.names.name v ∧
      (g ⟨0, e.names.name v, v.ty⟩).ty = v.ty := by
    intro v hv
    have hmem := List.mem_map_of_mem (f := (Recasting.printed e.names .blind).var)
      (h.source.mem_variables h.source.free hv)
    rw [← h.variables_eq] at hmem
    obtain ⟨w, hw, heq⟩ := List.mem_map.1 hmem
    have heq : (⟨0, w.name, w.ty⟩ : Variable) = ⟨0, e.names.name v, v.ty⟩ := heq
    have hgw : g ⟨0, w.name, w.ty⟩ = w := hg hw
    rw [← heq, hgw]
    exact ⟨(Variable.mk.inj heq).2.1, (Variable.mk.inj heq).2.2⟩
  refine ⟨(Recasting.printed e.names ⟨owner, f, id⟩).andThen { var := g }, ?_, ⟨?_, ?_, ?_⟩, rfl,
    fun v hv => (hprinted v hv).1⟩
  · rw [← Expr.recast_recast, ← hrecast, Expr.recast_recast]
    exact Expr.recast_congr (fun v hv => (hread v hv).symm) (fun _ _ => rfl) rfl
  · intro v w hv hw heq
    have hname : e.names.name v = e.names.name w := by
      rw [← (hprinted v hv).1, ← (hprinted w hw).1]
      exact congrArg Variable.name heq
    exact h.source.given.name_inj (h.source.has_variables v (h.source.mem_variables h.source.free hv))
      (h.source.has_variables w (h.source.mem_variables h.source.free hw)) hname
  · exact fun v hv => (hprinted v hv).2
  · exact hinj

end Reread

end Reread

/-- Finite floats are read back from their digits. -/
theorem rereadable_of_isFinite {source : String} {supply₀ supply : Supply} {e : Expr}
    (hparse : parseTree source supply₀ = .ok (e, supply))
    (htypes : e.Everywhere fun a => ∀ t ∈ a.node.tys, t.avoidsFn = true)
    (hfloats : e.Everywhere fun a => ∀ x ∈ a.node.floats, x.isFinite = true) : Rereadable e where
  source := fromSource_of_parseTree hparse
  avoids := htypes
  floats a ha x hx := Binary64.readsBack_of_isFinite (hfloats a ha x hx)

end Parser

/-! ## Text and fingerprint -/

/-- The owner as its name alone tells it. -/
def Owner.untagged (o : Owner) : Owner := .type o.name

theorem untagged_ownerAmong (names : List String) (name : String) :
    (ownerAmong names name).untagged = .type name := by
  unfold ownerAmong
  split <;> rfl

/-- The kind of an owner aside, the text keeps all owners. -/
theorem ownersKept_untagged (e : Expr) : Parser.OwnersKept Owner.untagged e where
  closure _ _ _ _ _ _ m _ := untagged_ownerAmong _ m.owner.name
  tree m _ := untagged_ownerAmong _ m.owner.name

/-- What a tree exposes stands in it. -/
theorem Expr.uses_of_exposed {e : Expr} {v : Variable} (h : v ∈ e.exposed) : e.Uses v := by
  induction e using childInduction with
  | step e ih =>
    rcases mem_exposed.1 h with hown | ⟨-, c, hc, hv⟩
    · exact ⟨e, .here e, List.mem_append_left _ hown⟩
    · obtain ⟨a, ha, hv⟩ := ih c hc hv
      exact ⟨a, .part (List.mem_append_left _ hc) ha, hv⟩

/-- What the bytes of a tree give by name stands in it. -/
theorem Expr.uses_of_givesByName {e : Expr} {v : Variable} (h : e.GivesByName v) : e.Uses v := by
  rcases h with hv | ⟨a, ha, t, ht, hv⟩
  · exact uses_of_exposed hv
  · obtain ⟨b, hb, hv⟩ := uses_of_exposed hv
    exact ⟨b, (Within.part (List.mem_append_right _ ht) hb).trans ha, hv⟩

/-- Let a source be accepted, let no type written in its tree use `Fn` as a plain name, and let its floats be
finite. Then the printed tree is read as a tree that is the same up to identities and the kind of the owners
of members, and that prints as the same text. -/
theorem formatTree_reads_back (source : String) (supply₀ supply supply₁ : Supply) (e : Expr)
    (hparse : parseTree source supply₀ = .ok (e, supply))
    (htypes : e.Everywhere fun a => ∀ t ∈ a.node.tys, t.avoidsFn = true)
    (hfloats : e.Everywhere fun a => ∀ x ∈ a.node.floats, x.isFinite = true) :
    ∃ e' supply' r, parseTree (formatTree e) supply₁ = .ok (e', supply') ∧
      e'.recast { owner := Owner.untagged } = e.recast r ∧ r.Faithful e ∧ r.owner = Owner.untagged ∧
      formatTree e' = formatTree e := by
  have hrereadable := Parser.rereadable_of_isFinite hparse htypes hfloats
  have hsource := hrereadable.source
  have hnames : ∀ o : Owner, o.untagged.name = o.name := fun _ => rfl
  obtain ⟨e', supply', hread⟩ := hrereadable.exists_reread (ownersKept_untagged e) supply₁
  obtain ⟨r, hrecast, hfaithful, howner, hcalled⟩ := hread.exists_recasting
  refine ⟨e', supply', r, hread.parse, hrecast, hfaithful, howner, ?_⟩
  calc formatTree e'
      = formatTree (e'.recast { owner := Owner.untagged }) :=
        (formatTree_recast hread.source' ⟨fun _ _ _ _ h => h, fun _ _ => rfl, fun _ _ _ _ h => h⟩
          hnames fun _ _ => .inl rfl).symm
    _ = formatTree (e.recast r) := by rw [hrecast]
    _ = formatTree e :=
        formatTree_recast hsource hfaithful (fun o => by rw [howner]; exact hnames o)
          fun v hv => .inr (hcalled v hv)

/-- Do the types and the floats of a tree meet the conditions for reading its text again? -/
def Expr.isLegible (e : Expr) : Bool :=
  e.within.all fun a => a.node.tys.all (·.avoidsFn) && a.node.floats.all (·.isFinite)

theorem Expr.isLegible_iff {e : Expr} : e.isLegible = true ↔
    (e.Everywhere fun a => ∀ t ∈ a.node.tys, t.avoidsFn = true) ∧
      e.Everywhere fun a => ∀ x ∈ a.node.floats, x.isFinite = true := by
  simp only [isLegible, List.all_eq_true, Bool.and_eq_true, mem_within, Everywhere]
  exact ⟨fun h => ⟨fun a ha => (h a ha).1, fun a ha => (h a ha).2⟩, fun h a ha => ⟨h.1 a ha, h.2 a ha⟩⟩

/-- A declared variable that has to be printed under another name, and a member whose owner is a closure
that the text does not declare. -/
def renamedVariable : String :=
  "closure E { p = 1.5, q = null } free x: Int " ++
    "(add (invoke (lambda ((x Int)) x) (field static E::p Int)) x)"

/-- The text of `renamedVariable`. -/
def renamedVariableText : String :=
  "free x_1: Int\n\n(add (invoke (lambda ((x Int)) x) (field static E::p Int)) x_1)\n"

theorem formatTree_reads_back_on_renamedVariable :
    ∃ (e e' : Expr) (supply supply' : Supply) (r : Recasting),
      parseTree renamedVariable {} = .ok (e, supply) ∧ e.isLegible = true ∧
      formatTree e = renamedVariableText ∧ parseTree (formatTree e) {} = .ok (e', supply') ∧
      e'.recast { owner := Owner.untagged } = e.recast r ∧ r.Faithful e ∧ formatTree e' = formatTree e := by
  have hcheck : accepts renamedVariable (fun e =>
      e.isLegible && formatTree e == renamedVariableText) = true := by decide +kernel
  obtain ⟨e, supply, hparse, htext⟩ := exists_tree_of_accepts hcheck
  rw [Bool.and_eq_true, beq_iff_eq] at htext
  obtain ⟨htypes, hfloats⟩ := Expr.isLegible_iff.1 htext.1
  obtain ⟨e', supply', r, hagain, hrecast, hfaithful, -, hsame⟩ :=
    formatTree_reads_back renamedVariable {} supply {} e hparse htypes hfloats
  exact ⟨e, e', supply, supply', r, hparse, htext.1, htext.2, hagain, hrecast, hfaithful, hsame⟩

/-- If moreover the text keeps the owners of members, and the variables that the bytes give by name are
printed under their own names, then the printed tree is read as a tree of the same bytes, and under every
hash of the same digest. -/
theorem normalize_reads_back (source : String) (supply₀ supply supply₁ : Supply) (e : Expr)
    (hparse : parseTree source supply₀ = .ok (e, supply))
    (htypes : e.Everywhere fun a => ∀ t ∈ a.node.tys, t.avoidsFn = true)
    (hfloats : e.Everywhere fun a => ∀ x ∈ a.node.floats, x.isFinite = true)
    (howners : Parser.OwnersKept id e)
    (hnames : ∀ v, e.GivesByName v → e.names.name v = v.name) :
    ∃ e' supply', parseTree (formatTree e) supply₁ = .ok (e', supply') ∧
      e'.normalize = e.normalize ∧ ∀ hash, e'.digest hash = e.digest hash := by
  obtain ⟨e', supply', hread⟩ :=
    (Parser.rereadable_of_isFinite hparse htypes hfloats).exists_reread howners supply₁
  obtain ⟨r, hrecast, hfaithful, howner, hcalled⟩ := hread.exists_recasting
  have hbytes := Expr.normalize_eq_of_recast hrecast hfaithful howner fun v hv => by
    rw [hcalled v (Expr.uses_of_givesByName hv), hnames v hv]
  exact ⟨e', supply', hread.parse, hbytes, Expr.digest_congr hbytes⟩

/-- A closure with a tree that reads a member, two parameters of one name, and a declared variable that
keeps its name. -/
def shadowedRead : String :=
  "free n: Int closure E { p = (tree (field n C::q Int)), r = -0.5 } (lambda ((x Int)) (invoke " ++
    "(lambda ((x Int)) (call static C::f (x n (field E E::p Int) (tree (lambda ((x Int)) x))) Int)) x))"

theorem normalize_reads_back_on_shadowedRead :
    ∃ (e e' : Expr) (supply supply' : Supply), parseTree shadowedRead {} = .ok (e, supply) ∧
      e.isLegible = true ∧ (closuresOf e).length = 1 ∧
      parseTree (formatTree e) {} = .ok (e', supply') ∧ e'.normalize = e.normalize := by
  have hcheck : accepts shadowedRead (fun e => e.isLegible && (closuresOf e).length == 1 &&
      ((closuresOf e).all fun c => c.ownTrees.all fun t => t.members.all fun m =>
        m.owner == .type "C") &&
      (e.members.all fun m => ownerAmong ((closuresOf e).map (·.name)) m.owner.name == m.owner) &&
      (e.exposed.all fun v => e.names.name v == v.name) &&
      e.within.all fun a => a.node.payload.all fun t => t.exposed.all fun v =>
        e.names.name v == v.name) = true := by decide +kernel
  obtain ⟨e, supply, hparse, hall⟩ := exists_tree_of_accepts hcheck
  simp only [Bool.and_eq_true, List.all_eq_true, beq_iff_eq, Expr.mem_within] at hall
  obtain ⟨⟨⟨⟨⟨hlegible, hone⟩, hcaptured⟩, hmembers⟩, hexposed⟩, hcarried⟩ := hall
  obtain ⟨htypes, hfloats⟩ := Expr.isLegible_iff.1 hlegible
  have howners : Parser.OwnersKept id e := by
    refine ⟨fun before c after hsplit t ht m hm => ?_, hmembers⟩
    have hbefore : before = [] := by
      have hlength := congrArg List.length hsplit
      rw [hone, List.length_append, List.length_cons] at hlength
      exact List.length_eq_zero_iff.1 (by omega)
    rw [hbefore, hcaptured c (hsplit ▸ by simp) t ht m hm]
    rfl
  obtain ⟨e', supply', hagain, hbytes, -⟩ :=
    normalize_reads_back shadowedRead {} supply {} e hparse htypes hfloats howners fun v hv =>
      hv.elim (hexposed v) fun hv => by
        obtain ⟨a, ha, t, ht, hv⟩ := hv
        exact hcarried a ha t ht v hv
  exact ⟨e, e', supply, supply', hparse, hlegible, hone, hagain, hbytes⟩

end ExprTree
