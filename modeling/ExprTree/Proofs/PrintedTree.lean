import ExprTree.Proofs.Reading
import ExprTree.Proofs.PrintedNames

/-!
# The tree of a source before it is printed

What is printed of a tree are the trees in the fields of its closures and then the tree itself
(`Names.scanned`): everything within the tree is written inside one of these (`Closes.inside`).

`FromSource` collects what the tree of an accepted source brings along for being printed: each closure
is declared behind those that it refers to, every variable has a name of its own, no variable is bound
twice, and the variables that are free in one of the scanned trees are declared.
-/

namespace ExprTree

/-! ## Closed lists of closures -/

/-- The closures that a tree refers to are in the list, and so are those that these refer to. -/
structure Closes (cs : List (Closure Value)) (e : Expr) : Prop where
  references : ∀ r ∈ e.references, r ∈ cs
  closures : ∀ c ∈ cs, ∀ r ∈ c.references, r ∈ cs

section Closes

variable {cs : List (Closure Value)} {e : Expr}

theorem Closes.inner (h : Closes cs e) {c : Expr} (hc : c ∈ e.inner) : Closes cs c :=
  ⟨fun r hr => h.references r (Expr.mem_gather_of_inner hc hr), h.closures⟩

theorem Closure.sizeOf_lt_of_field {c d : Closure Value} {name : String}
    (h : (name, Value.closure d) ∈ c.fields) : sizeOf d < sizeOf c := by
  have hsize : sizeOf (Value.closure d) < sizeOf c := Closure.sizeOf_lt_of_mem h
  simp only [Value.closure.sizeOf_spec] at hsize
  omega

theorem Closure.mem_ownTrees {c : Closure Value} {t : Expr} :
    t ∈ c.ownTrees ↔ ∃ name, (name, Value.tree t) ∈ c.fields := by
  rw [Closure.ownTrees, List.mem_flatMap]
  constructor
  · rintro ⟨⟨name, v⟩, hf, ht⟩
    cases v with
    | tree u =>
      obtain rfl := List.mem_singleton.1 ht
      exact ⟨name, hf⟩
    | _ => cases ht
  · rintro ⟨name, hf⟩
    exact ⟨_, hf, List.mem_singleton_self t⟩

theorem Closure.mem_trees_of_ownTrees {c : Closure Value} {t : Expr} (h : t ∈ c.ownTrees) :
    t ∈ c.trees := by
  obtain ⟨name, hf⟩ := Closure.mem_ownTrees.1 h
  exact List.mem_flatMap.2 ⟨_, hf, by simp⟩

theorem Closes.ownTree (h : Closes cs e) {c : Closure Value} (hc : c ∈ cs) {t : Expr}
    (ht : t ∈ c.ownTrees) : Closes cs t := by
  obtain ⟨name, hf⟩ := Closure.mem_ownTrees.1 ht
  exact ⟨fun r hr => h.closures c hc r (List.mem_flatMap.2 ⟨_, hf, hr⟩), h.closures⟩

theorem Closes.of_scanned (h : Closes cs e) {t : Expr} (ht : t ∈ Names.scanned cs e) : Closes cs t := by
  rcases List.mem_append.1 ht with ht | ht
  · obtain ⟨c, hc, ht⟩ := List.mem_flatMap.1 ht
    exact h.ownTree hc ht
  · rwa [List.mem_singleton.1 ht]

/-- Every tree of a closure in the list is written in one of them. -/
theorem Closes.exists_ownTree (h : Closes cs e) {t : Expr} (c : Closure Value) (hc : c ∈ cs)
    (ht : t ∈ c.trees) : ∃ d ∈ cs, t ∈ d.ownTrees := by
  obtain ⟨⟨name, v⟩, hf, ht⟩ := List.mem_flatMap.1 ht
  cases v with
  | tree u =>
    obtain rfl : t = u := by simpa using ht
    exact ⟨c, hc, Closure.mem_ownTrees.2 ⟨name, hf⟩⟩
  | closure d =>
    have hd := h.closures c hc d (List.mem_flatMap.2 ⟨_, hf, List.mem_singleton_self d⟩)
    exact h.exists_ownTree d hd (by simpa using ht)
  | _ => simp [Value.trees] at ht
termination_by sizeOf c
decreasing_by exact Closure.sizeOf_lt_of_field hf

/-- Everything within a tree is written inside the tree or inside a tree of a closure in the list. -/
theorem Closes.inside (h : Closes cs e) {a : Expr} (ha : a.Within e) :
    ∃ t ∈ Names.scanned cs e, a.Inside t := by
  have hsplit : a.Inside e ∨ ∃ t ∈ cs.flatMap Closure.ownTrees, a.Inside t := by
    induction e using Expr.partInduction with
    | step e ih =>
      cases ha with
      | here => exact .inl .here
      | @part c _ hc ha =>
        rcases List.mem_append.1 hc with hchild | hpayload
        · have hinner : c ∈ e.inner := List.mem_append_left _ hchild
          exact (ih c hc (h.inner hinner) ha).imp_left (.inner hinner)
        · rcases Node.mem_payload.1 hpayload with hquoted | hcaptured
          · have hinner : c ∈ e.inner := List.mem_append_right _ hquoted
            exact (ih c hc (h.inner hinner) ha).imp_left (.inner hinner)
          · obtain ⟨r, hr, hcr⟩ := Node.mem_captured.1 hcaptured
            obtain ⟨d, hd, hcd⟩ := h.exists_ownTree r (h.references r (Expr.mem_gather_here hr)) hcr
            refine (ih c hc (h.ownTree hd hcd) ha).elim (fun ha => .inr ⟨c, ?_, ha⟩) .inr
            exact List.mem_flatMap.2 ⟨d, hd, hcd⟩
  rcases hsplit with ha | ⟨t, ht, ha⟩
  · exact ⟨e, List.mem_append_right _ (List.mem_singleton_self e), ha⟩
  · exact ⟨t, List.mem_append_left _ ht, ha⟩

theorem Closes.uses (h : Closes cs e) {v : Variable} (hv : e.Uses v) :
    ∃ t ∈ Names.scanned cs e, v ∈ t.gather Node.vars := by
  obtain ⟨a, ha, hv⟩ := hv
  obtain ⟨t, ht, hinside⟩ := h.inside ha
  exact ⟨t, ht, Expr.mem_gather.2 ⟨a, hinside, hv⟩⟩

theorem Closes.mem_of_mem_closures (h : Closes cs e) {r : Closure Value} (c : Closure Value) (hc : c ∈ cs)
    (hr : r ∈ (Value.closure c).closures) : r ∈ cs := by
  rw [Value.closures_closure, List.mem_cons, List.mem_flatMap] at hr
  rcases hr with rfl | ⟨⟨name, v⟩, hf, hr⟩
  · exact hc
  · cases v with
    | closure d =>
      have hd := h.closures c hc d (List.mem_flatMap.2 ⟨_, hf, List.mem_singleton_self d⟩)
      exact h.mem_of_mem_closures d hd hr
    | _ => simp [Value.closures] at hr
termination_by sizeOf c
decreasing_by exact Closure.sizeOf_lt_of_field hf

/-- Every closure that a part of the tree refers to, directly or through another one, is among them. -/
theorem Closes.mem_of_within (h : Closes cs e) {a : Expr} (ha : a.Within e) {c : Closure Value}
    (hc : c ∈ a.node.closures) : c ∈ cs := by
  obtain ⟨t, ht, hinside⟩ := h.inside ha
  obtain ⟨l, n⟩ := a
  cases n with
  | constant v ty =>
    cases v with
    | closure d =>
      have hd : d ∈ t.references := Expr.mem_gather.2 ⟨_, hinside, List.mem_singleton_self d⟩
      exact h.mem_of_mem_closures d ((h.of_scanned ht).references d hd) hc
    | _ => simp [Node.closures, Value.closures] at hc
  | _ => cases hc

theorem Closes.usesClosure (h : Closes cs e) {i : Nat} (hi : e.UsesClosure i) : ∃ c ∈ cs, c.id = i := by
  obtain ⟨a, ha, c, hc, hid⟩ := hi
  exact ⟨c, h.mem_of_within ha hc, hid⟩

end Closes

/-- A variable of a tree is free in it or bound in it. -/
theorem Expr.mem_freeVars_or_binders {e : Expr} {v : Variable} (h : v ∈ e.gather Node.vars) :
    v ∈ e.freeVars ∨ v ∈ e.binders := by
  induction e using innerInduction with
  | step e ih =>
    rw [gather_eq, List.mem_append, List.mem_flatMap] at h
    rcases h with h | ⟨c, hc, h⟩
    · rcases List.mem_append.1 h with h | h
      · exact .inl (mem_freeVars.2 (.inl h))
      · exact .inr (mem_gather_here h)
    · rcases ih c hc h with h | h
      · by_cases hparam : v ∈ e.node.params
        · exact .inr (mem_gather_here hparam)
        · exact .inl (mem_freeVars.2 (.inr ⟨hparam, c, hc, h⟩))
      · exact .inr (mem_gather_of_inner hc h)

theorem Expr.mem_vars_of_mem_freeVars {e : Expr} {v : Variable} (h : v ∈ e.freeVars) :
    v ∈ e.gather Node.vars := by
  induction e using innerInduction with
  | step e ih =>
    rcases mem_freeVars.1 h with h | ⟨-, c, hc, h⟩
    · exact mem_gather_here (List.mem_append_left _ h)
    · exact mem_gather_of_inner hc (ih c hc h)

/-! ## The tree of a source -/

/-- Some constant of the tree refers to the closure, perhaps through the fields of others. -/
def Expr.Reaches (e : Expr) (c : Closure Value) : Prop := ∃ a : Expr, a.Within e ∧ c ∈ a.node.closures

section Reaches

variable {e : Expr} {c r : Closure Value}

/-- What a closure has belongs to every closure through which it is reached. -/
theorem Value.closures_trans (v : Value) (hc : c ∈ v.closures) :
    (∀ r ∈ (Value.closure c).closures, r ∈ v.closures) ∧ ∀ t ∈ c.trees, t ∈ v.trees := by
  cases v with
  | closure d =>
    rw [Value.closures_closure, List.mem_cons, List.mem_flatMap] at hc
    rcases hc with rfl | ⟨f, hf, hc⟩
    · exact ⟨fun r hr => hr, fun t ht => by simpa using ht⟩
    · obtain ⟨hclosures, htrees⟩ := Value.closures_trans f.2 hc
      refine ⟨fun r hr => ?_, fun t ht => ?_⟩
      · rw [Value.closures_closure]
        exact List.mem_cons_of_mem _ (List.mem_flatMap.2 ⟨f, hf, hclosures r hr⟩)
      · rw [Value.trees_closure]
        exact List.mem_flatMap.2 ⟨f, hf, htrees t ht⟩
  | _ => simp [Value.closures] at hc
termination_by sizeOf v
decreasing_by
  have hsize := Closure.sizeOf_lt_of_mem hf
  subst_vars
  simp only [Value.closure.sizeOf_spec]
  omega

theorem Expr.Reaches.captured (h : e.Reaches c) {t : Expr} (ht : t ∈ c.trees) :
    ∃ a : Expr, a.Within e ∧ t ∈ a.node.captured := by
  obtain ⟨⟨l, n⟩, ha, hc⟩ := h
  refine ⟨_, ha, ?_⟩
  cases n with
  | constant v ty =>
    cases v with
    | closure d => simpa [Node.captured] using (Value.closures_trans _ hc).2 t ht
    | _ => simp [Node.closures, Value.closures] at hc
  | _ => cases hc

theorem Expr.Reaches.within (h : e.Reaches c) {t : Expr} (ht : t ∈ c.trees) : t.Within e := by
  obtain ⟨a, ha, hta⟩ := h.captured ht
  exact .trans (.part (List.mem_append_right _ (Node.mem_payload.2 (.inr hta))) (.here t)) ha

theorem Expr.reaches_of_mem_references {t : Expr} (ht : t.Within e) (hr : r ∈ t.references) :
    e.Reaches r := by
  obtain ⟨⟨l, n⟩, ha, hr⟩ := Expr.mem_gather.1 hr
  refine ⟨_, ha.within.trans ht, ?_⟩
  cases n with
  | constant v ty =>
    cases v with
    | closure d =>
      obtain rfl := List.mem_singleton.1 hr
      rw [Expr.node_mk, Node.closures, Value.closures_closure]
      exact List.mem_cons_self
    | _ => cases hr
  | _ => cases hr

theorem Expr.Reaches.references (h : e.Reaches c) (hr : r ∈ c.references) : e.Reaches r := by
  obtain ⟨⟨name, v⟩, hf, hr⟩ := List.mem_flatMap.1 hr
  cases v with
  | tree t => exact reaches_of_mem_references (h.within (List.mem_flatMap.2 ⟨_, hf, by simp⟩)) hr
  | closure d =>
    obtain rfl := List.mem_singleton.1 hr
    obtain ⟨⟨l, n⟩, ha, hc⟩ := h
    refine ⟨_, ha, ?_⟩
    cases n with
    | constant v ty =>
      refine (Value.closures_trans v hc).1 r ?_
      rw [Value.closures_closure, List.mem_cons, List.mem_flatMap]
      refine .inr ⟨_, hf, ?_⟩
      rw [Value.closures_closure]
      exact List.mem_cons_self
    | _ => cases hc
  | _ => cases hr

end Reaches

/-- The names under which a tree is printed. -/
abbrev Expr.names (e : Expr) : Names := .ofTree (closuresOf e) e

/-- The trees that are printed with a tree: those of its closures and then the tree itself. -/
abbrev Expr.printed (e : Expr) : List Expr := Names.scanned (closuresOf e) e

/-- What a closure that is to be declared brings along. -/
structure Declarable (e : Expr) (c : Closure Value) : Prop where
  name : isWord c.name = true
  fieldNames : (c.fields.map (·.1)).Nodup
  fieldWords : ∀ f ∈ c.fields, isWord f.1 = true
  reached : e.Reaches c

/-- The tree can be printed: its closures are in order and can be told apart by name and by identity,
its variables have names of their own, and each one is declared or bound once. -/
structure FromSource (e : Expr) : Prop where
  legible : Parser.AllLegible e
  nesting : ∀ t ∈ e.printed, t.nesting ≤ Parser.maxNesting
  ordered : Ordered (Declarable e) (closuresOf e).reverse
  references : ∀ r ∈ e.references, r ∈ closuresOf e
  names : ((closuresOf e).map (·.name)).Nodup
  ids : ((closuresOf e).map (·.id)).Nodup
  given : e.names.Given ((closuresOf e).map (·.name))
  has : ∀ t ∈ e.printed, ∀ v ∈ t.gather Node.vars, e.names.Has v
  free : ∀ t ∈ e.printed, ∀ v ∈ t.freeVars, v ∈ e.names.free
  free_has : ∀ v ∈ e.names.free, e.names.Has v
  free_occurs : ∀ v ∈ e.names.free, ∃ a : Expr, a.Within e ∧ v ∈ a.node.own
  nodup : (e.names.free ++ e.printed.flatMap Expr.binders).Nodup

theorem Ordered.imp {D D' : Closure Value → Prop} {cs : List (Closure Value)} (h : Ordered D cs)
    (himp : ∀ c ∈ cs, D c → D' c) : Ordered D' cs := by
  induction h with
  | nil => exact .nil
  | cons _ hc hnew hreferences ih =>
    exact .cons (ih fun d hd => himp d (List.mem_cons_of_mem _ hd)) (himp _ List.mem_cons_self hc) hnew
      hreferences

theorem Ordered.closed {D : Closure Value → Prop} {cs : List (Closure Value)} (h : Ordered D cs) :
    ∀ c ∈ cs, ∀ r ∈ c.references, r ∈ cs := by
  induction h with
  | nil => simp
  | cons _ _ _ hreferences ih =>
    refine List.forall_mem_cons.2 ⟨fun r hr => List.mem_cons_of_mem _ (hreferences r hr), ?_⟩
    exact fun c hc r hr => List.mem_cons_of_mem _ (ih c hc r hr)

theorem FromSource.closes {e : Expr} (h : FromSource e) : Closes (closuresOf e) e where
  references := h.references
  closures c hc r hr := List.mem_reverse.1 (h.ordered.closed c (List.mem_reverse.2 hc) r hr)

theorem Closes.mem_of_reaches {cs : List (Closure Value)} {e : Expr} (h : Closes cs e)
    {c : Closure Value} (hc : e.Reaches c) : c ∈ cs := by
  obtain ⟨a, ha, hc⟩ := hc
  exact h.mem_of_within ha hc

theorem FromSource.eq_of_id {e : Expr} (h : FromSource e) {c d : Closure Value} (hc : e.Reaches c)
    (hd : e.Reaches d) (hid : c.id = d.id) : c = d :=
  List.inj_on_of_nodup_map h.ids (h.closes.mem_of_reaches hc) (h.closes.mem_of_reaches hd) hid

/-- The trees that are printed lie within the tree. -/
theorem within_of_scanned {e t : Expr} {cs : List (Closure Value)} (hreached : ∀ c ∈ cs, e.Reaches c)
    (ht : t ∈ Names.scanned cs e) : t.Within e := by
  rcases List.mem_append.1 ht with ht | ht
  · obtain ⟨c, hc, ht⟩ := List.mem_flatMap.1 ht
    exact (hreached c hc).within (Closure.mem_trees_of_ownTrees ht)
  · rw [List.mem_singleton.1 ht]
    exact .here e

/-- The free variables of the trees that are printed are top-level variables. -/
theorem Grounded.freeVars_scanned {top : List Variable} {supply : Supply} {e t : Expr}
    (hground : Grounded top supply e) {cs : List (Closure Value)} (hreached : ∀ c ∈ cs, e.Reaches c)
    (ht : t ∈ Names.scanned cs e) : ∀ v ∈ t.freeVars, v ∈ top := by
  intro v hv
  rcases List.mem_append.1 ht with ht | ht
  · obtain ⟨c, hc, ht⟩ := List.mem_flatMap.1 ht
    obtain ⟨a, ha, hta⟩ := (hreached c hc).captured (Closure.mem_trees_of_ownTrees ht)
    exact (hground.seals a ha).captured_closed t hta v hv
  · rw [List.mem_singleton.1 ht] at hv
    exact hground.closed v hv

theorem FromSource.reached {e : Expr} (h : FromSource e) : ∀ c ∈ closuresOf e, e.Reaches c :=
  fun c hc => (h.ordered.declared c (List.mem_reverse.2 hc)).reached

theorem FromSource.within {e t : Expr} (h : FromSource e) (ht : t ∈ e.printed) : t.Within e :=
  within_of_scanned h.reached ht

theorem FromSource.uses {e t : Expr} (h : FromSource e) (ht : t ∈ e.printed) {v : Variable}
    (hv : v ∈ t.gather Node.vars) : e.Uses v := by
  obtain ⟨a, ha, hv⟩ := Expr.mem_gather.1 hv
  exact ⟨a, ha.within.trans (h.within ht), hv⟩

/-- No variable is bound twice in what is printed: each closure binds its own ones, and the tree was
read behind all closures. -/
theorem nodup_binders_printed {closures : List (String × Closure Value)} {lo hi : Nat} {e : Expr}
    (hsettled : Parser.Settled lo closures) (hknown : ∀ c ∈ closuresOf e, Parser.Known closures c)
    (hnodup : (closuresOf e).Nodup) (htree : Parser.Ascends lo hi e.binders) :
    (e.printed.flatMap Expr.binders).Nodup := by
  have hall : e.printed.flatMap Expr.binders =
      ((closuresOf e).flatMap fun c => c.ownTrees.flatMap Expr.binders) ++ e.binders := by
    rw [Expr.printed, Names.scanned, List.flatMap_append, List.flatMap_assoc,
      List.flatMap_singleton]
  rw [hall]
  refine List.nodup_append.2
    ⟨hsettled.nodup_binders hknown hnodup, htree.nodup, fun v hv w hw heq => ?_⟩
  obtain ⟨c, hc, hv⟩ := List.mem_flatMap.1 hv
  obtain ⟨_, hascends, -⟩ := (hsettled.accepted c (hknown c hc)).binders
  have hlt : v.id < c.id := hascends.lt_hi v hv
  have hbefore : c.id < lo := hsettled.id_lt c (hknown c hc)
  have hle : lo ≤ w.id := htree.lo_le w hw
  rw [heq] at hlt
  omega

/-- The tree of an accepted source can be printed. -/
theorem fromSource_of_parseTree {source : String} {supply supply' : Supply} {e : Expr}
    (hparse : parseTree source supply = .ok (e, supply')) : FromSource e := by
  obtain ⟨lo, hsettled, hdeclared, haccepted⟩ := accepted_of_parseTree hparse
  have hground := grounded_of_parseTree hparse
  have hself : e ∈ [e] := List.mem_singleton_self e
  have hapart := hsettled.apart
  have hreaches : Apart fun c => Parser.Known (declaredClosures source supply) c ∧ e.Reaches c :=
    ⟨fun c d hc hd => hapart.inj c d hc.1 hd.1, fun c hc r hr =>
      ⟨hapart.references c hc.1 r hr, hc.2.references hr⟩⟩
  obtain ⟨hordered, hreferences⟩ := ordered_closuresOf hreaches (e := e) fun r hr =>
    ⟨haccepted.references e hself r hr, Expr.reaches_of_mem_references (.here e) hr⟩
  have hcs : ∀ c ∈ closuresOf e, Parser.Known (declaredClosures source supply) c ∧ e.Reaches c :=
    fun c hc => hordered.declared c (List.mem_reverse.2 hc)
  have hknown := fun c hc => (hcs c hc).1
  have hreached := fun c hc => (hcs c hc).2
  have hnodup : (closuresOf e).Nodup := List.nodup_reverse.1 hordered.nodup
  have hwithin : ∀ t ∈ e.printed, t.Within e := fun t ht => within_of_scanned hreached ht
  -- the free variables of what is printed are the declared ones, and no parameter is one of them
  have hfree : ∀ t ∈ e.printed, ∀ v ∈ t.freeVars, v ∈ freeVariables source supply :=
    fun t ht => hground.freeVars_scanned hreached ht
  have hbinders : ∀ t ∈ e.printed, ∀ v ∈ t.binders, v ∉ freeVariables source supply := by
    intro t ht v hv
    obtain ⟨a, ha, hv⟩ := Expr.mem_gather.1 hv
    exact (hground.seals a (ha.within.trans (hwithin t ht))).params_inner v hv
  have hfits := Names.fits_ofTree hfree hbinders
  have hhas : ∀ t ∈ e.printed, ∀ v ∈ t.gather Node.vars, e.names.Has v := fun t ht v hv =>
    Names.has_ofTree ht hv
  constructor
  case legible => exact haccepted.legible e hself
  case references => exact hreferences
  case given => exact hfits.toGiven
  case has => exact hhas
  case nesting =>
    intro t ht
    rcases List.mem_append.1 ht with ht | ht
    · obtain ⟨c, hc, ht⟩ := List.mem_flatMap.1 ht
      exact (hsettled.accepted c (hknown c hc)).nesting t ht
    · rw [List.mem_singleton.1 ht]
      exact haccepted.nesting e hself
  case ordered =>
    refine hordered.imp fun c _ hc => ?_
    have hclosure := hsettled.accepted c hc.1
    obtain ⟨l₁, l₂, hsplit, -⟩ := List.lookup_eq_some_iff.1 hc.1
    exact ⟨(hdeclared (c.name, c) (by simp [hsplit])).2.1, hclosure.names, hclosure.words, hc.2⟩
  case names =>
    refine List.Nodup.map_on (fun c hc d hd heq => ?_) hnodup
    have hlookup := hknown c hc
    rw [Parser.Known, heq, hknown d hd] at hlookup
    exact (Option.some.inj hlookup).symm
  case ids =>
    exact List.Nodup.map_on (fun c hc d hd => hapart.inj c d (hknown c hc) (hknown d hd)) hnodup
  case free =>
    intro t ht v hv
    exact (hfits.free v).2 ⟨hfree t ht v hv, hhas t ht v (Expr.mem_vars_of_mem_freeVars hv)⟩
  case free_has => exact fun v hv => ((hfits.free v).1 hv).2
  case free_occurs =>
    intro v hv
    obtain ⟨htop, hv⟩ := (hfits.free v).1 hv
    obtain ⟨t, ht, hv⟩ := Names.exists_of_has hv
    obtain ⟨a, ha, hv⟩ := Expr.mem_gather.1 hv
    refine ⟨a, ha.within.trans (hwithin t ht), (List.mem_append.1 hv).resolve_right fun hparam => ?_⟩
    exact hbinders t ht v (Expr.mem_gather.2 ⟨a, ha, hparam⟩) htop
  case nodup =>
    have htree : Parser.Ascends lo supply'.next e.binders := by simpa using haccepted.binders
    refine List.nodup_append.2 ⟨hfits.free_nodup, nodup_binders_printed hsettled hknown hnodup htree,
      fun v hv w hw heq => ?_⟩
    obtain ⟨t, ht, hw⟩ := List.mem_flatMap.1 hw
    exact hbinders t ht w hw (heq ▸ ((hfits.free v).1 hv).1)

end ExprTree
