import Mathlib.Tactic.Choose
import ExprTree.Proofs.Declarations

/-!
# Reading printed sources

A tree is printed as a source: its free variables and closures are declared, and then the tree follows.
`rereads_source` says what happens when this source is read: nothing is reported, the free variables
are declared under their printed names, the closures are the same up to identities, and so is the tree.

The identities of the closures that are read are known only after they have been read. So what has been
read is compared under every likening that gives corresponding closures the same identity
(`Mirrored`); each declaration extends the correspondence by one closure.
-/

namespace ExprTree

namespace Parser

/-! ## Single declarations -/

section Single

variable {ns : Names} {scopes : List (String × Variable)} {closures : List (String × Closure Value)}
  {next : Lexeme → Prop} {Q : List (String × Variable) → List (String × Closure Value) → Prop}

theorem enacts_decl_free {ls : List Lexeme} (h : Enacts scopes closures freeDecl (.free :: ls) next Q) :
    Enacts scopes closures decl (.free :: ls) next Q := by
  intro s hscopes hclosures l rest hl hs
  have hlexeme : s.lexeme = .free := lexeme_of_ahead hs
  have hdecl : decl s = freeDecl s := by
    show (if s.lexeme == .closure then closureDecl else freeDecl) s = _
    rw [hlexeme]
    rfl
  rw [hdecl]
  exact h s hscopes hclosures l rest hl hs

theorem enacts_decl_closure {ls : List Lexeme}
    (h : Enacts scopes closures closureDecl (.closure :: ls) next Q) :
    Enacts scopes closures decl (.closure :: ls) next Q := by
  intro s hscopes hclosures l rest hl hs
  have hlexeme : s.lexeme = .closure := lexeme_of_ahead hs
  have hdecl : decl s = closureDecl s := by
    show (if s.lexeme == .closure then closureDecl else freeDecl) s = _
    rw [hlexeme]
    rfl
  rw [hdecl]
  exact h s hscopes hclosures l rest hl hs

/-- A free variable is declared under its printed name. -/
theorem enacts_freeDecl {v : Variable} (hreadable : v.ty.isReadable = true)
    (havoids : v.ty.avoidsFn = true) (hnew : scopes.any (·.1 == ns.name v) = false) :
    Enacts scopes closures freeDecl (Printer.freeLexemes ns v) EndsTy fun scopes' closures' =>
      (∃ v', scopes' = (ns.name v, v') :: scopes ∧ Stands ns v v') ∧ closures' = closures := by
  rw [freeDecl_eq]
  refine Takes.enacts (P := fun p => p.1.1 = ns.name v ∧ p.2 = v.ty) ?_ ?_
  · refine takes_expect fun _ => takes_expectIdent fun _ => takes_expect fun _ => ?_
    refine (takes_ty hreadable havoids).thenPure ?_
    rintro _ rfl
    exact ⟨rfl, rfl⟩
  · rintro ⟨⟨_, span⟩, _⟩ ⟨rfl, rfl⟩ s hscopes hclosures
    refine ⟨(), ⟨s.supply.next + 1⟩, (ns.name v, ⟨s.supply.next, ns.name v, v.ty⟩) :: s.scopes,
      s.closures, ?_, ⟨⟨s.supply.next, ns.name v, v.ty⟩, by rw [hscopes], rfl, rfl⟩, hclosures⟩
    have hnew : s.scopes.any (·.1 == ns.name v) = false := by rw [hscopes]; exact hnew
    show (if s.scopes.any (·.1 == ns.name v) then _ else _ : Parser Unit) s = _
    rw [hnew]
    rfl

/-- A closure is declared with the fields that are read. -/
theorem enacts_closureDecl {R : String × Value → Value → Prop} {c : Closure Value} (trailing : Bool)
    (hnames : (c.fields.map (·.1)).Nodup) (hvalues : ∀ f ∈ c.fields, Takes scopes closures
      (value (expr maxNesting)) (Printer.value ns f.2).lexemes Anything (R f))
    (hnew : closures.lookup c.name = none) :
    Enacts scopes closures closureDecl (Printer.closureLexemes ns trailing c) Anything
      fun scopes' closures' => scopes' = scopes ∧ ∃ id fields,
        closures' = (c.name, ⟨id, c.name, fields⟩) :: closures ∧
        List.Forall₂ (fun f f' => f'.1 = f.1 ∧ R f f'.2) c.fields fields := by
  rw [closureDecl_eq]
  refine Takes.enacts (P := fun p => p.1.1 = c.name ∧
    List.Forall₂ (fun f f' => f'.1 = f.1 ∧ R f f'.2) c.fields p.2.reverse) ?_ ?_
  · refine takes_expect fun _ => takes_expectIdent fun _ => takes_expect fun _ => ?_
    refine (takes_fields trailing hvalues [] [] .nil hnames).bind (fun fields hfields => ?_) fun _ _ => rfl
    exact takes_expect fun _ => takes_pure ⟨rfl, hfields⟩
  · rintro ⟨⟨_, span⟩, fields⟩ ⟨rfl, hfields⟩ s hscopes hclosures
    refine ⟨(), ⟨s.supply.next + 1⟩, s.scopes, (c.name, ⟨s.supply.next, c.name, fields.reverse⟩) ::
      s.closures, ?_, hscopes, _, _, by rw [hclosures], hfields⟩
    have hnew : (s.closures.lookup c.name).isSome = false := by rw [hclosures, hnew]; rfl
    show (if (s.closures.lookup c.name).isSome then _ else _ : Parser Unit) s = _
    rw [hnew]
    rfl

end Single

/-! ## Closures up to identities -/

/-- The likening gives the closures of a table the identities of the given ones. -/
def Agrees (like : Likening) (cs : List (Closure Value)) (table : List (String × Closure Value)) : Prop :=
  List.Forall₂ (fun c b => like.read b.2.id = like.printed c.id) cs table

/-- The closures are declared under their names, and they are the same under every likening that
agrees on them. -/
structure Mirrored (ns : Names) (owner : Owner → Owner) (cs : List (Closure Value))
    (table : List (String × Closure Value)) : Prop where
  names : List.Forall₂ (fun c b => b.1 = c.name) cs table
  tabled : ∀ like : Likening, like.owner = owner → Agrees like cs table → Tabled ns like cs table

section Mirrored

variable {ns : Names} {owner : Owner → Owner} {cs : List (Closure Value)}
  {table : List (String × Closure Value)}

theorem mirrored_nil : Mirrored ns owner [] [] := ⟨.nil, fun _ _ _ => .nil⟩

theorem recastFields_eq {r r' : Recasting} {fs fs' : List (String × Value)}
    (h : List.Forall₂ (fun f f' => f'.1 = f.1 ∧ f'.2.recast r' = f.2.recast r) fs fs') :
    Value.recastFields r' fs' = Value.recastFields r fs := by
  induction h with
  | nil => rfl
  | @cons f f' _ _ hf _ ih =>
    obtain ⟨name, v⟩ := f
    obtain ⟨name', v'⟩ := f'
    obtain ⟨rfl, hv⟩ := hf
    rw [Value.recastFields, Value.recastFields, ih]
    exact congrArg (fun v => (_, v) :: _) hv

/-- One more closure, whose fields are the same under the likenings that agree on the others. -/
theorem Mirrored.cons (h : Mirrored ns owner cs table) {c : Closure Value} {id : Nat}
    {fields : List (String × Value)}
    (hfields : List.Forall₂ (fun f f' => f'.1 = f.1 ∧ ∀ like : Likening, like.owner = owner ∧
      Agrees like cs table → f'.2.recast (.called like) = f.2.recast (.printed ns like))
      c.fields fields) :
    Mirrored ns owner (c :: cs) ((c.name, ⟨id, c.name, fields⟩) :: table) where
  names := .cons rfl h.names
  tabled like howner hagrees := by
    cases hagrees with
    | cons hid hagrees =>
      refine .cons ⟨rfl, ?_⟩ (h.tabled like howner hagrees)
      have hrecast : Value.recastFields (.called like) fields =
          Value.recastFields (.printed ns like) c.fields :=
        recastFields_eq (hfields.imp fun f f' hf => ⟨hf.1, hf.2 like ⟨howner, hagrees⟩⟩)
      obtain ⟨i, name, fs⟩ := c
      have hid : like.read id = like.printed i := hid
      simp only [Value.recast, Recasting.called, Recasting.printed, hid]
      exact congrArg (fun fs => Value.closure ⟨_, _, fs⟩) hrecast

/-- Some likening agrees. -/
theorem Mirrored.exists_agrees (h : Mirrored ns owner cs table) :
    ∃ like : Likening, like.owner = owner ∧ Agrees like cs table :=
  ⟨⟨owner, fun _ => 0, fun _ => 0⟩, rfl, h.names.imp fun _ _ _ => rfl⟩

end Mirrored

/-- What is taken is the same for every index, so one reading satisfies the conditions of all. -/
theorem Takes.forall {ι α : Type} {scopes : List (String × Variable)}
    {closures : List (String × Closure Value)} {x : Parser α} {ls : List Lexeme} {next : Lexeme → Prop}
    {S : ι → Prop} {P : ι → α → Prop} (hS : ∃ i, S i)
    (h : ∀ i, S i → Takes scopes closures x ls next (P i)) :
    Takes scopes closures x ls next fun a => ∀ i, S i → P i a := by
  intro s hscopes hclosures l rest hl hs
  obtain ⟨i₀, hi₀⟩ := hS
  obtain ⟨a, tokens, supply, hrun, htokens, -⟩ := h i₀ hi₀ s hscopes hclosures l rest hl hs
  refine ⟨a, tokens, supply, hrun, htokens, fun i hi => ?_⟩
  obtain ⟨a', tokens', supply', hrun', -, ha'⟩ := h i hi s hscopes hclosures l rest hl hs
  rw [hrun] at hrun'
  obtain rfl : a = a' := congrArg Prod.fst hrun'
  exact ha'

/-! ## All declarations -/

/-- The owners of the members in what is printed count as those that are read again: at the trees of a
closure, the closures printed before it are declared, and at the tree itself all are. -/
structure OwnersKept (owner : Owner → Owner) (e : Expr) : Prop where
  closure : ∀ before c after, closuresOf e = before ++ c :: after → ∀ t ∈ c.ownTrees, ∀ m ∈ t.members,
    owner (ownerAmong (before.map (·.name)) m.owner.name) = owner m.owner
  tree : ∀ m ∈ e.members, owner (ownerAmong ((closuresOf e).map (·.name)) m.owner.name) = owner m.owner

theorem ownerAmong_reverse (cs : List (Closure Value)) (name : String) :
    ownerAmong (cs.reverse.map (·.name)) name = ownerAmong (cs.map (·.name)) name := by
  simp [ownerAmong]

section Source

variable {e : Expr} {owner : Owner → Owner} {scopes : List (String × Variable)}

/-- The lexeme starts an expression, and no declaration. -/
def StartsTree (l : Lexeme) : Prop := l.opensExpr = true

theorem StartsTree.no_declaration {l : Lexeme} (h : StartsTree l) :
    moreDecls l = false := by
  have hnot := (opensExpr_iff.1 h).2
  simp only [List.mem_cons, List.not_mem_nil, or_false, not_or] at hnot
  rw [moreDecls, beq_eq_false_iff_ne.2 hnot.2.2.1, beq_eq_false_iff_ne.2 hnot.2.2.2]
  rfl

theorem StartsTree.endsTy {l : Lexeme} (h : StartsTree l) : EndsTy l := by
  rintro rfl
  cases h

/-- The closures that are left to read are declared behind those that were read. -/
theorem Rereadable.enacts_closures (h : Rereadable e) (howners : OwnersKept owner e)
    (hscopes : InScope e.names e.names.free scopes) {rest : List (Closure Value)}
    {lss : List (List Lexeme)} (hlss : List.Forall₂ (fun c ls =>
      ∃ trailing, ls = Printer.closureLexemes e.names trailing c) rest lss) :
    ∀ (before : List (Closure Value)) {table : List (String × Closure Value)},
      closuresOf e = before ++ rest → Mirrored e.names owner before.reverse table →
      ∀ acc, Enacts scopes table (iterate moreDecls declStep acc) lss.flatten StartsTree
        fun scopes' closures' => scopes' = scopes ∧ Mirrored e.names owner (closuresOf e).reverse closures' := by
  induction hlss with
  | nil =>
    intro before table hsplit hmirrored acc
    rw [List.append_nil] at hsplit
    exact enacts_declarations_nil (fun _ => StartsTree.no_declaration) ⟨rfl, hsplit ▸ hmirrored⟩ acc
  | @cons c _ rest lss hls _ ih =>
    obtain ⟨trailing, rfl⟩ := hls
    intro before table hsplit hmirrored acc
    have hc : c ∈ closuresOf e := by simp [hsplit]
    have hdeclarable := h.source.ordered.declared c (List.mem_reverse.2 hc)
    have hbefore : ∀ d ∈ before.reverse, d ∈ closuresOf e := by
      intro d hd
      rw [hsplit]
      exact List.mem_append_left _ (List.mem_reverse.1 hd)
    have hnames := h.source.names
    rw [hsplit, List.map_append, List.map_cons, List.nodup_append] at hnames
    have hnodup : (before.reverse.map (·.name)).Nodup := by
      rw [List.map_reverse]
      exact List.nodup_reverse.2 hnames.1
    have hnew : table.lookup c.name = none := by
      have hnot : (table.lookup c.name).isSome = false := by
        rw [lookup_isSome_of_forall₂ hmirrored.names, List.contains_eq_mem, decide_eq_false_iff_not,
          List.map_reverse, List.mem_reverse]
        exact fun hmem => hnames.2.2 _ hmem _ List.mem_cons_self rfl
      exact Option.not_isSome_iff_eq_none.1 (by rw [hnot]; exact Bool.false_ne_true)
    have hreferences : ∀ r ∈ c.references, r ∈ before.reverse := by
      have hordered := h.source.ordered
      rw [hsplit, List.reverse_append, List.reverse_cons, List.append_assoc,
        List.singleton_append] at hordered
      exact hordered.references_behind
    -- the fields are read as the same ones under every likening that agrees on what was read
    have hvalues : ∀ f ∈ c.fields, Takes scopes table (value (expr maxNesting))
        (Printer.value e.names f.2).lexemes Anything fun v' => ∀ like : Likening,
          like.owner = owner ∧ Agrees like before.reverse table →
          v'.recast (.called like) = f.2.recast (.printed e.names like) := by
      intro f hf
      refine Takes.forall hmirrored.exists_agrees fun like hlike => ?_
      have htable := hmirrored.tabled like hlike.1 hlike.2
      obtain ⟨ls, hspelled, htakes⟩ := takes_value (h.field hc hf hscopes htable hbefore hnodup hreferences
        fun t ht m hm => by
          rw [ownerAmong_reverse, hlike.1]
          exact howners.closure before c rest hsplit t ht m hm)
      rwa [hspelled.lexemes_eq]
    rw [List.flatten_cons]
    refine enacts_declarations_cons Anything rfl (enacts_decl_closure
      ((enacts_closureDecl trailing hdeclarable.fieldNames hvalues hnew).imp ?_)) (fun _ _ => trivial) acc
    rintro _ _ ⟨rfl, id, fields, rfl, hfields⟩
    refine ih (before ++ [c]) (by simp [hsplit]) ?_
    rw [List.reverse_append]
    exact hmirrored.cons hfields

/-- The type of a variable that is to be declared can be written and is read back. -/
theorem Rereadable.free_ty (h : Rereadable e) {v : Variable} (hv : v ∈ e.names.free) :
    v.ty.isReadable = true ∧ v.ty.avoidsFn = true := by
  obtain ⟨a, ha, hown⟩ := h.source.free_occurs v hv
  have hnode := Node.mem_own.1 hown
  have hformed := (h.source.legible a ha).formed
  have havoids := h.avoids a ha v.ty
  rw [hnode] at hformed havoids
  exact ⟨hformed, havoids (List.mem_append_left _ (List.mem_singleton_self _))⟩

/-- The free variables that are left to read are declared behind those that were read, and then the
closures. -/
theorem Rereadable.enacts_free (h : Rereadable e) (howners : OwnersKept owner e)
    {lss : List (List Lexeme)} (hlss : List.Forall₂ (fun c ls =>
      ∃ trailing, ls = Printer.closureLexemes e.names trailing c) (closuresOf e) lss)
    (rest : List Variable) : ∀ (before : List Variable) {scopes : List (String × Variable)},
      e.names.free.reverse = before ++ rest → InScope e.names before.reverse scopes →
      ∀ acc, Enacts scopes [] (iterate moreDecls declStep acc)
        (rest.flatMap (Printer.freeLexemes e.names) ++ lss.flatten) StartsTree fun scopes' closures' =>
          InScope e.names e.names.free scopes' ∧
          Mirrored e.names owner (closuresOf e).reverse closures' := by
  induction rest with
  | nil =>
    intro before scopes hsplit hscopes acc
    rw [List.append_nil] at hsplit
    rw [← hsplit, List.reverse_reverse] at hscopes
    refine (h.enacts_closures howners hscopes hlss [] rfl mirrored_nil acc).imp ?_
    rintro _ _ ⟨rfl, hmirrored⟩
    exact ⟨hscopes, hmirrored⟩
  | cons v rest ih =>
    intro before scopes hsplit hscopes acc
    have hmem : ∀ w ∈ before ++ v :: rest, w ∈ e.names.free := fun w hw =>
      List.mem_reverse.1 (hsplit ▸ hw)
    have hv : v ∈ e.names.free := hmem v (by simp)
    obtain ⟨hreadable, havoids⟩ := h.free_ty hv
    have hnew : scopes.any (·.1 == e.names.name v) = false := by
      have hnodup : e.names.free.reverse.Nodup :=
        List.nodup_reverse.2 (List.nodup_append.1 h.source.nodup).1
      rw [hsplit, List.nodup_append] at hnodup
      rw [List.any_eq_false]
      intro b hb heq
      obtain ⟨w, hw, hname, -⟩ := exists_of_mem_right hscopes hb
      have hwf : w ∈ e.names.free := hmem w (List.mem_append_left _ (List.mem_reverse.1 hw))
      have hsame := h.source.given.name_inj (h.source.free_has w hwf) (h.source.free_has v hv)
        (hname.symm.trans (beq_iff_eq.1 heq))
      exact hnodup.2.2 w (List.mem_reverse.1 hw) v List.mem_cons_self hsame
    rw [List.flatMap_cons, List.append_assoc]
    refine enacts_declarations_cons EndsTy rfl (enacts_decl_free
      ((enacts_freeDecl hreadable havoids hnew).imp ?_)) ?_ acc
    · rintro _ _ ⟨⟨v', rfl, hstands⟩, rfl⟩
      refine ih (before ++ [v]) (by simp [hsplit]) ?_
      rw [List.reverse_append]
      exact .cons ⟨rfl, hstands⟩ hscopes
    · -- behind a type stands another declaration or the tree
      intro l hl
      cases rest with
      | cons w rest => exact Lexeme.noConfusion
      | nil =>
        cases lss with
        | nil => exact hl.endsTy
        | cons ls lss =>
          obtain ⟨c, cs, ⟨trailing, rfl⟩, -, -⟩ := List.forall₂_cons_right_iff.1 hlss
          exact Lexeme.noConfusion

/-! ## The text of a tree -/

/-- The text of a tree spells its declarations and then the tree. -/
theorem Rereadable.spells_formatTree (h : Rereadable e) : ∃ lss l ls,
    List.Forall₂ (fun c ls => ∃ trailing, ls = Printer.closureLexemes e.names trailing c)
      (closuresOf e) lss ∧ (Printer.expr e.names e).Spelled (l :: ls) ∧ l.opensExpr = true ∧
    Lexer.Spells (formatTree e).toList
      (e.names.free.reverse.flatMap (Printer.freeLexemes e.names) ++ lss.flatten ++ l :: ls) := by
  choose! trailing hclosure using fun c (hc : c ∈ closuresOf e) => h.spells_closureDecl hc
  obtain ⟨l, ls, hspelled, hopens⟩ :=
    h.spelled (t := e) (List.mem_append_right _ (List.mem_singleton_self e))
  refine ⟨(closuresOf e).map fun c => Printer.closureLexemes e.names (trailing c) c, l, ls,
    ?_, hspelled, hopens, ?_⟩
  · rw [List.forall₂_map_right_iff, List.forall₂_same]
    exact fun c _ => ⟨trailing c, rfl⟩
  have hfree : Lexer.SpellsBefore (String.join (e.names.free.reverse.map (Printer.freeDecl e.names)))
      (e.names.free.reverse.flatMap (Printer.freeLexemes e.names)) := by
    rw [List.flatMap_def]
    refine Lexer.spellsBefore_join ?_
    rw [List.forall₂_map_left_iff, List.forall₂_map_right_iff, List.forall₂_same]
    intro v hv
    have hv := List.mem_reverse.1 hv
    exact Printer.spellsBefore_freeDecl
      (isWord_of_isPlainName (h.source.given.isPlainName_name (h.source.free_has v hv))) (h.free_ty hv).1
  have hclosures : Lexer.SpellsBefore (String.join ((closuresOf e).map (Printer.closureDecl e.names)))
      ((closuresOf e).map fun c => Printer.closureLexemes e.names (trailing c) c).flatten := by
    refine Lexer.spellsBefore_join ?_
    rw [List.forall₂_map_left_iff, List.forall₂_map_right_iff, List.forall₂_same]
    exact hclosure
  have htree : Lexer.Spells (((Printer.expr e.names e).render 0).toList ++ ['\n']) (l :: ls) := by
    have hline := (hspelled.render 0).append (Lexer.spells_blank (b := '\n') rfl Lexer.spells_nil)
      (Lexer.edge_cons.2 rfl)
    rwa [List.append_nil] at hline
  have hall : ∀ gap : String, gap = "" ∨ gap = "\n" → Lexer.Spells
      (gap.toList ++ (((Printer.expr e.names e).render 0).toList ++ ['\n'])) (l :: ls) := by
    rintro _ (rfl | rfl)
    · exact htree
    · exact Lexer.spells_blank rfl htree
  simp only [formatTree, String.toList_append, List.append_assoc]
  refine hfree _ _ (hclosures _ _ (hall _ ?_))
  split
  · exact .inl rfl
  · exact .inr rfl

/-- What is in scope and declared after the text of a tree has been read, and what tree was read: the
free variables, the closures and the tree, up to identities. -/
structure SourceReread (owner : Owner → Owner) (e : Expr) (s : ParseState) (e' : Expr) : Prop where
  scopes : InScope e.names e.names.free s.scopes
  closures : Mirrored e.names owner (closuresOf e).reverse s.closures
  tree : ∀ like : Likening, like.owner = owner → Agrees like (closuresOf e).reverse s.closures →
    e'.recast (.called like) = e.recast (.printed e.names like)

/-- The text of a tree is read without a report. -/
theorem Rereadable.reread (h : Rereadable e) (howners : OwnersKept owner e) (supply : Supply) :
    (tokenize (formatTree e)).faults = [] ∧ ∃ e' s,
      file { tokens := (tokenize (formatTree e)).tokens, supply } = (e', s) ∧ s.faults.size = 0 ∧
      SourceReread owner e s e' := by
  obtain ⟨lss, l, ls, hlss, hspelled, hopens, htext⟩ := h.spells_formatTree
  obtain ⟨hlexemes, hfaults⟩ := htext.tokenize
  rw [List.append_assoc, List.cons_append] at hlexemes
  obtain ⟨_, tokens, supply₁, scopes, closures, hdecls, hahead, hscopes, hclosures⟩ :=
    h.enacts_free howners hlss e.names.free.reverse [] rfl .nil []
      { tokens := (tokenize (formatTree e)).tokens, supply } rfl rfl l (ls ++ [Lexeme.eof]) hopens hlexemes
  -- the tree is the same under every likening that agrees on what was declared
  have htree : Takes scopes closures (expr maxNesting) (l :: ls) Anything fun e' =>
      ∀ like : Likening, like.owner = owner ∧ Agrees like (closuresOf e).reverse closures →
        e'.recast (.called like) = e.recast (.printed e.names like) := by
    refine Takes.forall hclosures.exists_agrees fun like hlike => ?_
    obtain ⟨l', ls', hspelled', -, htakes⟩ := h.rereads (t := e)
      (List.mem_append_right _ (List.mem_singleton_self e)) hscopes
      (hclosures.tabled like hlike.1 hlike.2) (fun c hc => List.mem_reverse.1 hc)
      (by rw [List.map_reverse]; exact List.nodup_reverse.2 h.source.names)
      (fun r hr => List.mem_reverse.2 (h.source.references r hr))
      fun m hm => by rw [ownerAmong_reverse, hlike.1]; exact howners.tree m hm
    rwa [hspelled.lexemes_eq.symm.trans hspelled'.lexemes_eq]
  have hfile : Takes scopes closures lastExpr (l :: ls) (· = .eof) fun e' =>
      ∀ like : Likening, like.owner = owner ∧ Agrees like (closuresOf e).reverse closures →
        e'.recast (.called like) = e.recast (.printed e.names like) := by
    refine htree.last (fun e' he' => takes_at? (b := true) ?_ (takes_pure he')) fun _ _ => trivial
    rintro _ rfl
    rfl
  obtain ⟨e', tokens', supply₂, hrun, -, htree⟩ := hfile
    { tokens, supply := supply₁, scopes, closures } rfl rfl .eof [] rfl hahead
  refine ⟨hfaults, e', { tokens := tokens', supply := supply₂, scopes, closures }, ?_, rfl, hscopes,
    hclosures, fun like howner hagrees => htree like ⟨howner, hagrees⟩⟩
  rw [file_run, hdecls]
  exact hrun

end Source

end Parser

end ExprTree
