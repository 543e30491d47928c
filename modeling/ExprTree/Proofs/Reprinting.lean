import ExprTree.Proofs.RecastParts
import ExprTree.Proofs.RereadingParts

/-!
# Printing recast trees

The text of a tree does not depend on identities. Let the variables of a tree be replaced by others of
the same types, different ones for different ones, and its closures be made anew: if each new variable
is called like the old one, or like the old one is printed, then the text stays the same
(`formatTree_recast`).

The scan for names gives the new variables the names that it gives the old ones. A variable that is
called by a name which nothing else has keeps it; so what is called as it is printed is printed so
again.
-/

namespace ExprTree

/-! ## Names -/

namespace Names

/-- What was given to a variable is given to the recast one. -/
def recast (r : Recasting) (ns : Names) : Names where
  assigned := ns.assigned.map fun b => (r.var b.1, b.2)
  taken := ns.taken
  bound := ns.bound.map r.var
  free := ns.free.map r.var

/-- Only variables in `S` have names or are bound. -/
structure Only (S : Variable → Prop) (ns : Names) : Prop where
  has : ∀ v, ns.Has v → S v
  bound : ∀ v ∈ ns.bound, S v

section Recast

variable {r : Recasting} {S : Variable → Prop} {final ns : Names} {v : Variable}

theorem has_of_mem {b : Variable × String} (hb : b ∈ ns.assigned) : ns.Has b.1 := by
  rw [Has, ← Option.isSome_iff_exists, List.lookup_isSome_iff]
  exact ⟨b, hb, beq_self_eq_true b.1⟩

theorem lookup_map_of_injOn {bs : List (Variable × String)}
    (h : ∀ b ∈ bs, r.var b.1 = r.var v → b.1 = v) :
    (bs.map fun b => (r.var b.1, b.2)).lookup (r.var v) = bs.lookup v := by
  induction bs with
  | nil => rfl
  | cons b bs ih =>
    have hhead : (r.var v == r.var b.1) = (v == b.1) := by
      rw [Bool.eq_iff_iff, beq_iff_eq, beq_iff_eq]
      exact ⟨fun heq => (h b List.mem_cons_self heq.symm).symm, congrArg r.var⟩
    rw [List.map_cons, List.lookup_cons, List.lookup_cons, hhead,
      ih fun b hb => h b (List.mem_cons_of_mem _ hb)]

theorem Only.lookup_recast (hinj : ∀ v w, S v → S w → r.var v = r.var w → v = w) (h : ns.Only S)
    (hv : S v) : (ns.recast r).assigned.lookup (r.var v) = ns.assigned.lookup v :=
  lookup_map_of_injOn fun b hb => hinj b.1 v (h.has b.1 (has_of_mem hb)) hv

/-- The names of the recast variables. -/
theorem Only.name_recast (hinj : ∀ v w, S v → S w → r.var v = r.var w → v = w) (h : ns.Only S)
    (hv : ns.Has v) : (ns.recast r).name (r.var v) = ns.name v := by
  obtain ⟨name, hname⟩ := hv
  rw [Names.name, Names.name, h.lookup_recast hinj (h.has v ⟨name, hname⟩), hname]
  rfl

variable (r S final) in
/-- On its way to the final names the first step gives names to variables in `S` only, and on recast
names the second one does the same for the recast variables. -/
def NamesAlike (f g : Names → Names) : Prop :=
  ∀ ns : Names, ns.Only S → (f ns).Only S ∧ Extends ns (f ns) ∧
    (Extends (f ns) final → g (ns.recast r) = (f ns).recast r)

theorem NamesAlike.comp {f f' g g' : Names → Names} (h : NamesAlike r S final f g)
    (h' : NamesAlike r S final f' g') : NamesAlike r S final (fun ns => f' (f ns)) fun ns => g' (g ns) := by
  intro ns hns
  obtain ⟨honly, hextends, heq⟩ := h ns hns
  obtain ⟨honly', hextends', heq'⟩ := h' (f ns) honly
  refine ⟨honly', hextends.trans hextends', fun hfinal => ?_⟩
  show g' (g (ns.recast r)) = _
  rw [heq (hextends'.trans hfinal), heq' hfinal]

theorem namesAlike_foldl {α β : Type} {f : Names → α → Names} {g : Names → β → Names} {h : α → β}
    {xs : List α} (hfg : ∀ x ∈ xs, NamesAlike r S final (f · x) (g · (h x))) :
    NamesAlike r S final (xs.foldl f ·) ((xs.map h).foldl g ·) := by
  induction xs with
  | nil => exact fun ns hns => ⟨hns, .refl ns, fun _ => rfl⟩
  | cons x xs ih =>
    exact (hfg x List.mem_cons_self).comp (ih fun y hy => hfg y (List.mem_cons_of_mem _ hy))

/-- The base of the new name gives the same name: it is the old base, or the name itself. -/
theorem unusedName_recast (hname : (r.var v).name = v.name ∨
    (r.var v).name = unusedName ns.taken (base v)) :
    unusedName ns.taken (base (r.var v)) = unusedName ns.taken (base v) := by
  rcases hname with hname | hname
  · rw [base, hname]
    rfl
  · have hplain : isPlainName (unusedName ns.taken (base v)) = true :=
      isPlainName_nthCandidate (isPlainName_base v) _
    have hbase : base (r.var v) = unusedName ns.taken (base v) := by
      rw [base, hname, if_pos hplain]
    rw [hbase, unusedName_of_not_mem (unusedName_not_mem _ _)]

section Steps

variable (hinj : ∀ v w, S v → S w → r.var v = r.var w → v = w)
  (hnames : ∀ v, S v → (r.var v).name = v.name ∨ (r.var v).name = final.name v)

include hinj hnames

theorem assign_recast (h : ns.Only S) (hv : S v) (hfinal : Extends (ns.assign v) final) :
    (ns.recast r).assign (r.var v) = (ns.assign v).recast r := by
  rw [assign_eq, h.lookup_recast hinj hv]
  rw [assign_eq] at hfinal ⊢
  split
  · rfl
  · next hnone =>
    rw [if_neg hnone] at hfinal
    have hgiven : final.name v = unusedName ns.taken (base v) := by
      rw [Names.name, hfinal v _ List.lookup_cons_self]
      rfl
    have hname := hnames v hv
    rw [hgiven] at hname
    simp only [recast, unusedName_recast hname, List.map_cons]

omit hinj hnames in
theorem Only.assign (h : ns.Only S) (hv : S v) : (ns.assign v).Only S where
  has w hw := (has_assign_iff.1 hw).elim (h.has w) fun heq => heq ▸ hv
  bound w hw := h.bound w (bound_assign ns v ▸ hw)

theorem namesAlike_enter (hv : S v) : NamesAlike r S final (enter · v) (enter · (r.var v)) := by
  intro ns hns
  have honly := hns.assign hv
  refine ⟨⟨honly.has, List.forall_mem_cons.2 ⟨hv, hns.bound⟩⟩, extends_enter ns v, fun hfinal => ?_⟩
  simp only [enter, assign_recast hinj hnames hns hv hfinal]
  rfl

theorem namesAlike_occur (hv : S v) : NamesAlike r S final (occur · v) (occur · (r.var v)) := by
  intro ns hns
  have honly := hns.assign hv
  refine ⟨⟨fun w hw => honly.has w ?_, fun w hw => hns.bound w (bound_occur ns v ▸ hw)⟩,
    extends_occur ns v, fun hfinal => ?_⟩
  · unfold Has at hw ⊢
    rwa [assigned_occur] at hw
  · have hassign : (ns.recast r).assign (r.var v) = (ns.assign v).recast r := by
      refine assign_recast hinj hnames hns hv ?_
      unfold Extends at hfinal ⊢
      rwa [assigned_occur] at hfinal
    have hbound : (ns.recast r).bound.contains (r.var v) = ns.bound.contains v :=
      contains_map_of_injOn fun w hw => hinj w v (hns.bound w hw) hv
    simp only [occur, hns.lookup_recast hinj hv, hassign, hbound]
    split
    · rfl
    · split <;> rfl

/-- The scan gives the recast variables the same names. -/
theorem namesAlike_scan (e : Expr) (he : ∀ v ∈ e.gather Node.vars, S v) :
    NamesAlike r S final (scan e) (scan (e.recast r)) := by
  induction e using Expr.innerInduction with
  | step e ih =>
    rw [Expr.gather_eq, Node.vars, List.append_assoc, List.forall_mem_append,
      List.forall_mem_append] at he
    obtain ⟨hown, hparams, hinner⟩ := he
    have hoccur : NamesAlike r S final (e.node.own.foldl occur ·) ((e.node.own.map r.var).foldl occur ·) :=
      namesAlike_foldl fun v hv => namesAlike_occur hinj hnames (hown v hv)
    have henter : NamesAlike r S final (e.node.params.foldl enter ·)
        ((e.node.params.map r.var).foldl enter ·) :=
      namesAlike_foldl fun v hv => namesAlike_enter hinj hnames (hparams v hv)
    have hscan : NamesAlike r S final (e.inner.foldl (fun ns c => scan c ns) ·)
        ((e.inner.map (·.recast r)).foldl (fun ns c => scan c ns) ·) :=
      namesAlike_foldl fun c hc => ih c hc fun v hv => hinner v (List.mem_flatMap.2 ⟨c, hc, hv⟩)
    intro ns hns
    obtain ⟨honly, -, heq⟩ := (hoccur.comp henter).comp hscan ns hns
    simp only at heq
    refine ⟨⟨fun v hv => honly.has v ?_, fun v hv => hns.bound v (bound_scan e ns ▸ hv)⟩,
      extends_scan e ns, fun hfinal => ?_⟩
    · rw [scan_eq] at hv
      exact hv
    · rw [scan_eq] at hfinal ⊢
      rw [scan_eq, Expr.node_recast, Node.own_recast, Node.params_recast, Expr.inner_recast,
        heq hfinal]
      rfl

end Steps

end Recast

end Names

/-! ## Documents -/

namespace Printer

section Recast

variable {r : Recasting} {ns ns' : Names}

/-- The document of the recast expression is the one of the expression. -/
def PrintsAlike (r : Recasting) (ns ns' : Names) (e : Expr) : Prop :=
  expr ns' (e.recast r) = expr ns e ∧ (e.recast r).ty = e.ty

theorem exprs_recast {es : List Expr} (h : ∀ e ∈ es, PrintsAlike r ns ns' e) :
    exprs ns' (Expr.recastList r es) = exprs ns es := by
  rw [exprs_eq_map, exprs_eq_map, Expr.recastList_eq_map, List.map_map]
  exact List.map_congr_left fun e he => (h e he).1

theorem object_recast {o : Option Expr} (h : ∀ e ∈ o.toList, PrintsAlike r ns ns' e) :
    object ns' (Expr.recastOption r o) = object ns o := by
  cases o with
  | none => rfl
  | some e => exact (h e (List.mem_singleton_self e)).1

theorem doc_recast (howner : ∀ o, (r.owner o).name = o.name) (m : Member) :
    (m.recast r).doc = m.doc := by
  have hpath : (m.recast r).path = m.path := congrArg (· ++ "::" ++ m.name) (howner m.owner)
  rw [Member.doc, hpath]
  rfl

theorem construct_recast (howner : ∀ o, (r.owner o).name = o.name) {c : Construct Expr}
    (h : ∀ e ∈ c.args, PrintsAlike r ns ns' e) :
    construct ns' (Expr.recastConstruct r c) = construct ns c := by
  obtain ⟨t, as, ms⟩ := c
  have hmembers : ((ms.map fun ms => ms.map (·.recast r)).getD []).map Member.doc =
      (ms.getD []).map Member.doc := by
    cases ms with
    | none => rfl
    | some ms => simp [Function.comp_def, doc_recast howner]
  rw [Expr.recastConstruct, construct, construct, exprs_recast h, hmembers]

theorem elements_recast {es : List (ElementInit Expr)}
    (h : ∀ e ∈ es.flatMap (·.args), PrintsAlike r ns ns' e) :
    elements ns' (Expr.recastElements r es) = elements ns es := by
  induction es with
  | nil => rfl
  | cons i es ih =>
    obtain ⟨m, as⟩ := i
    rw [List.flatMap_cons, List.forall_mem_append] at h
    rw [Expr.recastElements, elements, elements, exprs_recast h.1, ih h.2]

mutual

theorem binding_recast (howner : ∀ o, (r.owner o).name = o.name) : ∀ {b : Binding Expr},
    (∀ e ∈ b.exprs, PrintsAlike r ns ns' e) → binding ns' (Expr.recastBinding r b) = binding ns b
  | .assign m e, h => by
    rw [Expr.recastBinding, binding, binding, (h e (by simp [Binding.exprs])).1, doc_recast howner]
  | .nested m bs, h => by
    rw [Expr.recastBinding, binding, binding, bindings_recast howner (by rwa [Binding.exprs] at h),
      doc_recast howner]
  | .elements m es, h => by
    rw [Expr.recastBinding, binding, binding, elements_recast (by rwa [Binding.exprs] at h),
      doc_recast howner]

theorem bindings_recast (howner : ∀ o, (r.owner o).name = o.name) : ∀ {bs : List (Binding Expr)},
    (∀ e ∈ Binding.exprsOfAll bs, PrintsAlike r ns ns' e) →
    bindings ns' (Expr.recastBindings r bs) = bindings ns bs
  | [], _ => rfl
  | b :: bs, h => by
    rw [Binding.exprsOfAll, List.forall_mem_append] at h
    rw [Expr.recastBindings, bindings, bindings, binding_recast howner h.1, bindings_recast howner h.2]

end

theorem isBare_recast {v : Value} {t : Ty} (h : ∀ u, v = .tree u → PrintsAlike r ns ns' u) :
    (v.recast r).isBare t = v.isBare t := by
  cases v with
  | tree u =>
    rw [Value.recast]
    cases t <;> simp only [Value.isBare, (h u rfl).2]
  | closure c =>
    rw [Value.recast_closure]
    cases t <;> rfl
  | _ => simp only [Value.recast]

theorem value_recast {v : Value} (h : ∀ u, v = .tree u → PrintsAlike r ns ns' u) :
    value ns' (v.recast r) = value ns v := by
  cases v with
  | tree u => rw [Value.recast, value, value, (h u rfl).1]
  | closure c =>
    rw [Value.recast_closure, value, value]
    rfl
  | _ => simp only [Value.recast, value]

theorem callDoc_recast {m : Method} {o : Option Expr} {as : List Expr} {objectDoc : Doc}
    {argDocs : List Doc} (ho : ∀ e ∈ o.toList, PrintsAlike r ns ns' e)
    (has : ∀ e ∈ as, PrintsAlike r ns ns' e) :
    callDoc m (Expr.recastOption r o) (Expr.recastList r as) objectDoc argDocs =
      callDoc m o as objectDoc argDocs := by
  -- the form depends on the marker, on whether there is an object, and on the number of arguments
  unfold callDoc
  cases o with
  | some x =>
    have hx := (ho x (List.mem_singleton_self x)).2
    cases as with
    | nil => rcases m.marker with _ | (_ | _ | _) <;> simp only [Expr.recastOption, Expr.recastList, hx]
    | cons y as => rcases m.marker with _ | (_ | _ | _) <;> rfl
  | none =>
    cases as with
    | nil => rfl
    | cons x as =>
      have hx := (has x List.mem_cons_self).2
      cases as with
      | nil | cons y as =>
        rcases m.marker with _ | (_ | _ | _) <;> simp only [Expr.recastOption, Expr.recastList, hx]

/-- The document of a recast tree. -/
theorem printsAlike (howner : ∀ o, (r.owner o).name = o.name) (e : Expr)
    (hvars : ∀ v ∈ e.gather Node.vars, ns'.name (r.var v) = ns.name v ∧ (r.var v).ty = v.ty) :
    PrintsAlike r ns ns' e := by
  induction e using Expr.innerInduction with
  | step e ih =>
    have hinner : ∀ c ∈ e.inner, PrintsAlike r ns ns' c := fun c hc =>
      ih c hc fun v hv => hvars v (Expr.mem_gather_of_inner hc hv)
    have hchild : ∀ c ∈ e.children, PrintsAlike r ns ns' c := fun c hc =>
      hinner c (List.mem_append_left _ hc)
    have hhere : ∀ v ∈ e.node.vars, ns'.name (r.var v) = ns.name v ∧ (r.var v).ty = v.ty :=
      fun v hv => hvars v (Expr.mem_gather_here hv)
    refine ⟨?_, Expr.ty_recast fun v hv => (hhere v (List.mem_append_left _ hv)).2⟩
    obtain ⟨l, n⟩ := e
    rw [Expr.recast, expr, expr]
    cases n with
    | unary op x t m =>
      obtain ⟨hx, hty⟩ := hchild x (List.mem_singleton_self x)
      simp only [Node.recast, node, hx, hty]
    | binary op x y c lifted m t =>
      obtain ⟨hx, htx⟩ := hchild x (by simp [Expr.children, Node.children])
      obtain ⟨hy, hty⟩ := hchild y (by simp [Expr.children, Node.children])
      simp only [Node.recast, node, hx, htx, hy, hty]
    | typeIs x t => simp only [Node.recast, node, (hchild x (List.mem_singleton_self x)).1]
    | conditional x y z t =>
      obtain ⟨hx, -⟩ := hchild x (by simp [Expr.children, Node.children])
      obtain ⟨hy, hty⟩ := hchild y (by simp [Expr.children, Node.children])
      obtain ⟨hz, -⟩ := hchild z (by simp [Expr.children, Node.children])
      simp only [Node.recast, node, hx, hy, hty, hz]
    | constant v t =>
      have htree : ∀ u, v = .tree u → PrintsAlike r ns ns' u := by
        rintro u rfl
        exact hinner u (List.mem_append_right _ (List.mem_singleton_self u))
      simp only [Node.recast, node, isBare_recast htree, value_recast htree]
    | «variable» v =>
      simp only [Node.recast, node, (hhere v (List.mem_append_left _ (List.mem_singleton_self v))).1]
    | memberAccess o m =>
      have hpath : (m.recast r).path = m.path := congrArg (· ++ "::" ++ m.name) (howner m.owner)
      simp only [Node.recast, node, object_recast hchild, hpath]
      rfl
    | call o m as =>
      rw [Expr.children, Expr.node_mk, Node.children, List.forall_mem_append] at hchild
      simp only [Node.recast, node, object_recast hchild.1, exprs_recast hchild.2,
        callDoc_recast hchild.1 hchild.2]
    | lambda ps x t =>
      obtain ⟨hx, hty⟩ := hchild x (List.mem_singleton_self x)
      have hps : ∀ p ∈ ps, ns'.name (r.var p) = ns.name p ∧ (r.var p).ty = p.ty := fun p hp =>
        hhere p (List.mem_append_right _ hp)
      have hparams : paramsDoc ns' (ps.map r.var) = paramsDoc ns ps := by
        have hitems : (ps.map r.var).map (fun p => "(" ++ ns'.name p ++ " " ++ p.ty.text ++ ")") =
            ps.map fun p => "(" ++ ns.name p ++ " " ++ p.ty.text ++ ")" := by
          rw [List.map_map]
          refine List.map_congr_left fun p hp => ?_
          rw [Function.comp_apply, (hps p hp).1, (hps p hp).2]
        rw [paramsDoc, paramsDoc, hitems]
      have hlambda : Node.lambdaTy (ps.map r.var) (x.recast r) = Node.lambdaTy ps x := by
        rw [Node.lambdaTy, Node.lambdaTy, hty, List.map_map]
        exact congrArg (Ty.func · x.ty) (List.map_congr_left fun p hp => (hps p hp).2)
      simp only [Node.recast, node, hx, hparams, hlambda]
    | construct c => simp only [Node.recast, node, construct_recast howner hchild]
    | newArray k t es =>
      have hes : exprs ns' (Expr.recastList r es) = exprs ns es := exprs_recast hchild
      simp only [Node.recast, node, hes]
    | invocation x as t =>
      rw [Expr.children, Expr.node_mk, Node.children, List.forall_mem_cons] at hchild
      simp only [Node.recast, node, hchild.1.1, hchild.1.2, exprs_recast hchild.2]
    | memberInit c bs =>
      rw [Expr.children, Expr.node_mk, Node.children, List.forall_mem_append] at hchild
      simp only [Node.recast, node, construct_recast howner hchild.1, bindings_recast howner hchild.2]
    | listInit c es =>
      rw [Expr.children, Expr.node_mk, Node.children, List.forall_mem_append] at hchild
      simp only [Node.recast, node, construct_recast howner hchild.1, elements_recast hchild.2]
    | extension k t => simp only [Node.recast, node]

end Recast

end Printer

/-! ## Texts -/

/-- The names of a recast tree. -/
theorem Expr.names_recast {r : Recasting} {e : Expr} (h : FromSource e) (hfaithful : r.Faithful e)
    (hnames : ∀ v, e.Uses v → (r.var v).name = v.name ∨ (r.var v).name = e.names.name v) :
    (e.recast r).names = e.names.recast r ∧ e.names.Only e.Uses := by
  have hclosures : (closuresOf (e.recast r)).map (·.name) = (closuresOf e).map (·.name) := by
    rw [closuresOf_recast hfaithful.closure_inj, List.map_map]
    rfl
  have halike : Names.NamesAlike r e.Uses e.names (fun ns => e.printed.foldl (fun ns t => Names.scan t ns) ns)
      fun ns => (e.printed.map (·.recast r)).foldl (fun ns t => Names.scan t ns) ns :=
    Names.namesAlike_foldl fun t ht =>
      Names.namesAlike_scan hfaithful.var_inj hnames t fun _ hv => h.uses ht hv
  obtain ⟨honly, -, heq⟩ := halike { taken := (closuresOf e).map (·.name) }
    ⟨fun v ⟨_, hv⟩ => (by cases hv), by simp⟩
  simp only [← Names.ofTree_eq] at honly heq
  refine ⟨?_, honly⟩
  have hprinted : Names.scanned (closuresOf (e.recast r)) (e.recast r) = e.printed.map (·.recast r) :=
    printed_recast hfaithful.closure_inj
  rw [names, Names.ofTree_eq, hclosures, hprinted]
  exact heq (.refl _)

/-- The text of a tree is the one of the recast tree, if each variable is called as before or as it is
printed. -/
theorem formatTree_recast {r : Recasting} {e : Expr} (h : FromSource e) (hfaithful : r.Faithful e)
    (howner : ∀ o, (r.owner o).name = o.name)
    (hnames : ∀ v, e.Uses v → (r.var v).name = v.name ∨ (r.var v).name = e.names.name v) :
    formatTree (e.recast r) = formatTree e := by
  obtain ⟨hrecast, honly⟩ := Expr.names_recast h hfaithful hnames
  have hname : ∀ v, e.names.Has v → (e.names.recast r).name (r.var v) = e.names.name v :=
    fun v hv => honly.name_recast hfaithful.var_inj hv
  have hprints : ∀ t ∈ e.printed, Printer.PrintsAlike r e.names (e.names.recast r) t := fun t ht =>
    Printer.printsAlike howner t fun v hv =>
      ⟨hname v (h.has t ht v hv), hfaithful.ty_eq v (h.uses ht hv)⟩
  have hfree : ∀ v ∈ e.names.free, Printer.freeDecl (e.names.recast r) (r.var v) =
      Printer.freeDecl e.names v := by
    intro v hv
    have hhas := h.free_has v hv
    rw [Printer.freeDecl, Printer.freeDecl, hname v hhas, hfaithful.ty_eq v (honly.has v hhas)]
  have hclosure : ∀ c ∈ closuresOf e, Printer.closureDecl (e.names.recast r) (c.recast r) =
      Printer.closureDecl e.names c := by
    intro c hc
    have hfields : (c.recast r).fields.map (fun f => (f.1, Printer.value (e.names.recast r) f.2)) =
        c.fields.map fun f => (f.1, Printer.value e.names f.2) := by
      rw [Closure.recast, Value.recastFields_eq_map, List.map_map]
      refine List.map_congr_left fun f hf => congrArg (Prod.mk f.1) (Printer.value_recast fun u hu => ?_)
      exact hprints u (List.mem_append_left _ (List.mem_flatMap.2 ⟨c, hc,
        Closure.mem_ownTrees.2 ⟨f.1, hu ▸ hf⟩⟩))
    rw [Printer.closureDecl, Printer.closureDecl, hfields]
    rfl
  have hdecls : (e.recast r).names.free.reverse.map (Printer.freeDecl (e.recast r).names) =
      e.names.free.reverse.map (Printer.freeDecl e.names) := by
    rw [hrecast, List.map_reverse, List.map_reverse, Names.recast, List.map_map]
    exact congrArg List.reverse (List.map_congr_left hfree)
  have hclosures : (closuresOf (e.recast r)).map (Printer.closureDecl (e.recast r).names) =
      (closuresOf e).map (Printer.closureDecl e.names) := by
    rw [hrecast, closuresOf_recast hfaithful.closure_inj, List.map_map]
    exact List.map_congr_left hclosure
  have htree : Printer.expr (e.recast r).names (e.recast r) = Printer.expr e.names e := by
    rw [hrecast]
    exact (hprints e (List.mem_append_right _ (List.mem_singleton_self e))).1
  simp only [formatTree, hdecls, hclosures, htree]

end ExprTree
