import ExprTree.Proofs.DepthLimit
import ExprTree.Proofs.RecastNodes

/-!
# Expanding recast trees

Expansion does not see identities, only whether two of them are the same. Let two trees be alike: one is
the other under other variables, different ones for different ones, and with its closures made anew.
Expanded under the same limit, both fail in the same way, or both succeed with the same counters and
with results that are alike in the same way (`expand_alike`). In particular the names of variables play
no part: under other names only the message about a parameter differs (`expand_renamed`).

The two runs are compared step by step (`Expansion.Twins`). Each makes nodes of its own, and where one
shares a node the other may not; since labels are identities, this makes no difference to what the
nodes contain.
-/

namespace ExprTree

/-- Heaps grow. -/
instance : Preorder Heap where
  le_refl := Heap.le_refl
  le_trans _ _ _ := Heap.le_trans

/-- The failure of a run on a recast tree: only the name of a parameter differs, and the parameter is
one of the variables in `S`. -/
inductive Failure.Recast (r : Recasting) (S : Variable → Prop) : Failure → Failure → Prop
  | same {failure : Failure} : (∀ name, failure ≠ .recursiveBinding name) → Recast r S failure failure
  | parameter {v : Variable} : S v →
      Recast r S (.recursiveBinding v.name) (.recursiveBinding (r.var v).name)

/-- The outermost layers of two targets that are alike. -/
inductive Layer.Alike (r : Recasting) : Layer → Layer → Prop
  | lambda (params : List Variable) {body body' : Expr} : body'.recast {} = body.recast r →
      Alike r (.lambda params body) (.lambda (params.map r.var) body')
  | var (v : Variable) : Alike r (.var v) (.var (r.var v))
  | around (count : Stats → Stats) {inner inner' : Expr} : inner'.recast {} = inner.recast r →
      Alike r (.around count inner) (.around count inner')
  | blocked (failure : Failure) : Alike r (.blocked failure) (.blocked failure)

theorem Layer.alike_of_recast {r : Recasting} {layer layer' : Layer}
    (h : layer'.recast {} = layer.recast r) : Layer.Alike r layer layer' := by
  cases layer <;> cases layer' <;>
    simp only [recast, Layer.lambda.injEq, Layer.var.injEq, Layer.around.injEq, Layer.blocked.injEq,
      List.map_id_fun, id_eq, reduceCtorEq] at h
  · obtain ⟨rfl, hbody⟩ := h
    exact .lambda _ hbody
  · exact h ▸ .var _
  · obtain ⟨rfl, hinner⟩ := h
    exact .around _ hinner
  · exact h ▸ .blocked _

/-- What is done at two expressions that are alike. -/
inductive Action.Alike (r : Recasting) : Action → Action → Prop
  | look (v : Variable) : Alike r (.look v) (.look (r.var v))
  | pass : Alike r .pass .pass
  | inline {target target' : Expr} {args args' : List Expr} : target'.recast {} = target.recast r →
      args'.map (·.recast {}) = args.map (·.recast r) →
      Alike r (.inline target args) (.inline target' args')
  | capture (compiled : Bool) {tree tree' : Expr} : tree'.recast {} = tree.recast r →
      Alike r (.capture compiled tree) (.capture compiled tree')
  | unwrap {query query' : Expr} : query'.recast {} = query.recast r →
      Alike r (.unwrap query) (.unwrap query')
  | descend : Alike r .descend .descend
  | fail (failure : Failure) : Alike r (.fail failure) (.fail failure)

theorem Action.alike_of_recast {r : Recasting} {action action' : Action}
    (h : action'.recast {} = action.recast r) : Action.Alike r action action' := by
  cases action <;> cases action' <;>
    simp only [recast, Action.look.injEq, Action.inline.injEq, Action.capture.injEq, Action.unwrap.injEq,
      Action.fail.injEq, id_eq, reduceCtorEq] at h
  · exact h ▸ .look _
  · exact .pass
  · exact .inline h.1 h.2
  · obtain ⟨rfl, htree⟩ := h
    exact .capture _ htree
  · exact .unwrap h
  · exact .descend
  · exact h ▸ .fail _

namespace Expansion

open Walk Walk.Pairing

section Alike

variable {r : Recasting} {S : Variable → Prop} {limit depth : Nat} {w w' : Heap × Heap} {e e' : Expr}

/-- In the two heaps the expressions are alike; the variables of the first one are in `S`. -/
structure Twins (r : Recasting) (S : Variable → Prop) (w : Heap × Heap) (e e' : Expr) : Prop where
  left : w.1.Holds e
  right : w.2.Holds e'
  vars : e.Everywhere fun a => ∀ v ∈ a.node.vars, S v
  alike : e'.recast {} = e.recast r

namespace Twins

theorem mono (h : Twins r S w e e') (hle : w ≤ w') : Twins r S w' e e' :=
  ⟨h.left.mono hle.1, h.right.mono hle.2, h.vars, h.alike⟩

theorem node (h : Twins r S w e e') : e'.node.recast {} = e.node.recast r := by
  rw [← Expr.node_recast, ← Expr.node_recast, h.alike]

theorem within (h : Twins r S w e e') {c c' : Expr} (hc : c.Within e) (hc' : c'.Within e')
    (halike : c'.recast {} = c.recast r) : Twins r S w c c' :=
  ⟨h.left.within hc, h.right.within hc', h.vars.within hc, halike⟩

theorem list (h : Twins r S w e e') {cs cs' : List Expr} (hcs : ∀ c ∈ cs, c.Within e)
    (hcs' : ∀ c ∈ cs', c.Within e') (halike : cs'.map (·.recast {}) = cs.map (·.recast r)) :
    List.Forall₂ (Twins r S w) cs cs' := by
  induction cs generalizing cs' with
  | nil =>
    rw [List.map_nil, List.map_eq_nil_iff] at halike
    subst halike
    exact .nil
  | cons c cs ih =>
    cases cs' with
    | nil => cases halike
    | cons c' cs' =>
      obtain ⟨hhead, htail⟩ := List.cons.inj halike
      rw [List.forall_mem_cons] at hcs hcs'
      exact .cons (h.within hcs.1 hcs'.1 hhead) (ih hcs.2 hcs'.2 htail)

end Twins

/-- Under the heaps `w`, the bindings of two scopes are alike, one by one. -/
def ScopesAlike (r : Recasting) (S : Variable → Prop) (w : Heap × Heap) (bs bs' : List (Variable × Expr)) :
    Prop :=
  List.Forall₂ (fun b b' => S b.1 ∧ b'.1 = r.var b.1 ∧ Twins r S w b.2 b'.2) bs bs'

theorem ScopesAlike.mono {bs bs' : List (Variable × Expr)} (h : ScopesAlike r S w bs bs') (hle : w ≤ w') :
    ScopesAlike r S w' bs bs' :=
  h.imp fun _ _ hb => ⟨hb.1, hb.2.1, hb.2.2.mono hle⟩

/-- What two lookups have in common. -/
def FoundAlike (r : Recasting) (S : Variable → Prop) (w : Heap × Heap) : Option Expr → Option Expr → Prop
  | none, none => True
  | some e, some e' => Twins r S w e e'
  | _, _ => False

section Lookups

variable (hinj : ∀ v v', S v → S v' → r.var v = r.var v' → v = v')

include hinj

/-- A variable is bound on both sides or on none. -/
theorem ScopesAlike.lookup {bs bs' : List (Variable × Expr)} (h : ScopesAlike r S w bs bs') {v : Variable}
    (hv : S v) : FoundAlike r S w (bs.lookup v) (bs'.lookup (r.var v)) := by
  induction h with
  | nil => trivial
  | @cons b b' bs bs' hb _ ih =>
    obtain ⟨u, e⟩ := b
    obtain ⟨u', e'⟩ := b'
    obtain ⟨hu, rfl, htwins⟩ := hb
    by_cases heq : v = u
    · subst heq
      simp only [List.lookup_cons, beq_self_eq_true]
      exact htwins
    · have hne : r.var v ≠ r.var u := fun hvar => heq (hinj v u hv hu hvar)
      simpa only [List.lookup_cons, beq_eq_false_iff_ne.2 heq, beq_eq_false_iff_ne.2 hne] using ih

/-- A parameter that cannot be bound on one side cannot be bound on the other. -/
theorem ScopesAlike.bindAll {s s' : Scope} (hscope : ScopesAlike r S w s.bindings s'.bindings)
    {pairs pairs' : List (Variable × Expr)} (hpairs : ScopesAlike r S w pairs pairs') :
    ∀ {frame frame' : List (Variable × Expr)}, ScopesAlike r S w frame frame' →
      (∃ inner inner', s.bindAll frame pairs = .ok inner ∧ s'.bindAll frame' pairs' = .ok inner' ∧
        ScopesAlike r S w inner inner') ∨
      ∃ failure failure', s.bindAll frame pairs = .error failure ∧
        s'.bindAll frame' pairs' = .error failure' ∧ Failure.Recast r S failure failure' := by
  induction hpairs with
  | nil => exact fun hframe => .inl ⟨_, _, rfl, rfl, hframe⟩
  | @cons b b' pairs pairs' hb _ ih =>
    intro frame frame' hframe
    obtain ⟨v, e⟩ := b
    obtain ⟨_, e'⟩ := b'
    obtain ⟨hv, rfl, htwins⟩ := hb
    have houter : (s'.lookup? (r.var v)).isSome = (s.lookup? v).isSome := by
      have := hscope.lookup hinj hv
      rw [Scope.lookup?, Scope.lookup?]
      cases hl : s.bindings.lookup v <;> cases hl' : s'.bindings.lookup (r.var v) <;>
        simp_all [FoundAlike]
    have hown : (frame'.lookup (r.var v)).isSome = (frame.lookup v).isSome := by
      have := hframe.lookup hinj hv
      cases hl : frame.lookup v <;> cases hl' : frame'.lookup (r.var v) <;> simp_all [FoundAlike]
    by_cases hbound : (s.binds v || (frame.lookup v).isSome) = true
    · have hbound' : (s'.binds (r.var v) || (frame'.lookup (r.var v)).isSome) = true := by
        rwa [Scope.binds, houter, hown]
      exact .inr ⟨_, _, if_pos hbound, if_pos hbound', .parameter hv⟩
    · have hbound' : ¬ (s'.binds (r.var v) || (frame'.lookup (r.var v)).isSome) = true := by
        rwa [Scope.binds, houter, hown]
      have hstep : s.bindAll frame ((v, e) :: pairs) = s.bindAll (frame ++ [(v, e)]) pairs :=
        if_neg hbound
      have hstep' : s'.bindAll frame' ((r.var v, e') :: pairs') =
          s'.bindAll (frame' ++ [(r.var v, e')]) pairs' := if_neg hbound'
      rw [hstep, hstep']
      exact ih (List.rel_append hframe (.cons ⟨hv, rfl, htwins⟩ .nil))

/-- Two scopes are extended to scopes that are alike, or both cannot be extended. -/
theorem ScopesAlike.extend {s s' : Scope} (hscope : ScopesAlike r S w s.bindings s'.bindings)
    {pairs pairs' : List (Variable × Expr)} (hpairs : ScopesAlike r S w pairs pairs') :
    (∃ inner inner', s.extend pairs = .ok inner ∧ s'.extend pairs' = .ok inner' ∧
      ScopesAlike r S w inner.bindings inner'.bindings) ∨
    ∃ failure failure', s.extend pairs = .error failure ∧ s'.extend pairs' = .error failure' ∧
      Failure.Recast r S failure failure' := by
  simp only [Scope.extend]
  obtain ⟨inner, inner', hok, hok', hinner⟩ | ⟨failure, failure', herr, herr', hfailures⟩ :=
    hscope.bindAll hinj hpairs .nil
  · rw [hok, hok']
    exact .inl ⟨_, _, rfl, rfl, List.rel_append hinner hscope⟩
  · rw [herr, herr']
    exact .inr ⟨_, _, rfl, rfl, hfailures⟩

end Lookups

theorem scopesAlike_zip {params : List Variable} {es es' : List Expr} (hparams : ∀ p ∈ params, S p)
    (hes : List.Forall₂ (Twins r S w) es es') :
    ScopesAlike r S w (params.zip es) ((params.map r.var).zip es') := by
  induction params generalizing es es' with
  | nil => exact .nil
  | cons p params ih =>
    cases hes with
    | nil => exact .nil
    | cons he hes =>
      exact .cons ⟨hparams p List.mem_cons_self, rfl, he⟩
        (ih (fun q hq => hparams q (List.mem_cons_of_mem _ hq)) hes)

/-! ## The two runs -/

/-- Runs on trees that are alike, each with a heap of its own. -/
def besideTwins (r : Recasting) (S : Variable → Prop) (limit : Nat) : Pairing (Heap × Heap) where
  limit := limit
  limit' := limit
  limit_le := Nat.le_refl limit
  supplies w s s' := s.next = w.1.next ∧ s'.next = w.2.next
  failures := Failure.Recast r S
  failures_limit _ := .same nofun

/-- An expression with the shape of another has its variables, as far as they are not in children. -/
theorem vars_of_shape {n m : Node} (h : n.shape = m.shape) : n.vars = m.vars := by
  rw [Node.vars, Node.vars, ← Node.own_shape, ← Node.params_shape, h, Node.own_shape, Node.params_shape]

/-- Nodes that are alike stay so when their children are replaced by ones that are alike, whether they
are made again or shared. -/
theorem Twins.rebuild (howner : r.owner = id) (h : Twins r S w e e') {out out' : Expr}
    (hleft : w'.1.Holds out) (hright : w'.2.Holds out') (hshape : out.node.shape = e.node.shape)
    (hshape' : out'.node.shape = e'.node.shape)
    (horder : List.Forall₂ (Twins r S w) out.node.visitOrder out'.node.visitOrder) :
    Twins r S w' out out' where
  left := hleft
  right := hright
  vars := by
    have hchildren := ((List.forall₂_and_left _ _).1 (horder.imp fun _ _ htwins => ⟨htwins.vars, htwins⟩)).1
    refine Expr.everywhere_iff.2 ⟨?_, fun c hc => ?_⟩
    · rw [vars_of_shape hshape]
      exact h.vars.here
    · rcases List.mem_append.1 hc with hc | hc
      · exact hchildren c (Node.mem_visitOrder.2 hc)
      · refine h.vars.part (List.mem_append_right _ ?_)
        rwa [← Node.payload_shape, ← hshape, Node.payload_shape]
  alike := by
    have hnode : out'.node.recast {} = out.node.recast r := by
      refine Node.recast_eq_of_children howner rfl h.node hshape hshape' ?_
      rw [← List.forall₂_eq_eq_eq, List.forall₂_map_left_iff, List.forall₂_map_right_iff]
      exact horder.flip.imp fun _ _ htwins => htwins.alike
    obtain ⟨l, n⟩ := out
    obtain ⟨l', n'⟩ := out'
    exact congrArg (Expr.mk 0) hnode

/-- Visits of children that go alike, for children that are alike, make a walk through them that does. -/
theorem tracks_children (howner : r.owner = id) {f g : Expr → Expansion Expr} (h : Twins r S w e e')
    (hvisit : ∀ w' c c', w ≤ w' → Twins r S w' c c' →
      (besideTwins r S limit).Tracks depth w' (Twins r S) (f c) (g c')) :
    (besideTwins r S limit).Tracks depth w (Twins r S) (Walk.children e fun c _ => f c)
      (Walk.children e' fun c _ => g c) := by
  intro st st' hbeside
  have horder : e'.node.visitOrder.map (·.recast {}) = e.node.visitOrder.map (·.recast r) := by
    rw [← Node.visitOrder_recast, ← Node.visitOrder_recast, h.node]
  have hchildren : List.Forall₂ (Twins r S w) e.node.visitOrder e'.node.visitOrder :=
    h.list (fun c hc => Expr.within_of_mem_children (Node.mem_visitOrder.1 hc))
      (fun c hc => Expr.within_of_mem_children (Node.mem_visitOrder.1 hc)) horder
  have heach : (besideTwins r S limit).Tracks depth w (fun w' cs cs' => List.Forall₂ (Twins r S w') cs cs')
      (each f e.node.visitOrder) (each g e'.node.visitOrder) :=
    tracks_each (fun hle htwins => htwins.mono hle)
      (hchildren.imp fun c c' htwins w' hle => hvisit w' c c' hle (htwins.mono hle))
  obtain ⟨cs, cs', st₁, st₁', w₁, hf, hg, hle, hbeside₁, htwins⟩ | ⟨failure, failure', hf, hg, hfailures⟩ |
    ⟨hlt, hf⟩ := heach st st' hbeside
  · have hheld : ∀ c ∈ cs, w₁.1.Holds c :=
      ((List.forall₂_and_left _ _).1 (htwins.imp fun _ _ htwins => ⟨htwins.left, htwins⟩)).1
    have hheld' : ∀ c ∈ cs', w₁.2.Holds c :=
      ((List.forall₂_and_left _ _).1 (htwins.flip.imp fun _ _ htwins => ⟨htwins.right, htwins⟩)).1
    obtain ⟨out, st₂, heap, hout, hgrow, hholds, hnext, hguard, hown, hshape, horder⟩ :=
      Yields.children (h.left.mono hle.1) hheld hbeside₁.supply.1 hf
    obtain ⟨out', st₂', heap', hout', hgrow', hholds', hnext', hguard', hown', hshape', horder'⟩ :=
      Yields.children (h.right.mono hle.2) hheld' hbeside₁.supply.2 hg
    refine .inl ⟨out, out', st₂, st₂', (heap, heap'), hout, hout', le_trans hle ⟨hgrow, hgrow'⟩,
      ⟨hguard.trans hbeside₁.guard, hguard'.trans hbeside₁.guard', ?_, hnext, hnext'⟩, ?_⟩
    · rw [hown, hown', hbeside₁.own]
    · refine (h.mono hle).rebuild howner hholds hholds' hshape hshape' ?_
      rw [horder, horder']
      exact htwins
  · exact .inr (.inl ⟨failure, failure', fails_children.2 hf, fails_children.2 hg, hfailures⟩)
  · exact .inr (.inr ⟨hlt, fails_children.2 hf⟩)

section Runs

variable (howner : r.owner = id) (hinj : ∀ v v', S v → S v' → r.var v = r.var v' → v = v')

include howner hinj

/-- Targets that are alike lead to lambdas that are alike. -/
theorem tracks_peelUnder_twins {s s' : Scope} {levels : Nat}
    (hscope : ScopesAlike r S w s.bindings s'.bindings) (h : Twins r S w e e') :
    (besideTwins r S limit).Tracks depth w
      (fun w' found found' => (∀ p ∈ found.1, S p) ∧ found'.1 = found.1.map r.var ∧
        Twins r S w' found.2 found'.2)
      (peelUnder .idle s levels e) (peelUnder .idle s' levels e') := by
  induction levels generalizing depth w e e' with
  | zero => exact tracks_tooDeep fun _ => rfl
  | succ levels ih =>
    have halike : Layer.Alike r e.node.layer e'.node.layer := by
      refine Layer.alike_of_recast ?_
      rw [← Node.layer_recast rfl, ← Node.layer_recast howner, h.node]
    rw [peelUnder, peelUnder]
    refine Tracks.guarded ?_
    generalize hlayer : e.node.layer = layer, hlayer' : e'.node.layer = layer' at halike ⊢
    cases halike with
    | lambda params hbody =>
      obtain ⟨ty, hnode⟩ := Expr.node_of_layer_lambda hlayer
      obtain ⟨ty', hnode'⟩ := Expr.node_of_layer_lambda hlayer'
      refine tracks_pure ⟨fun p hp => h.vars.here p ?_, rfl,
        h.within (Expr.within_of_mem_children (Expr.mem_children_of_lambda hnode))
          (Expr.within_of_mem_children (Expr.mem_children_of_lambda hnode')) hbody⟩
      rw [hnode]
      exact hp
    | var v =>
      have hv : S v := by
        refine h.vars.here v ?_
        rw [Expr.node_of_layer_var hlayer]
        exact List.mem_singleton_self v
      have hfound : FoundAlike r S w (s.lookup? v) (s'.lookup? (r.var v)) := hscope.lookup hinj hv
      simp only
      generalize s.lookup? v = found, s'.lookup? (r.var v) = found' at hfound ⊢
      cases found with
      | none =>
        cases found' with
        | none => exact tracks_throw (.same (Failure.ne_recursiveBinding rfl))
        | some _ => exact hfound.elim
      | some replacement =>
        cases found' with
        | none => exact hfound.elim
        | some replacement' =>
          have hkind : replacement'.node.kind = replacement.node.kind := by
            rw [← Node.kind_recast (r := {}), hfound.node, Node.kind_recast]
          simp only
          split <;> split
          · exact tracks_throw (.same (Failure.ne_recursiveBinding rfl))
          · next hvariable _ hother =>
            obtain ⟨u, hu⟩ := Node.eq_variable_of_kind (hkind.trans (congrArg Node.kind hvariable))
            exact absurd hu (hother u)
          · next hother _ _ hvariable =>
            obtain ⟨u, hu⟩ := Node.eq_variable_of_kind (hkind.symm.trans (congrArg Node.kind hvariable))
            exact absurd hu (hother u)
          · exact ih hscope hfound
    | around count hinner =>
      simp only [require_unquotes_idle]
      refine (tracks_modifyOwn count).bind fun w' _ _ hle _ => ih (hscope.mono hle) ?_
      exact (h.within (Expr.within_of_layer hlayer) (Expr.within_of_layer hlayer') hinner).mono hle
    | blocked failure =>
      exact tracks_throw (.same (Failure.ne_recursiveBinding (Node.failure_of_layer hlayer)))

/-- Expressions that are alike, in scopes that are alike, expand alike. -/
theorem tracks_expandUnder_twins {s s' : Scope} {levels : Nat}
    (hscope : ScopesAlike r S w s.bindings s'.bindings) (h : Twins r S w e e') :
    (besideTwins r S limit).Tracks depth w (Twins r S) (expandUnder .idle asWritten levels s e)
      (expandUnder .idle asWritten levels s' e') := by
  induction levels generalizing depth w s s' e e' with
  | zero => exact tracks_tooDeep fun _ => rfl
  | succ levels ih =>
    have halike : Action.Alike r e.node.action e'.node.action := by
      refine Action.alike_of_recast ?_
      rw [← Node.action_recast rfl, ← Node.action_recast howner, h.node]
    rw [expandUnder, expandUnder]
    refine Tracks.guarded ?_
    generalize haction : e.node.action = action, haction' : e'.node.action = action' at halike ⊢
    cases halike with
    | look v =>
      have hv : S v := by
        refine h.vars.here v ?_
        rw [Expr.node_of_look haction]
        exact List.mem_singleton_self v
      have hfound : FoundAlike r S w (s.lookup? v) (s'.lookup? (r.var v)) := hscope.lookup hinj hv
      refine tracks_pure ?_
      generalize s.lookup? v = found, s'.lookup? (r.var v) = found' at hfound ⊢
      cases found with
      | none =>
        cases found' with
        | none => exact h
        | some _ => exact hfound.elim
      | some replacement =>
        cases found' with
        | none => exact hfound.elim
        | some replacement' => exact hfound
    | pass => exact tracks_pure h
    | @inline target target' args args' htarget hargs =>
      have hchildren := Expr.mem_children_of_inline haction
      have hchildren' := Expr.mem_children_of_inline haction'
      have htarget : Twins r S w target target' :=
        h.within (Expr.within_of_mem_children hchildren.1) (Expr.within_of_mem_children hchildren'.1) htarget
      have hargs : List.Forall₂ (Twins r S w) args args' :=
        h.list (fun a ha => Expr.within_of_mem_children (hchildren.2 a ha))
          (fun a ha => Expr.within_of_mem_children (hchildren'.2 a ha)) hargs
      refine (tracks_peelUnder_twins howner hinj hscope htarget).bind fun w₁ found found' hle₁ hfound => ?_
      obtain ⟨params, body⟩ := found
      obtain ⟨_, body'⟩ := found'
      obtain ⟨hparams, rfl, hbody⟩ := hfound
      simp only [List.length_map, ← hargs.length_eq]
      split
      · have harity : (besideTwins r S limit).failures (.arityMismatch params.length args.length)
            (.arityMismatch params.length args.length) := .same (Failure.ne_recursiveBinding rfl)
        exact tracks_throw_bind harity _ _
      · have hreplacements : (besideTwins r S limit).Tracks (depth + 1) w₁
            (fun w' rs rs' => List.Forall₂ (Twins r S w') rs rs')
            (each (expandUnder .idle asWritten levels s) args)
            (each (expandUnder .idle asWritten levels s') args') :=
          tracks_each (fun hle htwins => htwins.mono hle) (hargs.imp fun a a' htwins w' hle =>
            ih (hscope.mono (le_trans hle₁ hle)) (htwins.mono (le_trans hle₁ hle)))
        refine hreplacements.bind fun w₂ rs rs' hle₂ hrs => ?_
        refine (tracks_pure (Q := fun _ found found' => found = (params, body) ∧
          found' = (params.map r.var, body')) ⟨rfl, rfl⟩).bind fun w₃ found found' hle₃ hfound => ?_
        obtain ⟨rfl, rfl⟩ := hfound
        have hle := le_trans (le_trans hle₁ hle₂) hle₃
        have hextend : (besideTwins r S limit).Tracks (depth + 1) w₃
            (fun w' inner inner' => ScopesAlike r S w' inner.bindings inner'.bindings)
            (liftM (s.extend (params.zip rs)) : Expansion Scope)
            (liftM (s'.extend ((params.map r.var).zip rs'))) :=
          tracks_liftM ((hscope.mono hle).extend hinj
            (scopesAlike_zip hparams (hrs.imp fun _ _ htwins => htwins.mono hle₃)))
        refine hextend.bind fun w₄ inner inner' hle₄ hinner => ?_
        refine (tracks_modifyOwn _).bind fun w₅ _ _ hle₅ _ => ih (hinner.mono hle₅) ?_
        exact hbody.mono (le_trans hle₂ (le_trans hle₃ (le_trans hle₄ hle₅)))
    | capture compiled htree =>
      refine (tracks_modifyOwn _).bind fun w' _ _ hle _ => ih (hscope.mono hle) ?_
      exact (h.within (Expr.within_of_capture haction) (Expr.within_of_capture haction') htree).mono hle
    | unwrap hquery =>
      refine (tracks_modifyOwn _).bind fun w' _ _ hle _ => ih (hscope.mono hle) ?_
      exact (h.within (Expr.within_of_mem_children (Expr.mem_children_of_unwrap haction))
        (Expr.within_of_mem_children (Expr.mem_children_of_unwrap haction')) hquery).mono hle
    | descend =>
      exact tracks_children howner h fun w' c c' hle htwins => ih (hscope.mono hle) htwins
    | fail failure =>
      exact tracks_throw (.same (Failure.ne_recursiveBinding (Node.failure_of_action haction)))

end Runs

end Alike

end Expansion

/-- Trees that are alike expand alike: under the same limit both fail in the same way, or both succeed,
with the same counters and results that are alike, and no variable comes in. -/
theorem expand_alike {r : Recasting} (howner : r.owner = id) {e e' : Expr}
    (hinj : ∀ v v', e.Uses v → e.Uses v' → r.var v = r.var v' → v = v')
    (halike : e'.recast {} = e.recast r) {supply supply' : Supply} (he : e.Coherent supply)
    (he' : e'.Coherent supply') (limit : Nat) :
    (∃ out out' supply₁ supply₁', expand limit e supply = .ok (out, supply₁) ∧
      expand limit e' supply' = .ok (out', supply₁') ∧ out'.stats = out.stats ∧
      (out.tree.Everywhere fun a => ∀ v ∈ a.node.vars, e.Uses v) ∧
      out'.tree.recast {} = out.tree.recast r) ∨
    ∃ failure failure', expand limit e supply = .error failure ∧
      expand limit e' supply' = .error failure' ∧ Failure.Recast r e.Uses failure failure' := by
  obtain ⟨heap, hnext, hheld⟩ := he.exists_heap
  obtain ⟨heap', hnext', hheld'⟩ := he'.exists_heap
  have htwins : Expansion.Twins r e.Uses (heap, heap') e e' :=
    ⟨hheld, hheld', fun a ha v hv => ⟨a, ha, hv⟩, halike⟩
  have htracks : (Expansion.besideTwins r e.Uses limit).Tracks 0 (heap, heap') (Expansion.Twins r e.Uses)
      (Expansion.expandUnder .idle Expansion.asWritten limit .root e)
      (Expansion.expandUnder .idle Expansion.asWritten limit .root e') :=
    Expansion.tracks_expandUnder_twins howner hinj .nil htwins
  simp only [← expandWith_idle]
  obtain ⟨out, out', st, st', w, hrun, hrun', -, hbeside, houts⟩ | ⟨failure, failure', hrun, hrun',
    hfailures⟩ | ⟨hlt, -⟩ := htracks { supply, guard := some { limit }, own := {} }
      { supply := supply', guard := some { limit }, own := {} } ⟨rfl, rfl, rfl, hnext.symm, hnext'.symm⟩
  · exact .inl ⟨⟨out, st.own⟩, ⟨out', st'.own⟩, st.supply, st'.supply,
      expandWith_eq_ok_iff.2 ⟨st.guard, hrun⟩, expandWith_eq_ok_iff.2 ⟨st'.guard, hrun'⟩, hbeside.own,
      houts.vars, houts.alike⟩
  · exact .inr ⟨failure, failure', expandWith_eq_error_iff.2 hrun, expandWith_eq_error_iff.2 hrun',
      hfailures⟩
  · exact absurd hlt (Nat.lt_irrefl limit)

/-- Only the identity of variables matters. Let `e'` be `e` with all its variables replaced wherever
they stand, the trees that constants and closures carry included, different ones for different ones, and
with its closures and nodes made anew. Under every limit both expand, with the same counters and to
results that are related in the same way, or both fail. Then the failure is the same, but that a
parameter which would be bound again is given by its new name. -/
theorem expand_renamed (rename : Variable → Variable) (closure : Nat → Nat) (e e' : Expr)
    (supply supply' : Supply) (hinj : ∀ v w, e.Uses v → e.Uses w → rename v = rename w → v = w)
    (hrenamed : e'.recast {} = e.recast { var := rename, closure }) (he : e.Coherent supply)
    (he' : e'.Coherent supply') (limit : Nat) :
    (∃ out out' supply₁ supply₁', expand limit e supply = .ok (out, supply₁) ∧
      expand limit e' supply' = .ok (out', supply₁') ∧ out'.stats = out.stats ∧
      out'.tree.recast {} = out.tree.recast { var := rename, closure }) ∨
    (∃ v, e.Uses v ∧ expand limit e supply = .error (.recursiveBinding v.name) ∧
      expand limit e' supply' = .error (.recursiveBinding (rename v).name)) ∨
    ∃ failure, (∀ name, failure ≠ .recursiveBinding name) ∧ expand limit e supply = .error failure ∧
      expand limit e' supply' = .error failure := by
  obtain ⟨out, out', supply₁, supply₁', hout, hout', hstats, -, halike⟩ | ⟨failure, failure', hfails,
    hfails', hfailures⟩ := expand_alike rfl hinj hrenamed he he' limit
  · exact .inl ⟨out, out', supply₁, supply₁', hout, hout', hstats, halike⟩
  · cases hfailures with
    | same hother => exact .inr (.inr ⟨failure, hother, hfails, hfails'⟩)
    | @parameter v hv => exact .inr (.inl ⟨v, hv, hfails, hfails'⟩)

/-- How an expansion ends: with a failure, or with these counters. -/
def outcome (limit : Nat) (e : Expr) (supply : Supply) : Except Failure Stats :=
  (expand limit e supply).map (·.1.stats)

theorem exists_result_of_outcome {limit : Nat} {e : Expr} {supply : Supply} {stats : Stats}
    (h : outcome limit e supply = .ok stats) :
    ∃ out supply₁, expand limit e supply = .ok (out, supply₁) ∧ out.stats = stats := by
  unfold outcome at h
  cases hexpand : expand limit e supply with
  | error failure =>
    rw [hexpand] at h
    cases h
  | ok result =>
    rw [hexpand] at h
    exact ⟨result.1, result.2, rfl, Except.ok.inj h⟩

theorem expand_eq_error_of_outcome {limit : Nat} {e : Expr} {supply : Supply} {failure : Failure}
    (h : outcome limit e supply = .error failure) : expand limit e supply = .error failure := by
  unfold outcome at h
  cases hexpand : expand limit e supply with
  | error failure' =>
    rw [hexpand] at h
    exact congrArg Except.error (Except.error.inj h)
  | ok result =>
    rw [hexpand] at h
    cases h

namespace SelfApplication

/-- `v` applied to itself. -/
def twice (l : Nat) (v : Variable) : Node :=
  .invokeOf (.mk l (.variable v)) [.mk (l + 1) (.variable v)]

/-- A lambda that applies its parameter to itself. -/
def doubling (l : Nat) (v : Variable) : Node := .lambdaOf [v] (.mk (l + 2) (twice l v))

/-- A lambda that gives back its parameter. -/
def identity (l : Nat) (v : Variable) : Node := .lambdaOf [v] (.mk l (.variable v))

/-- A lambda that applies `f` to itself is invoked with another lambda, carried as data. -/
def applied (l : Nat) (f : Variable) (carried : Expr) : Expr :=
  .mk (l + 5) (.invokeOf (.mk (l + 3) (doubling l f)) [.mk (l + 4) (.tree carried)])

theorem made_variable {l : Nat} (v : Variable) {es : List Expr} (hes : Made ⟨l⟩ es) :
    Made ⟨l + 1⟩ (.mk l (.variable v) :: es) :=
  hes.next (.variable v) (by simp [Node.children, Node.payload])

theorem made_identity (l : Nat) (v : Variable) :
    Made ⟨l + 2⟩ [.mk (l + 1) (identity l v), .mk l (.variable v)] :=
  (made_variable v (.start ⟨l⟩)).next (identity l v)
    (by simp [identity, Node.lambdaOf, Node.children, Node.payload])

theorem made_doubling {l : Nat} (v : Variable) {es : List Expr} (hes : Made ⟨l⟩ es) :
    Made ⟨l + 4⟩ (.mk (l + 3) (doubling l v) :: .mk (l + 2) (twice l v) :: .mk (l + 1) (.variable v) ::
      .mk l (.variable v) :: es) := by
  have htwice := (made_variable v (made_variable v hes)).next (twice l v)
    (by simp [twice, Node.invokeOf, Node.children, Node.payload])
  exact htwice.next (doubling l v) (by simp [doubling, Node.lambdaOf, Node.children, Node.payload])

theorem coherent_applied {l : Nat} (f : Variable) {carried : Expr} {es : List Expr}
    (hes : Made ⟨l⟩ (carried :: es)) : (applied l f carried).Coherent ⟨l + 6⟩ := by
  have hcarried := (made_doubling f hes).next (.tree carried)
    (by simp [Node.tree, Node.children, Node.payload])
  have happlied := hcarried.next (.invokeOf (.mk (l + 3) (doubling l f)) [.mk (l + 4) (.tree carried)])
    (by simp [Node.invokeOf, Node.children, Node.payload])
  exact happlied.coherent List.mem_cons_self

def f : Variable := ⟨0, "f", .named "F"⟩

def g : Variable := ⟨1, "g", .named "F"⟩

/-- Other identities, and one name for all variables. -/
def rename (v : Variable) : Variable := { v with id := v.id + 5, name := "p" }

theorem rename_injective {e : Expr} (h : ∀ a ∈ e.within, ∀ v ∈ a.node.vars, v = f ∨ v = g) (v w : Variable)
    (hv : e.Uses v) (hw : e.Uses w) (hvw : rename v = rename w) : v = w := by
  obtain ⟨a, ha, hv⟩ := hv
  obtain ⟨b, hb, hw⟩ := hw
  rcases h a (Expr.mem_within.2 ha) v hv with rfl | rfl <;>
    rcases h b (Expr.mem_within.2 hb) w hw with rfl | rfl <;>
    first | rfl | exact absurd hvw (by decide)

/-- Applied to the carried identity, the lambda gives it back, under the old names and where all
variables have one name. Applied to itself it would bind a parameter again, whatever its name is. -/
theorem expand_renamed_selfApplication :
    (∃ out out' supply₁ supply₁', expand 9 (applied 4 f (.mk 3 (identity 2 g))) ⟨10⟩ = .ok (out, supply₁) ∧
      expand 9 (applied 14 (rename f) (.mk 13 (identity 12 (rename g)))) ⟨20⟩ = .ok (out', supply₁') ∧
      out.stats = { invocationsInlined := 2 } ∧ out'.stats = out.stats ∧
      out'.tree.recast {} = out.tree.recast { var := rename, closure := id }) ∧
    expand 9 (applied 6 f (.mk 5 (doubling 2 g))) ⟨12⟩ = .error (.recursiveBinding "g") ∧
    expand 9 (applied 16 (rename f) (.mk 15 (doubling 12 (rename g)))) ⟨22⟩ =
      .error (.recursiveBinding "p") := by
  have hidentity := expand_renamed rename id (applied 4 f (.mk 3 (identity 2 g)))
    (applied 14 (rename f) (.mk 13 (identity 12 (rename g)))) ⟨10⟩ ⟨20⟩
    (rename_injective (by decide +kernel)) rfl (coherent_applied f (made_identity 2 g))
    (coherent_applied (rename f) (made_identity 12 (rename g))) 9
  have hdoubling := expand_renamed rename id (applied 6 f (.mk 5 (doubling 2 g)))
    (applied 16 (rename f) (.mk 15 (doubling 12 (rename g)))) ⟨12⟩ ⟨22⟩
    (rename_injective (by decide +kernel)) rfl (coherent_applied f (made_doubling g (.start ⟨2⟩)))
    (coherent_applied (rename f) (made_doubling (rename g) (.start ⟨12⟩))) 9
  obtain ⟨found, supply₁, hfound, hinlined⟩ := exists_result_of_outcome
    (show outcome 9 (applied 4 f (.mk 3 (identity 2 g))) ⟨10⟩ = .ok { invocationsInlined := 2 } by
      decide +kernel)
  have hagain := expand_eq_error_of_outcome
    (show outcome 9 (applied 6 f (.mk 5 (doubling 2 g))) ⟨12⟩ = .error (.recursiveBinding "g") by
      decide +kernel)
  constructor
  · obtain ⟨out, out', supply₂, supply₁', hout, hout', hstats, halike⟩ | ⟨_, _, hfails, -⟩ |
      ⟨_, _, hfails, -⟩ := hidentity
    · obtain ⟨rfl, rfl⟩ := Prod.mk.inj (Except.ok.inj (hfound.symm.trans hout))
      exact ⟨found, out', supply₁, supply₁', hfound, hout', hinlined, hstats, halike⟩
    · cases hfound.symm.trans hfails
    · cases hfound.symm.trans hfails
  · obtain ⟨_, _, _, _, hout, -⟩ | ⟨v, -, -, hfails⟩ | ⟨failure, hother, hfails, -⟩ := hdoubling
    · cases hagain.symm.trans hout
    · exact ⟨hagain, hfails⟩
    · exact absurd (Except.error.inj (hagain.symm.trans hfails)).symm (hother "g")

end SelfApplication

end ExprTree
