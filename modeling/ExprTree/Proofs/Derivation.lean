import ExprTree.Proofs.Scopes
import ExprTree.Proofs.Variables

/-!
# Expansion as a relation

`Expands watch n s e out` says that `e` expands to `out` in the scope `s` with `n` levels left, and
that the watch has nothing against it. It has one rule for each action; labels, counters and the
guard do not occur in it, and an expression is only determined by its shape and children. A run that
succeeds on a coherent tree has a derivation (`Expansion.expands_of_yields`), so that what holds of
every derivation holds of every run.

A property of single expressions that does not depend on labels and children passes from a tree and
the replacements in scope to the result (`Expands.everywhere`).
-/

namespace ExprTree

/-! ## Where the parts of an action come from -/

theorem Member.capturedTree?_eq_some {member : Member} {object : Option Expr} {tree : Expr}
    (h : member.capturedTree? object = some tree) :
    ∃ o c ty, object = some o ∧ o.node = .constant (.closure c) ty ∧ tree ∈ c.trees := by
  -- the definition is a chain of steps that must all succeed
  obtain ⟨⟨c, t⟩, hfound, hnamed⟩ := Option.bind_eq_some_iff.1 h
  obtain ⟨-, -, htree⟩ := Option.bind_eq_some_iff.1 hnamed
  obtain ⟨-, -, hfound⟩ := Option.bind_eq_some_iff.1 hfound
  obtain ⟨o, ho, hfound⟩ := Option.bind_eq_some_iff.1 hfound
  obtain ⟨c', hc', hfound⟩ := Option.bind_eq_some_iff.1 hfound
  obtain ⟨v, hv, hfound⟩ := Option.bind_eq_some_iff.1 hfound
  obtain ⟨t', ht', hheld⟩ := Option.bind_eq_some_iff.1 hfound
  obtain ⟨rfl, rfl⟩ : c' = c ∧ t' = t := by simpa using hheld
  obtain rfl : t' = tree := by simpa using htree
  have hclosure : ∃ ty, o.node = .constant (.closure c') ty := by
    unfold Expr.closure? at hc'
    split at hc'
    · next ty hnode =>
      cases hc'
      exact ⟨ty, hnode⟩
    · cases hc'
  have hvalue : v = .tree t' := by
    cases v <;> cases ht'
    rfl
  obtain ⟨ty, hnode⟩ := hclosure
  refine ⟨o, c', ty, ho, hnode, ?_⟩
  obtain ⟨f, hf, rfl⟩ := Option.map_eq_some_iff.1 hv
  refine List.mem_flatMap.2 ⟨f, List.mem_of_find?_eq_some hf, ?_⟩
  rw [hvalue, Value.trees_tree]
  exact List.mem_singleton_self t'

/-- A captured tree stands in a closure that the object refers to. -/
theorem Member.captured_of_capturedTree? {member : Member} {object : Option Expr} {tree : Expr}
    (h : member.capturedTree? object = some tree) :
    ∃ o, object = some o ∧ tree ∈ o.node.captured := by
  obtain ⟨o, c, ty, ho, hnode, htree⟩ := capturedTree?_eq_some h
  refine ⟨o, ho, ?_⟩
  rw [hnode]
  exact htree

/-- Nodes that must not be left by an expansion: invocations, the marker calls that invoke or mark a
query, and nodes of unknown kind. -/
def Node.isForeign : Node → Bool
  | .invocation .. | .extension .. => true
  | .call _ method _ => method.marker == some .invoke || method.marker == some .asExpandable
  | _ => false

/-- The actions of nodes, one rule for each way to come to one. -/
inductive Node.Acts : Node → Action → Prop
  | look (v : Variable) : Acts (.variable v) (.look v)
  | pass (value : Value) (ty : Ty) : Acts (.constant value ty) .pass
  | invocation (target : Expr) (args : List Expr) (ty : Ty) :
      Acts (.invocation target args ty) (.inline target args)
  | invoke (object : Option Expr) {method : Method} (target : Expr) (args : List Expr) :
      method.marker = some .invoke →
      Acts (.call object method (target :: args)) (.inline target args)
  | read {object : Option Expr} {member : Member} {tree : Expr} :
      member.capturedTree? object = some tree →
      Acts (.memberAccess object member) (.capture false tree)
  | compiled {object : Expr} {method : Method} (args : List Expr) {inner : Option Expr}
      {member : Member} {tree : Expr} :
      object.node = .memberAccess inner member → member.capturedTree? inner = some tree →
      Acts (.call (some object) method args) (.capture true tree)
  | unwrap (object : Option Expr) {method : Method} (query : Expr) :
      method.marker = some .asExpandable → Acts (.call object method [query]) (.unwrap query)
  | descend {n : Node} : n.isForeign = false → n.kind ≠ .variable → n.kind ≠ .constant →
      (∀ object member, n = .memberAccess object member → member.capturedTree? object = none) →
      Acts n .descend
  | fail {n : Node} (failure : Failure) : n.isForeign = true → Acts n (.fail failure)

theorem Node.acts (n : Node) : n.Acts n.action := by
  cases n with
  | «variable» v => exact .look v
  | constant value ty => exact .pass value ty
  | invocation target args ty => exact .invocation target args ty
  | extension kind ty => exact .fail _ rfl
  | memberAccess object member =>
    simp only [Node.action]
    split
    · next hread => exact .read hread
    · next hread =>
      refine .descend rfl (by simp [kind]) (by simp [kind]) ?_
      rintro _ _ ⟨⟩
      exact hread
  | call object method args =>
    have hdescend : (Node.call object method args).isForeign = false →
        (Node.call object method args).Acts .descend :=
      fun hplain => .descend hplain (by simp [kind]) (by simp [kind]) (by simp)
    simp only [Node.action]
    split
    · next hmarker =>
      split
      · exact .invoke object _ _ hmarker
      · exact .fail _ (by simp [isForeign, hmarker])
    · next hmarker =>
      split
      · exact .unwrap object _ hmarker
      · exact .fail _ (by simp [isForeign, hmarker])
    · next hmarker =>
      have hplain : (Node.call object method args).isForeign = false := by
        simp [isForeign, hmarker]
      split
      · next hobject =>
        obtain ⟨o, rfl, hnode⟩ := Option.map_eq_some_iff.1 hobject
        split
        · next hread => exact .compiled args hnode hread
        · exact hdescend hplain
      · exact hdescend hplain
    · next hmarker => exact hdescend (by simp [isForeign, hmarker])
  | _ => exact .descend rfl (by simp [kind]) (by simp [kind]) (by simp)

/-- The outermost layers of nodes, one rule for each way to come to one. -/
inductive Node.Layered : Node → Layer → Prop
  | lambda (params : List Variable) (body : Expr) (ty : Ty) :
      Layered (.lambda params body ty) (.lambda params body)
  | var (v : Variable) : Layered (.variable v) (.var v)
  | read {object : Option Expr} {member : Member} {tree : Expr} :
      member.capturedTree? object = some tree →
      Layered (.memberAccess object member) (.around Stats.resolved tree)
  | compile (object : Expr) (method : Method) (args : List Expr) :
      Layered (.call (some object) method args) (.around Stats.unwrapped object)
  | tree (tree : Expr) (ty : Ty) : Layered (.constant (.tree tree) ty) (.around id tree)
  | quote (operand : Expr) (ty : Ty) (method : Option Method) :
      Layered (.unary .quote operand ty method) (.around id operand)
  | blocked {n : Node} (failure : Failure) : Layered n (.blocked failure)

theorem Node.layered (n : Node) : n.Layered n.layer := by
  cases n with
  | lambda params body ty => exact .lambda params body ty
  | «variable» v => exact .var v
  | memberAccess object member =>
    simp only [Node.layer]
    split
    · exact .read ‹_›
    · exact .blocked _
  | call object method args =>
    simp only [Node.layer]
    split
    · split
      · exact .compile _ method args
      · exact .blocked _
    · exact .blocked _
  | constant value ty =>
    cases value with
    | tree t => exact .tree t ty
    | _ => exact .blocked _
  | unary op operand ty method =>
    cases op with
    | quote => exact .quote operand ty method
    | _ => exact .blocked _
  | _ => exact .blocked _

namespace Expr

variable {e : Expr}

theorem acts_of_action {e : Expr} {a : Action} (h : e.node.action = a) : e.node.Acts a :=
  h ▸ e.node.acts

theorem layered_of_layer {layer : Layer} (h : e.node.layer = layer) : e.node.Layered layer :=
  h ▸ e.node.layered

/-- A tree in a closure stands within the expression that refers to the closure. -/
theorem within_of_captured {o tree : Expr} (ho : o.Within e) (htree : tree ∈ o.node.captured) :
    tree.Within e :=
  (within_of_mem_parts (List.mem_append_right _ (Node.mem_payload.2 (.inr htree)))).trans ho

/-- A captured tree comes from a closure within a child. -/
theorem captured_of_capture {compiled : Bool} {tree : Expr}
    (h : e.node.action = .capture compiled tree) :
    ∃ c ∈ e.children, ∃ o : Expr, o.Within c ∧ tree ∈ o.node.captured := by
  obtain ⟨l, n⟩ := e
  cases acts_of_action h with
  | read hread =>
    obtain ⟨o, rfl, htree⟩ := Member.captured_of_capturedTree? hread
    exact ⟨o, List.mem_singleton_self o, o, .here o, htree⟩
  | @compiled object _ args _ _ _ hnode hread =>
    obtain ⟨l', n'⟩ := object
    cases hnode
    obtain ⟨o, rfl, htree⟩ := Member.captured_of_capturedTree? hread
    exact ⟨_, List.mem_cons_self, o, within_of_mem_children (List.mem_singleton_self o), htree⟩

theorem within_child_of_capture {compiled : Bool} {tree : Expr}
    (h : e.node.action = .capture compiled tree) : ∃ c ∈ e.children, tree.Within c := by
  obtain ⟨c, hc, o, ho, htree⟩ := captured_of_capture h
  exact ⟨c, hc, within_of_captured ho htree⟩

theorem within_of_capture {compiled : Bool} {tree : Expr}
    (h : e.node.action = .capture compiled tree) : tree.Within e := by
  obtain ⟨c, hc, htree⟩ := within_child_of_capture h
  exact htree.trans (within_of_mem_children hc)

/-- Only what is walked through binds parameters. -/
theorem params_of_action (h : e.node.action ≠ .descend) : e.node.params = [] := by
  obtain ⟨l, n⟩ := e
  cases n with
  | lambda => exact absurd rfl h
  | _ => rfl

theorem mem_children_of_inline {target : Expr} {args : List Expr}
    (h : e.node.action = .inline target args) :
    target ∈ e.children ∧ ∀ a ∈ args, a ∈ e.children := by
  obtain ⟨l, n⟩ := e
  cases acts_of_action h with
  | invocation => exact ⟨List.mem_cons_self, fun a ha => List.mem_cons_of_mem _ ha⟩
  | invoke =>
    exact ⟨List.mem_append_right _ List.mem_cons_self,
      fun a ha => List.mem_append_right _ (List.mem_cons_of_mem _ ha)⟩

theorem mem_children_of_unwrap {query : Expr} (h : e.node.action = .unwrap query) :
    query ∈ e.children := by
  obtain ⟨l, n⟩ := e
  cases acts_of_action h with
  | unwrap => exact List.mem_append_right _ (List.mem_singleton_self _)

theorem node_of_look {v : Variable} (h : e.node.action = .look v) : e.node = .variable v := by
  obtain ⟨l, n⟩ := e
  cases acts_of_action h with
  | look => rfl

theorem node_of_pass (h : e.node.action = .pass) : ∃ value ty, e.node = .constant value ty := by
  obtain ⟨l, n⟩ := e
  cases acts_of_action h with
  | pass value ty => exact ⟨value, ty, rfl⟩

theorem plain_of_descend (h : e.node.action = .descend) :
    e.node.isForeign = false ∧ e.node.kind ≠ .variable ∧ e.node.kind ≠ .constant := by
  obtain ⟨l, n⟩ := e
  cases acts_of_action h with
  | descend hforeign hvariable hconstant _ => exact ⟨hforeign, hvariable, hconstant⟩

theorem no_read_of_descend (h : e.node.action = .descend) {object : Option Expr} {member : Member}
    (hnode : e.node = .memberAccess object member) : member.capturedTree? object = none := by
  obtain ⟨l, n⟩ := e
  cases acts_of_action h with
  | descend _ _ _ hread => exact hread object member hnode

theorem kind_of_descend (h : e.node.action = .descend) : e.node.kind ≠ .invocation := by
  intro hkind
  have hforeign := (plain_of_descend h).1
  obtain ⟨l, n⟩ := e
  cases n <;> simp_all [Node.kind, Node.isForeign]

/-- The inner target of a layer is a child, a tree carried as data, or a captured tree. -/
theorem origin_of_layer {count : Stats → Stats} {inner : Expr}
    (h : e.node.layer = .around count inner) : e.node.params = [] ∧
      (inner ∈ e.children ∨ inner ∈ e.node.quoted ∨
        ∃ o : Expr, o.Within e ∧ inner ∈ o.node.captured) := by
  obtain ⟨l, n⟩ := e
  cases layered_of_layer h with
  | read hread =>
    obtain ⟨o, rfl, htree⟩ := Member.captured_of_capturedTree? hread
    refine ⟨rfl, .inr (.inr ⟨o, ?_, htree⟩)⟩
    exact .part (mem_parts_of_mem_children (List.mem_singleton_self o)) (.here o)
  | compile => exact ⟨rfl, .inl List.mem_cons_self⟩
  | tree => exact ⟨rfl, .inr (.inl (List.mem_singleton_self _))⟩
  | quote => exact ⟨rfl, .inl (List.mem_singleton_self _)⟩

theorem within_of_layer {count : Stats → Stats} {inner : Expr}
    (h : e.node.layer = .around count inner) : inner.Within e := by
  obtain ⟨-, hchild | hquoted | ⟨o, ho, htree⟩⟩ := origin_of_layer h
  · exact .part (mem_parts_of_mem_children hchild) (.here inner)
  · exact .part (List.mem_append_right _ (Node.mem_payload.2 (.inl hquoted))) (.here inner)
  · exact within_of_captured ho htree

theorem node_of_layer_lambda {params : List Variable} {body : Expr}
    (h : e.node.layer = .lambda params body) : ∃ ty, e.node = .lambda params body ty := by
  obtain ⟨l, n⟩ := e
  cases layered_of_layer h with
  | lambda _ _ ty => exact ⟨ty, rfl⟩

theorem node_of_layer_var {v : Variable} (h : e.node.layer = .var v) : e.node = .variable v := by
  obtain ⟨l, n⟩ := e
  cases layered_of_layer h with
  | var => rfl

end Expr

/-! ## Derivations -/

/-- The target leads to the lambda with these parameters and this body. -/
inductive Peels (watch : Watch) (scope : Scope) : Nat → Expr → List Variable → Expr → Prop
  | lambda {n : Nat} {target body : Expr} {params : List Variable} :
      target.node.layer = .lambda params body → Peels watch scope (n + 1) target params body
  | var {n : Nat} {target replacement body : Expr} {params : List Variable} {v : Variable} :
      target.node.layer = .var v → scope.lookup? v = some replacement →
      replacement.kind ≠ .variable → watch.opens scope replacement = true →
      Peels watch scope n replacement params body → Peels watch scope (n + 1) target params body
  | around {n : Nat} {target inner body : Expr} {params : List Variable} {count : Stats → Stats} :
      target.node.layer = .around count inner →
      (∀ t ∈ target.node.quoted, watch.unquotes t = true) →
      Peels watch scope n inner params body → Peels watch scope (n + 1) target params body

/-- In the scope, the expression expands to the last argument. -/
inductive Expands (watch : Watch) : Nat → Scope → Expr → Expr → Prop
  | found {n : Nat} {s : Scope} {e replacement : Expr} {v : Variable} :
      e.node.action = .look v → s.lookup? v = some replacement →
      Expands watch (n + 1) s e replacement
  | unbound {n : Nat} {s : Scope} {e : Expr} {v : Variable} :
      e.node.action = .look v → s.lookup? v = none → Expands watch (n + 1) s e e
  | pass {n : Nat} {s : Scope} {e : Expr} :
      e.node.action = .pass → watch.passes s e = true → Expands watch (n + 1) s e e
  | inline {n : Nat} {s inner : Scope} {e target body out : Expr} {args replacements : List Expr}
      {params : List Variable} :
      e.node.action = .inline target args → Peels watch s n target params body →
      params.length = args.length → replacements.length = args.length →
      (∀ p ∈ args.zip replacements, Expands watch n s p.1 p.2) →
      s.extend (params.zip replacements) = .ok inner → Expands watch n inner body out →
      Expands watch (n + 1) s e out
  | capture {n : Nat} {s : Scope} {e tree out : Expr} {compiled : Bool} :
      e.node.action = .capture compiled tree → Expands watch n s tree out →
      Expands watch (n + 1) s e out
  | unwrap {n : Nat} {s : Scope} {e query out : Expr} :
      e.node.action = .unwrap query → Expands watch n s query out → Expands watch (n + 1) s e out
  | descend {n : Nat} {s : Scope} {e out : Expr} :
      e.node.action = .descend → watch.walks s e = true →
      out.node.shape = e.node.shape → out.children.length = e.children.length →
      (∀ p ∈ e.children.zip out.children, Expands watch n s p.1 p.2) →
      Expands watch (n + 1) s e out

/-- What holds everywhere in the target and in the replacements holds everywhere in the lambda. -/
theorem Peels.everywhere {watch : Watch} {s : Scope} {n : Nat} {target body : Expr}
    {params : List Variable} {P : Expr → Prop} (h : Peels watch s n target params body)
    (hscope : ∀ p ∈ s.bindings, p.2.Everywhere P) (htarget : target.Everywhere P) :
    ∃ (lambda : Expr) (ty : Ty), lambda.node = .lambda params body ty ∧ lambda.Everywhere P := by
  induction h with
  | lambda hlayer =>
    obtain ⟨ty, hnode⟩ := Expr.node_of_layer_lambda hlayer
    exact ⟨_, ty, hnode, htarget⟩
  | var _ hlookup _ _ _ ih => exact ih (hscope _ (Scope.mem_bindings_of_lookup? hlookup))
  | around hlayer _ _ ih => exact ih (htarget.within (Expr.within_of_layer hlayer))

theorem Peels.everywhere_body {watch : Watch} {s : Scope} {n : Nat} {target body : Expr}
    {params : List Variable} {P : Expr → Prop} (h : Peels watch s n target params body)
    (hscope : ∀ p ∈ s.bindings, p.2.Everywhere P) (htarget : target.Everywhere P) :
    body.Everywhere P := by
  obtain ⟨lambda, ty, hnode, hlambda⟩ := h.everywhere hscope htarget
  exact hlambda.child (Expr.mem_children_of_lambda hnode)

/-- What holds of the bindings of a scope and of new replacements holds of the extended scope. -/
theorem Scope.forall_bindings_extend {s inner : Scope} {params : List Variable} {rs : List Expr}
    {P : Expr → Prop} (hextend : s.extend (params.zip rs) = .ok inner)
    (hscope : ∀ p ∈ s.bindings, P p.2) (hrs : ∀ r ∈ rs, P r) : ∀ p ∈ inner.bindings, P p.2 := by
  intro p hp
  rw [Scope.bindings_of_extend hextend] at hp
  rcases List.mem_append.1 hp with hp | hp
  · exact hrs _ (List.of_mem_zip hp).2
  · exact hscope p hp

/-- In two lists of one length, every item of the second stands beside one of the first. -/
theorem exists_mem_zip {α β : Type} {xs : List α} {ys : List β} (hlength : ys.length = xs.length)
    {y : β} (hy : y ∈ ys) : ∃ x ∈ xs, (x, y) ∈ xs.zip ys := by
  induction xs generalizing ys with
  | nil =>
    rw [List.eq_nil_of_length_eq_zero hlength] at hy
    cases hy
  | cons x xs ih =>
    cases ys with
    | nil => cases hy
    | cons z zs =>
      rcases List.mem_cons.1 hy with rfl | hy
      · exact ⟨x, by simp, by simp⟩
      · obtain ⟨x', hx', hmem⟩ := ih (Nat.succ.inj hlength) hy
        exact ⟨x', by simp [hx'], by simp [hmem]⟩

/-- In three lists of one length, an item of the first and one of the last stand beside one of the second. -/
theorem exists_between_of_mem_zip {α β γ : Type} {xs : List α} {ys : List β} {zs : List γ}
    (hys : xs.length = ys.length) (hzs : zs.length = ys.length) {p : α × γ} (hp : p ∈ xs.zip zs) :
    ∃ y, (p.1, y) ∈ xs.zip ys ∧ (y, p.2) ∈ ys.zip zs := by
  induction xs generalizing ys zs with
  | nil => cases hp
  | cons x xs ih =>
    obtain ⟨y, ys, rfl⟩ := List.exists_cons_of_length_eq_add_one hys.symm
    obtain ⟨z, zs, rfl⟩ := List.exists_cons_of_length_eq_add_one hzs
    rcases List.mem_cons.1 hp with rfl | hp
    · exact ⟨y, List.mem_cons_self, List.mem_cons_self⟩
    · obtain ⟨w, hleft, hright⟩ := ih (Nat.succ.inj hys) (Nat.succ.inj hzs) hp
      exact ⟨w, List.mem_cons_of_mem _ hleft, List.mem_cons_of_mem _ hright⟩

/-- A property that depends on the shape of an expression only holds everywhere in the result of an
expansion if it holds everywhere in the expression and in the replacements. -/
theorem Expands.everywhere {watch : Watch} {n : Nat} {s : Scope} {e out : Expr} {P : Expr → Prop}
    (hP : ∀ a b : Expr, a.node.shape = b.node.shape → P b → P a) (h : Expands watch n s e out)
    (hscope : ∀ p ∈ s.bindings, p.2.Everywhere P) (he : e.Everywhere P) : out.Everywhere P := by
  induction h with
  | found _ hlookup => exact hscope _ (Scope.mem_bindings_of_lookup? hlookup)
  | unbound => exact he
  | pass => exact he
  | inline haction hpeels _ hlength _ hextend _ ihargs ihbody =>
    obtain ⟨htarget, hargs⟩ := Expr.mem_children_of_inline haction
    refine ihbody (Scope.forall_bindings_extend hextend hscope fun r hr => ?_)
      (hpeels.everywhere_body hscope (he.child htarget))
    obtain ⟨a, ha, hpair⟩ := exists_mem_zip hlength hr
    exact ihargs _ hpair hscope (he.child (hargs a ha))
  | capture haction _ ih => exact ih hscope (he.within (Expr.within_of_capture haction))
  | unwrap haction _ ih => exact ih hscope (he.child (Expr.mem_children_of_unwrap haction))
  | descend _ _ hshape hlength _ ih =>
    refine Expr.everywhere_iff.2 ⟨hP _ _ hshape he.here, fun c hc => ?_⟩
    rcases List.mem_append.1 hc with hc | hc
    · obtain ⟨a, ha, hpair⟩ := exists_mem_zip hlength hc
      exact ih _ hpair hscope (he.child ha)
    · rw [← Node.payload_shape, hshape, Node.payload_shape] at hc
      exact he.part (List.mem_append_right _ hc)

/-! ## From runs to derivations -/

namespace Expansion

open Walk

variable {watch : Watch}

theorem not_yields_tooDeep {α : Type} {a : α} {st st' : WalkState Stats} :
    ¬ (tooDeep : Expansion α).Yields st a st' := by
  intro h
  obtain ⟨_, _, _, hthrow⟩ := yields_bind.1 h
  split at hthrow <;> exact not_yields_throw hthrow

theorem yields_require {condition : Bool} {u : Unit} {st st' : WalkState Stats} :
    (require condition).Yields st u st' ↔ condition = true ∧ st' = st := by
  unfold require
  split
  · next h => simp only [yields_pure, h, true_and]
  · next h =>
    exact ⟨fun hthrow => absurd hthrow not_yields_throw, fun hpass => absurd hpass.1 h⟩

theorem peels_of_yields {scope : Scope} {n : Nat} {target : Expr} {st st' : WalkState Stats}
    {found : List Variable × Expr} (h : (peelUnder watch scope n target).Yields st found st') :
    st'.supply = st.supply ∧ Peels watch scope n target found.1 found.2 := by
  induction n generalizing target st st' with
  | zero => exact absurd h not_yields_tooDeep
  | succ n ih =>
    rw [peelUnder] at h
    obtain ⟨g, st₁, hrun, hsupply, -⟩ := h.of_guarded
    rw [hsupply]
    cases hlayer : target.node.layer with
    | lambda params body =>
      simp only [hlayer] at hrun
      obtain ⟨rfl, rfl⟩ := yields_pure.1 hrun
      exact ⟨rfl, .lambda hlayer⟩
    | var v =>
      simp only [hlayer] at hrun
      split at hrun
      · exact absurd hrun not_yields_throw
      · next replacement hlookup =>
        split at hrun
        · exact absurd hrun not_yields_throw
        · next hvariable =>
          obtain ⟨_, _, hrequire, hrest⟩ := yields_bind.1 hrun
          obtain ⟨hopens, rfl⟩ := yields_require.1 hrequire
          obtain ⟨hsupply, hpeels⟩ := ih hrest
          refine ⟨hsupply, .var hlayer hlookup (fun hkind => ?_) hopens hpeels⟩
          obtain ⟨v', hv'⟩ := Node.eq_variable_of_kind hkind
          exact hvariable v' hv'
    | around count inner =>
      simp only [hlayer] at hrun
      obtain ⟨_, _, hcount, hchecked⟩ := yields_bind.1 hrun
      obtain rfl := yields_modifyOwn.1 hcount
      obtain ⟨_, _, hrequire, hrest⟩ := yields_bind.1 hchecked
      obtain ⟨hunquotes, rfl⟩ := yields_require.1 hrequire
      obtain ⟨hsupply, hpeels⟩ := ih hrest
      exact ⟨hsupply, .around hlayer (List.all_eq_true.1 hunquotes) hpeels⟩
    | blocked failure =>
      simp only [hlayer] at hrun
      exact absurd hrun not_yields_throw

/-- What a visit that succeeds has done, its guard aside. -/
inductive Visited (watch : Watch) (n : Nat) (s : Scope) (e : Expr) (st : WalkState Stats) :
    Expr → WalkState Stats → Prop
  | look {v : Variable} : e.node.action = .look v → Visited watch n s e st ((s.lookup? v).getD e) st
  | pass : e.node.action = .pass → watch.passes s e = true → Visited watch n s e st e st
  | inline {target body out : Expr} {args replacements : List Expr} {params : List Variable}
      {inner : Scope} {st₁ st₂ st' : WalkState Stats} :
      e.node.action = .inline target args →
      (peelUnder watch s n target).Yields st (params, body) st₁ → params.length = args.length →
      (each (expandUnder watch asWritten n s) args).Yields st₁ replacements st₂ →
      s.extend (params.zip replacements) = .ok inner →
      (expandUnder watch asWritten n inner body).Yields { st₂ with own := st₂.own.inlined } out st' →
      Visited watch n s e st out st'
  | capture {compiled : Bool} {tree out : Expr} {st' : WalkState Stats} :
      e.node.action = .capture compiled tree →
      (expandUnder watch asWritten n s tree).Yields
        { st with own := (if compiled then Stats.resolved ∘ Stats.unwrapped else Stats.resolved) st.own }
        out st' →
      Visited watch n s e st out st'
  | unwrap {query out : Expr} {st' : WalkState Stats} :
      e.node.action = .unwrap query →
      (expandUnder watch asWritten n s query).Yields { st with own := st.own.unwrapped } out st' →
      Visited watch n s e st out st'
  | descend {out : Expr} {st' : WalkState Stats} :
      e.node.action = .descend → watch.walks s e = true →
      (Walk.children e fun c _ => expandUnder watch asWritten n s c).Yields st out st' →
      Visited watch n s e st out st'

theorem visited_of_yields {n : Nat} {s : Scope} {e out : Expr} {st st' : WalkState Stats}
    (h : (expandUnder watch asWritten (n + 1) s e).Yields st out st') :
    ∃ g st₁, Visited watch n s e { st with guard := g } out st₁ ∧ st'.supply = st₁.supply ∧
      st'.own = st₁.own := by
  rw [expandUnder] at h
  -- the guard only decides whether there is a run at all
  obtain ⟨g, st₁, hrun, hsupply, hown⟩ := h.of_guarded
  refine ⟨g, st₁, ?_, hsupply, hown⟩
  cases haction : e.node.action with
  | look v =>
    simp only [haction] at hrun
    obtain ⟨rfl, rfl⟩ := yields_pure.1 hrun
    exact .look haction
  | pass =>
    simp only [haction] at hrun
    obtain ⟨_, _, hrequire, hrest⟩ := yields_bind.1 hrun
    obtain ⟨hpasses, rfl⟩ := yields_require.1 hrequire
    obtain ⟨rfl, rfl⟩ := yields_pure.1 hrest
    exact .pass haction hpasses
  | inline target args =>
    simp only [haction] at hrun
    obtain ⟨⟨params, body⟩, st₂, hpeel, hrest⟩ := yields_bind.1 hrun
    simp only at hrest
    split at hrest
    · obtain ⟨_, _, hthrow, -⟩ := yields_bind.1 hrest
      exact absurd hthrow not_yields_throw
    · next harity =>
      obtain ⟨replacements, st₃, hargs, hprepared⟩ := yields_bind.1 hrest
      obtain ⟨_, _, hprepare, hbound⟩ := yields_bind.1 hprepared
      obtain ⟨rfl, rfl⟩ := yields_pure.1 hprepare
      obtain ⟨inner, _, hlift, hcounted⟩ := yields_bind.1 hbound
      obtain ⟨hextend, rfl⟩ := yields_liftM.1 hlift
      obtain ⟨_, _, hcount, hbody⟩ := yields_bind.1 hcounted
      obtain rfl := yields_modifyOwn.1 hcount
      exact .inline haction hpeel (Decidable.not_not.1 harity) hargs hextend hbody
  | capture compiled tree =>
    simp only [haction] at hrun
    obtain ⟨_, _, hcount, hrest⟩ := yields_bind.1 hrun
    obtain rfl := yields_modifyOwn.1 hcount
    exact .capture haction hrest
  | unwrap query =>
    simp only [haction] at hrun
    obtain ⟨_, _, hcount, hrest⟩ := yields_bind.1 hrun
    obtain rfl := yields_modifyOwn.1 hcount
    exact .unwrap haction hrest
  | descend =>
    simp only [haction] at hrun
    obtain ⟨_, _, hrequire, hrest⟩ := yields_bind.1 hrun
    obtain ⟨hwalks, rfl⟩ := yields_require.1 hrequire
    exact .descend haction hwalks hrest
  | fail failure =>
    simp only [haction] at hrun
    exact absurd hrun not_yields_throw

/-- What one expansion of an expression does: it gives a held expression, in a heap that has grown,
and it has a derivation. -/
def Derives (watch : Watch) (n : Nat) (s : Scope) (e : Expr) : Prop :=
  ∀ {h : Heap} {st st' : WalkState Stats} {out : Expr}, h.Holds e →
    (∀ p ∈ s.bindings, h.Holds p.2) → (expandUnder watch asWritten n s e).Yields st out st' →
    st.supply.next = h.next →
    ∃ h', h ≤ h' ∧ st'.supply.next = h'.next ∧ h'.Holds out ∧ Expands watch n s e out

/-- The expressions of a list are expanded one after the other, in growing heaps. -/
theorem derives_each {n : Nat} {s : Scope} (hder : ∀ e, Derives watch n s e)
    {xs ys : List Expr} {h : Heap} {st st' : WalkState Stats} (hxs : ∀ x ∈ xs, h.Holds x)
    (hscope : ∀ p ∈ s.bindings, h.Holds p.2)
    (hrun : (each (expandUnder watch asWritten n s) xs).Yields st ys st')
    (hnext : st.supply.next = h.next) :
    ∃ h', h ≤ h' ∧ st'.supply.next = h'.next ∧ (∀ y ∈ ys, h'.Holds y) ∧
      ∀ p ∈ xs.zip ys, Expands watch n s p.1 p.2 := by
  induction xs generalizing ys h st with
  | nil =>
    obtain ⟨rfl, rfl⟩ := yields_each_nil.1 hrun
    exact ⟨h, h.le_refl, hnext, by simp, by simp⟩
  | cons x xs ih =>
    obtain ⟨y, st₁, ys, hy, hys, rfl⟩ := yields_each_cons.1 hrun
    obtain ⟨h₁, hle₁, hnext₁, hheld, hexpands⟩ := hder x (hxs x (by simp)) hscope hy hnext
    obtain ⟨h₂, hle₂, hnext₂, hhelds, hexpandss⟩ :=
      ih (fun x hx => (hxs x (by simp [hx])).mono hle₁) (fun p hp => (hscope p hp).mono hle₁)
        hys hnext₁
    refine ⟨h₂, Heap.le_trans hle₁ hle₂, hnext₂, ?_, ?_⟩
    · intro z hz
      rcases List.mem_cons.1 hz with rfl | hz
      · exact hheld.mono hle₂
      · exact hhelds z hz
    · intro p hp
      rcases List.mem_cons.1 hp with rfl | hp
      · exact hexpands
      · exact hexpandss p hp

/-- An invocation is inlined: the arguments are expanded in the outer scope, and then the body in the
scope that binds their results. -/
theorem derives_inline {n : Nat} (hder : ∀ s e, Derives watch n s e) {s inner : Scope}
    {e target body out : Expr} {args replacements : List Expr} {params : List Variable} {h : Heap}
    {st st₁ st₂ st' : WalkState Stats} (haction : e.node.action = .inline target args)
    (he : h.Holds e) (hscope : ∀ p ∈ s.bindings, h.Holds p.2)
    (hpeels : Peels watch s n target params body) (harity : params.length = args.length)
    (hargs : (each (expandUnder watch asWritten n s) args).Yields st replacements st₁)
    (hnext : st.supply.next = h.next) (hextend : s.extend (params.zip replacements) = .ok inner)
    (hbody : (expandUnder watch asWritten n inner body).Yields st₂ out st')
    (hsupply : st₂.supply = st₁.supply) :
    ∃ h', h ≤ h' ∧ st'.supply.next = h'.next ∧ h'.Holds out ∧ Expands watch (n + 1) s e out := by
  obtain ⟨htarget, hmem⟩ := Expr.mem_children_of_inline haction
  obtain ⟨h₁, hle₁, hnext₁, hhelds, hexpands⟩ :=
    derives_each (hder s) (fun a ha => he.child (hmem a ha)) hscope hargs hnext
  have hscope₁ :=
    Scope.forall_bindings_extend hextend (fun p hp => (hscope p hp).mono hle₁) hhelds
  have hheld : h.Holds body := hpeels.everywhere_body hscope (he.child htarget)
  obtain ⟨h₂, hle₂, hnext₂, hheld, hexpand⟩ :=
    hder inner body (hheld.mono hle₁) hscope₁ hbody (hsupply ▸ hnext₁)
  exact ⟨h₂, Heap.le_trans hle₁ hle₂, hnext₂, hheld,
    .inline haction hpeels harity (Yields.length_eq hargs) hexpands hextend hexpand⟩

/-- The children are expanded, and the node is put together again. -/
theorem derives_descend {n : Nat} {s : Scope} (hder : ∀ e, Derives watch n s e) {e out : Expr}
    {h : Heap} {st st' : WalkState Stats} (haction : e.node.action = .descend)
    (hwalks : watch.walks s e = true) (he : h.Holds e) (hscope : ∀ p ∈ s.bindings, h.Holds p.2)
    (hrun : (Walk.children e fun c _ => expandUnder watch asWritten n s c).Yields st out st')
    (hnext : st.supply.next = h.next) :
    ∃ h', h ≤ h' ∧ st'.supply.next = h'.next ∧ h'.Holds out ∧ Expands watch (n + 1) s e out := by
  obtain ⟨n', st₁, heach, -, -⟩ := hrun.of_children
  have hvisit : ∀ c ∈ e.node.visitOrder, h.Holds c := fun c hc => he.child (Node.mem_visitOrder.1 hc)
  obtain ⟨h₁, hle₁, hnext₁, hhelds, hexpands⟩ := derives_each hder hvisit hscope heach hnext
  obtain ⟨out', st₂, h₂, hwalk, hle₂, hheld, hnext₂, -, -, hshape, horder⟩ :=
    Yields.children (he.mono hle₁) hhelds hnext₁ heach
  obtain ⟨rfl, rfl⟩ := hrun.unique hwalk
  -- only invocations are visited in another order
  rw [Node.visitOrder_eq_children (Expr.kind_of_descend haction)] at heach hexpands
  have hchildren : out.node.visitOrder = out.children :=
    Node.visitOrder_eq_children (Node.kind_eq_of_shape hshape ▸ Expr.kind_of_descend haction)
  rw [← horder, hchildren] at hexpands heach
  exact ⟨h₂, Heap.le_trans hle₁ hle₂, hnext₂, hheld,
    .descend haction hwalks hshape (Yields.length_eq heach) hexpands⟩

/-- A run that succeeds on a held expression gives a held one and has a derivation. -/
theorem expands_of_yields (n : Nat) (s : Scope) (e : Expr) : Derives watch n s e := by
  induction n generalizing s e with
  | zero => exact fun _ _ hrun => absurd hrun not_yields_tooDeep
  | succ n ih =>
    intro h st st' out he hscope hrun hnext
    obtain ⟨g, st₁, hvisited, hsupply, -⟩ := visited_of_yields hrun
    rw [hsupply]
    cases hvisited with
    | @look v haction =>
      cases hlookup : s.lookup? v with
      | none => exact ⟨h, h.le_refl, hnext, he, .unbound haction hlookup⟩
      | some r =>
        exact ⟨h, h.le_refl, hnext, hscope _ (Scope.mem_bindings_of_lookup? hlookup),
          .found haction hlookup⟩
    | pass haction hpasses => exact ⟨h, h.le_refl, hnext, he, .pass haction hpasses⟩
    | inline haction hpeel harity hargs hextend hbody =>
      obtain ⟨hsupply, hpeels⟩ := peels_of_yields hpeel
      exact derives_inline ih haction he hscope hpeels harity hargs
        ((congrArg Supply.next hsupply).trans hnext) hextend hbody rfl
    | capture haction hrest =>
      obtain ⟨h', hle, hnext', hheld, hexpands⟩ :=
        ih s _ (he.within (Expr.within_of_capture haction)) hscope hrest hnext
      exact ⟨h', hle, hnext', hheld, .capture haction hexpands⟩
    | unwrap haction hrest =>
      obtain ⟨h', hle, hnext', hheld, hexpands⟩ :=
        ih s _ (he.child (Expr.mem_children_of_unwrap haction)) hscope hrest hnext
      exact ⟨h', hle, hnext', hheld, .unwrap haction hexpands⟩
    | descend haction hwalks hrest =>
      exact derives_descend (ih s) haction hwalks he hscope hrest hnext

end Expansion

/-- A successful expansion is a run in the empty scope. -/
theorem expandWith_eq_ok_iff {watch : Watch} {prepare : Preparation} {limit : Nat} {e : Expr}
    {supply supply' : Supply} {r : Expanded} :
    expandWith watch prepare limit e supply = .ok (r, supply') ↔
      ∃ guard, (Expansion.expandUnder watch prepare limit .root e).Yields
        { supply, guard := some { limit }, own := {} } r.tree
        { supply := supply', guard, own := r.stats } := by
  obtain ⟨tree, stats⟩ := r
  unfold expandWith Walk.Yields
  rcases Expansion.expandUnder watch prepare limit .root e _ with
    ⟨_ | out, ⟨supply₁, guard₁, own₁⟩⟩
  · constructor
    · intro h
      cases h
    · rintro ⟨_, h⟩
      cases h
  · constructor
    · intro h
      cases h
      exact ⟨guard₁, rfl⟩
    · rintro ⟨_, h⟩
      cases h
      rfl

theorem expandWith_eq_error_iff {watch : Watch} {prepare : Preparation} {limit : Nat} {e : Expr}
    {supply : Supply} {failure : Failure} :
    expandWith watch prepare limit e supply = .error failure ↔
      (Expansion.expandUnder watch prepare limit .root e).Fails
        { supply, guard := some { limit }, own := {} } failure := by
  unfold expandWith Walk.Fails
  rcases Expansion.expandUnder watch prepare limit .root e _ with ⟨failure' | tree, st⟩
  · constructor
    · intro h
      cases h
      exact ⟨st, rfl⟩
    · rintro ⟨_, h⟩
      cases h
      rfl
  · constructor
    · intro h
      cases h
    · rintro ⟨_, h⟩
      cases h

/-- A successful expansion of a coherent tree gives a coherent tree and has a derivation. -/
theorem expands_of_expandWith {watch : Watch} {limit : Nat} {e : Expr} {supply supply' : Supply}
    {r : Expanded} (he : e.Coherent supply)
    (h : expandWith watch Expansion.asWritten limit e supply = .ok (r, supply')) :
    r.tree.Coherent supply' ∧ Expands watch limit .root e r.tree := by
  obtain ⟨guard, hrun⟩ := expandWith_eq_ok_iff.1 h
  obtain ⟨heap, hnext, hheld⟩ := he.exists_heap
  obtain ⟨heap', -, hnext', hheld', hexpands⟩ :=
    Expansion.expands_of_yields limit .root e hheld (by simp [Scope.root, Scope.bindings]) hrun
      hnext.symm
  refine ⟨?_, hexpands⟩
  have hcoherent := hheld'.coherent
  rwa [← hnext'] at hcoherent

theorem expands_of_expand {limit : Nat} {e : Expr} {supply supply' : Supply} {r : Expanded}
    (he : e.Coherent supply) (h : expand limit e supply = .ok (r, supply')) :
    r.tree.Coherent supply' ∧ Expands .idle limit .root e r.tree := by
  rw [← expandWith_idle] at h
  exact expands_of_expandWith he h

/-! ## Watched runs -/

namespace Walk

variable {σ α β : Type}

/-- Whenever `x` succeeds, `y` does the same. -/
def Refines (x y : Walk σ α) : Prop :=
  ∀ st a st', x.Yields st a st' → y.Yields st a st'

theorem Refines.refl (x : Walk σ α) : x.Refines x := fun _ _ _ => id

theorem Refines.bind {x y : Walk σ α} {f g : α → Walk σ β} (hx : x.Refines y)
    (hf : ∀ a, (f a).Refines (g a)) : (x >>= f).Refines (y >>= g) := by
  intro st b st' h
  obtain ⟨a, st₁, ha, hb⟩ := yields_bind.1 h
  exact yields_bind.2 ⟨a, st₁, hx _ _ _ ha, hf a _ _ _ hb⟩

theorem Refines.guarded {x y : Walk σ α} (h : x.Refines y) :
    (Walk.guarded x).Refines (Walk.guarded y) := by
  intro st a st' hrun
  simp only [Yields, Walk.guarded] at hrun ⊢
  split at hrun
  · exact h _ _ _ hrun
  · split at hrun
    · cases hrun
    · next g g' henter =>
      rcases hx : x { st with guard := some g' } with ⟨_ | b, st₁⟩ <;> rw [hx] at hrun
      · cases hrun
      · have hy : y { st with guard := some g' } = (.ok b, st₁) := h _ _ _ hx
        rw [hy]
        exact hrun

theorem Refines.each {f g : α → Walk σ β} (hf : ∀ a, (f a).Refines (g a)) (xs : List α) :
    (Walk.each f xs).Refines (Walk.each g xs) := by
  induction xs with
  | nil => exact Refines.refl _
  | cons x xs ih => exact (hf x).bind fun b => ih.bind fun bs => Refines.refl _

theorem Refines.children {f g : Expr → Walk σ Expr} (hf : ∀ c, (f c).Refines (g c)) (e : Expr) :
    (Walk.children e fun c _ => f c).Refines (Walk.children e fun c _ => g c) := by
  refine Refines.bind ?_ fun _ => Refines.refl _
  intro st n st' h
  obtain ⟨hshape, hvisits⟩ := Node.shape_of_traverse h
  obtain ⟨n', hn', horder⟩ := Node.exists_traverse (Refines.each hf _ _ _ _ hvisits)
  obtain rfl : n' = n := Node.eq_of_shape ((Node.shape_of_traverse hn').1.trans hshape.symm) horder
  exact hn'

end Walk

namespace Expansion

open Walk

theorem refines_require {condition condition' : Bool} (h : condition' = true) :
    (require condition).Refines (require condition') := by
  intro st u st' hrun
  obtain ⟨-, rfl⟩ := yields_require.1 hrun
  exact yields_require.2 ⟨h, rfl⟩

theorem peelUnder_refines (watch : Watch) (s : Scope) (n : Nat) (target : Expr) :
    (peelUnder watch s n target).Refines (peelUnder .idle s n target) := by
  induction n generalizing target with
  | zero => exact Refines.refl _
  | succ n ih =>
    rw [peelUnder, peelUnder]
    refine Refines.guarded ?_
    split
    · exact Refines.refl _
    · split
      · exact Refines.refl _
      · split
        · exact Refines.refl _
        · exact (refines_require rfl).bind fun _ => ih _
    · refine (Refines.refl _).bind fun _ => (refines_require ?_).bind fun _ => ih _
      exact List.all_eq_true.2 fun _ _ => rfl
    · exact Refines.refl _

/-- A watch only stops a run. -/
theorem expandUnder_refines (watch : Watch) (prepare : Preparation) (n : Nat) (s : Scope)
    (e : Expr) : (expandUnder watch prepare n s e).Refines (expandUnder .idle prepare n s e) := by
  induction n generalizing s e with
  | zero => exact Refines.refl _
  | succ n ih =>
    rw [expandUnder, expandUnder]
    refine Refines.guarded ?_
    split
    · exact Refines.refl _
    · exact (refines_require rfl).bind fun _ => Refines.refl _
    · refine (peelUnder_refines watch s n _).bind fun found => ?_
      simp only
      split
      · intro st out st' h
        obtain ⟨_, _, hthrow, -⟩ := yields_bind.1 h
        exact absurd hthrow not_yields_throw
      · refine (Refines.each (ih s) _).bind fun _ => (Refines.refl _).bind fun _ => ?_
        exact (Refines.refl _).bind fun inner => (Refines.refl _).bind fun _ => ih inner _
    · exact (Refines.refl _).bind fun _ => ih s _
    · exact (Refines.refl _).bind fun _ => ih s _
    · exact (refines_require rfl).bind fun _ => Refines.children (ih s) e
    · exact Refines.refl _

end Expansion

/-- A watched expansion that succeeds is the expansion. -/
theorem expand_of_expandWith {watch : Watch} {limit : Nat} {e : Expr} {supply supply' : Supply}
    {r : Expanded} (h : expandWith watch Expansion.asWritten limit e supply = .ok (r, supply')) :
    expand limit e supply = .ok (r, supply') := by
  obtain ⟨guard, hrun⟩ := expandWith_eq_ok_iff.1 h
  rw [← expandWith_idle]
  exact expandWith_eq_ok_iff.2 ⟨guard, Expansion.expandUnder_refines _ _ _ _ _ _ _ _ hrun⟩

/-- If a watched expansion succeeds, it gives what the expansion gives. -/
theorem expandWith_eq_of_isOk {watch : Watch} {limit : Nat} {e : Expr} {supply supply' : Supply}
    {r : Expanded} (hexpand : expand limit e supply = .ok (r, supply'))
    (h : (expandWith watch Expansion.asWritten limit e supply).isOk = true) :
    expandWith watch Expansion.asWritten limit e supply = .ok (r, supply') := by
  cases hwatched : expandWith watch Expansion.asWritten limit e supply with
  | ok found => exact congrArg _ (Except.ok.inj ((expand_of_expandWith hwatched).symm.trans hexpand))
  | error failure =>
    rw [hwatched] at h
    cases h

end ExprTree
