import ExprTree.Proofs.Hygiene
import ExprTree.Proofs.Stratified

/-!
# Sources whose expansion is hygienic

The tree of a source binds every parameter once, so two binders of one identity can meet only where a
lambda that was bound to a parameter is opened a second time. In a stratified tree no lambda stands in the
body of such a lambda, so that opening it walks under no binder, and nothing is confused.

`Placed` is the invariant of the proof. The variables `under` are those of the lambdas that are walked under:
what is bound in the scope refers to them and to top-level variables only, they are bound nowhere below, and
the scope binds none of them.
-/

namespace ExprTree

/-! ## Walks through inert trees -/

/-- An inert tree without lambdas expands without confusing identities, to a tree as shallow as what replaces
its variables. -/
theorem Expands.apart_of_inert {n k : Nat} {s : Scope} {e out : Expr} {F : Variable → Prop}
    (h : Expands .idle n s e out) (hinert : e.Inert) (hflat : e.lambdaDepth = 0)
    (hfound : ∀ v r, v ∈ e.freeVars → s.lookup? v = some r → r.Shallow k ∧ ∀ u ∈ r.freeVars, F u)
    (hfree : ∀ v ∈ e.freeVars, v ∈ s.params ∨ F v) :
    Expands .apart n s e out ∧ out.Shallow k ∧ ∀ v ∈ out.freeVars, F v := by
  induction h with
  | @found _ _ e _ v haction hlookup =>
    have hnode := Expr.node_of_look haction
    have hfree : v ∈ e.freeVars := Expr.mem_freeVars.2 (.inl (Node.mem_own.2 hnode))
    exact ⟨.found haction hlookup, hfound v _ hfree hlookup⟩
  | @unbound _ _ e v haction hlookup =>
    have hnode := Expr.node_of_look haction
    refine ⟨.unbound haction hlookup, Expr.shallow_of_look haction, fun u hu => ?_⟩
    obtain rfl : u = v := Expr.eq_of_mem_freeVars_variable hnode hu
    exact (hfree u hu).resolve_left (Scope.lookup?_eq_none_iff.1 hlookup)
  | @pass _ s e haction =>
    obtain ⟨value, ty, hnode⟩ := Expr.node_of_pass haction
    have hquoted := (Node.isInert_iff.1 (Expr.inert_iff.1 hinert).1).2.1
    have hclosed : ∀ v, v ∉ e.freeVars := by
      intro v hv
      obtain ⟨t, ht, -⟩ := Expr.exists_quoted_of_mem_freeVars hnode hv
      rw [hquoted] at ht
      cases ht
    exact ⟨.pass haction (Watch.apart_passes.2 fun v hv => absurd hv (hclosed v)),
      Expr.shallow_of_pass haction hquoted, fun v hv => absurd hv (hclosed v)⟩
  | inline haction | capture haction | unwrap haction =>
    rcases hinert.action with ⟨v, hlook⟩ | hpass | hdescend
    · cases hlook.symm.trans haction
    · cases hpass.symm.trans haction
    · cases hdescend.symm.trans haction
  | @descend n s e out haction _ hshape hlength _ ih =>
    have hparams := Expr.params_of_lambdaDepth hflat
    have hvisit : ∀ p ∈ e.children.zip out.children,
        Expands .apart n s p.1 p.2 ∧ p.2.Shallow k ∧ ∀ v ∈ p.2.freeVars, F v := by
      intro p hp
      have hc := (List.of_mem_zip hp).1
      have hsub : ∀ v ∈ p.1.freeVars, v ∈ e.freeVars := fun v hv =>
        Expr.mem_freeVars_of_child hc hv (by simp [hparams])
      have hdepth := Expr.lambdaDepth_le_of_mem_children hc
      exact ih p hp (hinert.child hc) (by omega) (fun v r hv => hfound v r (hsub v hv))
        fun v hv => hfree v (hsub v hv)
    have hbelow : ∀ c ∈ out.children, c.Shallow k ∧ ∀ v ∈ c.freeVars, F v := by
      intro c hc
      obtain ⟨a, -, hpair⟩ := exists_mem_zip hlength hc
      exact (hvisit _ hpair).2
    have hkind : e.kind ≠ .lambda := by
      intro hkind
      rw [Expr.lambdaDepth_eq, if_pos hkind] at hflat
      omega
    refine ⟨.descend haction (Watch.apart_walks.2 (by simp [hparams])) hshape hlength
      fun p hp => (hvisit p hp).1, ?_, ?_⟩
    · have hshallow := Expr.shallow_of_shape haction (Node.isInert_iff.1 (Expr.inert_iff.1 hinert).1).2.2
        hshape fun c hc => (hbelow c hc).1
      rwa [if_neg hkind] at hshallow
    · exact Expr.freeVars_of_shape haction hshape fun c hc v hv => .inl ((hbelow c hc).2 v hv)

/-- The lambda that an inert target stands for, if the scope binds nothing that is free in the target, stands
in the target, so that fewer lambdas stand in one another in its body. -/
theorem Peels.apart_of_inert {n : Nat} {s : Scope} {target body : Expr} {params : List Variable}
    (h : Peels .idle s n target params body) (hinert : target.Inert)
    (hfree : ∀ v ∈ target.freeVars, v ∉ s.params) :
    Peels .apart s n target params body ∧ body.Inert ∧ body.lambdaDepth < target.lambdaDepth ∧
      ∀ v ∈ body.freeVars, v ∈ params ∨ v ∈ target.freeVars := by
  induction h with
  | @lambda _ target body params hlayer =>
    obtain ⟨ty, hnode⟩ := Expr.node_of_layer_lambda hlayer
    have hbody := Expr.mem_children_of_lambda hnode
    refine ⟨.lambda hlayer, hinert.child hbody, ?_, fun v hv => or_iff_not_imp_left.2 fun hparam => ?_⟩
    · have hle := le_foldr_max (List.mem_map_of_mem (f := Expr.lambdaDepth) hbody)
      rw [Expr.lambdaDepth_eq target, if_pos (by simp [Expr.kind, hnode, Node.kind])]
      omega
    · refine Expr.mem_freeVars_of_child hbody hv ?_
      rw [hnode]
      exact hparam
  | @var _ target _ _ _ v hlayer hlookup =>
    have hnode := Expr.node_of_layer_var hlayer
    have hv : v ∈ target.freeVars := Expr.mem_freeVars.2 (.inl (Node.mem_own.2 hnode))
    exact absurd (List.mem_map_of_mem (f := (·.1)) (Scope.mem_bindings_of_lookup? hlookup)) (hfree v hv)
  | @around _ target inner _ _ count hlayer _ _ ih =>
    have hinner := hinert.mem_children_of_layer hlayer
    have hparams := (Expr.origin_of_layer hlayer).1
    have hsub : ∀ v ∈ inner.freeVars, v ∈ target.freeVars := fun v hv =>
      Expr.mem_freeVars_of_child hinner hv (by simp [hparams])
    obtain ⟨hpeels, hbody, hdepth, hbound⟩ := ih (hinert.child hinner) fun v hv => hfree v (hsub v hv)
    refine ⟨.around hlayer (fun _ _ => rfl) hpeels, hbody, ?_, fun v hv => (hbound v hv).imp_right (hsub v)⟩
    exact Nat.lt_of_lt_of_le hdepth (Expr.lambdaDepth_le_of_mem_children hinner)

/-! ## Walks through stratified trees -/

/-- What is free in a peeled target is free in the target, top-level variables apart. -/
theorem Expr.mem_freeVars_of_peeled {top : List Variable} {next : Nat} {e : Expr} {v : Variable}
    (he : e.Everywhere (Sealed top next)) (hv : v ∈ e.peeled.freeVars) : v ∈ e.freeVars ∨ v ∈ top := by
  induction e using peeled.induct with
  | case1 e count inner hlayer ih =>
    rw [peeled_of_around hlayer] at hv
    rcases ih (he.within (within_of_layer hlayer)) hv with hfree | htop
    · exact or_iff_not_imp_right.2 (mem_freeVars_of_layer hlayer he hfree)
    · exact .inr htop
  | case2 e hlayer =>
    rw [peeled_of_not_around hlayer] at hv
    exact .inl hv

/-- What peels to a lambda is that lambda, or it is a variable whose replacement peels to the lambda. -/
theorem Peels.peeled {n : Nat} {s : Scope} {target body : Expr} {params : List Variable}
    (h : Peels .idle s n target params body) :
    (∃ ty, target.peeled.node = .lambda params body ty ∧ Peels .apart s n target params body) ∨
      ∃ v r m, target.peeled.node = .variable v ∧ s.lookup? v = some r ∧ Peels .idle s m r params body ∧
        ((∀ u ∈ r.freeVars, u ∉ s.params) → Peels .apart s m r params body →
          Peels .apart s n target params body) := by
  induction h with
  | @lambda _ target _ _ hlayer =>
    obtain ⟨ty, hnode⟩ := Expr.node_of_layer_lambda hlayer
    refine .inl ⟨ty, ?_, .lambda hlayer⟩
    rwa [Expr.peeled_of_lambda hnode]
  | @var m target r _ _ v hlayer hlookup hkind _ hpeels =>
    have hnode := Expr.node_of_layer_var hlayer
    refine .inr ⟨v, r, m, ?_, hlookup, hpeels, fun hfree hapart => ?_⟩
    · rwa [Expr.peeled_of_variable hnode]
    · exact .var hlayer hlookup hkind (Watch.apart_opens.2 hfree) hapart
  | around hlayer _ _ ih =>
    rw [Expr.peeled_of_around hlayer]
    rcases ih with ⟨ty, hnode, hpeels⟩ | ⟨v, r, m, hnode, hlookup, hpeels, hback⟩
    · exact .inl ⟨ty, hnode, .around hlayer (fun _ _ => rfl) hpeels⟩
    · exact .inr ⟨v, r, m, hnode, hlookup, hpeels, fun hfree hapart =>
        .around hlayer (fun _ _ => rfl) (hback hfree hapart)⟩

section Placed

variable {top under : List Variable} {next : Nat} {depth : Variable → Nat} {s inner : Scope}
  {a c e : Expr}

/-- The tree is to be expanded in the scope, below lambdas with the parameters `under`. -/
structure Placed (top under : List Variable) (next : Nat) (depth : Variable → Nat) (s : Scope)
    (e : Expr) : Prop where
  once : e.BoundOnce
  seals : e.Everywhere (Sealed top next)
  stratified : e.Stratified depth
  unbound : ∀ v, v ∈ s.params ∨ v ∈ under → e.Everywhere fun a => v ∉ a.node.params
  unquoted : ∀ v ∈ s.params, e.Everywhere fun a => ∀ t ∈ a.node.quoted, v ∉ t.freeVars
  outer : ∀ v, v ∈ top ∨ v ∈ under → v ∉ s.params
  free : ∀ v ∈ e.freeVars, v ∈ s.params ∨ v ∈ top ∨ v ∈ under
  shallow : ∀ b ∈ s.bindings, b.2.Shallow (depth b.1)
  replaced : ∀ b ∈ s.bindings, ∀ v ∈ b.2.freeVars, v ∈ top ∨ v ∈ under

namespace Placed

theorem within (h : Placed top under next depth s e) (ha : a.Within e)
    (hfree : ∀ v ∈ a.freeVars, v ∈ e.freeVars ∨ v ∈ top) : Placed top under next depth s a where
  once := h.once.within ha
  seals := h.seals.within ha
  stratified := h.stratified.within ha
  unbound v hv := (h.unbound v hv).within ha
  unquoted v hv := (h.unquoted v hv).within ha
  outer := h.outer
  free v hv := (hfree v hv).elim (h.free v) fun htop => .inr (.inl htop)
  shallow := h.shallow
  replaced := h.replaced

theorem child (h : Placed top under next depth s e) (hparams : e.node.params = []) (hc : c ∈ e.children) :
    Placed top under next depth s c :=
  h.within (Expr.within_of_mem_children hc) fun v hv =>
    .inl (Expr.mem_freeVars_of_child hc hv (by simp [hparams]))

theorem captured (h : Placed top under next depth s e) {o tree : Expr} (ho : o.Within e)
    (htree : tree ∈ o.node.captured) : Placed top under next depth s tree :=
  h.within (Expr.within_of_captured ho htree) fun v hv =>
    .inr ((h.seals o ho).captured_closed tree htree v hv)

/-- Below a lambda its parameters are walked under as well. -/
theorem below (h : Placed top under next depth s e) (hc : c ∈ e.children) :
    Placed top (under ++ e.node.params) next depth s c where
  once := h.once.within (Expr.within_of_mem_children hc)
  seals := h.seals.child hc
  stratified := h.stratified.within (Expr.within_of_mem_children hc)
  unbound v hv := by
    rw [List.mem_append, ← or_assoc] at hv
    rcases hv with hv | hv
    · exact (h.unbound v hv).child hc
    · exact fun a ha => h.once.not_mem_params hc ha hv
  unquoted v hv := (h.unquoted v hv).child hc
  outer v hv := by
    rw [List.mem_append, ← or_assoc] at hv
    rcases hv with hv | hv
    · exact h.outer v hv
    · exact fun hbound => (h.unbound v (.inl hbound)).here hv
  free v hv := by
    rw [List.mem_append, ← or_assoc, ← or_assoc, or_iff_not_imp_right]
    intro hparams
    rw [or_assoc]
    exact h.free v (Expr.mem_freeVars_of_child hc hv hparams)
  shallow := h.shallow
  replaced b hb v hv := (h.replaced b hb v hv).imp_right (List.mem_append_left _)

/-- Walking under the lambda confuses nothing. -/
theorem apart_walks (h : Placed top under next depth s e) : Watch.apart.walks s e = true := by
  refine Watch.apart_walks.2 fun p hp => ⟨fun c _ _ hbound => (h.unbound p (.inl hbound)).here hp, ?_⟩
  intro b hb _ hfree
  rcases h.replaced b hb p hfree with htop | hunder
  · exact h.seals.here.params_inner p hp htop
  · exact (h.unbound p (.inr hunder)).here hp

/-- The body of an invoked lambda is placed in the scope that binds its parameters to shallow
replacements. -/
theorem body (h : Placed top under next depth s e) {lambda body : Expr} {params : List Variable} {ty : Ty}
    {replacements : List Expr} (hlambda : lambda.Within e) (hnode : lambda.node = .lambda params body ty)
    (hfree : ∀ v ∈ lambda.freeVars, v ∈ e.freeVars ∨ v ∈ top)
    (hspares : body.Everywhere fun b => ∀ t ∈ b.node.quoted, ∀ v ∈ t.freeVars, v ∉ params)
    (hlength : replacements.length = params.length)
    (hextend : s.extend (params.zip replacements) = .ok inner)
    (hshallow : ∀ b ∈ params.zip replacements, b.2.Shallow (depth b.1))
    (hreplaced : ∀ r ∈ replacements, ∀ v ∈ r.freeVars, v ∈ top ∨ v ∈ under) :
    Placed top under next depth inner body := by
  have hl := h.within hlambda hfree
  have hbody : body ∈ lambda.children := Expr.mem_children_of_lambda hnode
  have hparams : lambda.node.params = params := by rw [hnode]; rfl
  have hmem : ∀ v, v ∈ inner.params ↔ v ∈ params ∨ v ∈ s.params := fun v =>
    Scope.mem_params_extend hextend hlength
  exact {
    once := hl.once.within (Expr.within_of_mem_children hbody)
    seals := hl.seals.child hbody
    stratified := hl.stratified.within (Expr.within_of_mem_children hbody)
    unbound := by
      intro v hv
      rw [hmem, or_assoc] at hv
      rcases hv with hv | hv
      · exact fun a ha => hl.once.not_mem_params hbody ha (hparams ▸ hv)
      · exact (hl.unbound v hv).child hbody
    unquoted := by
      intro v hv a ha t ht hfree
      rcases (hmem v).1 hv with hv | hv
      · exact hspares a ha t ht v hfree hv
      · exact (hl.unquoted v hv).child hbody a ha t ht hfree
    outer := by
      intro v hv hbound
      rcases (hmem v).1 hbound with hparam | hbound
      · rw [← hparams] at hparam
        rcases hv with htop | hunder
        · exact hl.seals.here.params_inner v hparam htop
        · exact (hl.unbound v (.inr hunder)).here hparam
      · exact h.outer v hv hbound
    free := by
      intro v hv
      rw [hmem, or_assoc, or_iff_not_imp_left]
      intro hparam
      exact hl.free v (Expr.mem_freeVars_of_child hbody hv (hparams ▸ hparam))
    shallow := by
      intro b hb
      rw [Scope.bindings_of_extend hextend] at hb
      exact (List.mem_append.1 hb).elim (hshallow b) (h.shallow b)
    replaced := Scope.forall_bindings_extend hextend h.replaced hreplaced }

/-- The body of an invoked lambda that stands in the tree is placed in the scope that binds its parameters to the
expanded arguments. -/
theorem written (h : Placed top under next depth s e) {target body : Expr} {args replacements : List Expr}
    {params : List Variable} {ty : Ty} (haction : e.node.action = .inline target args)
    (hnode : target.peeled.node = .lambda params body ty) (harity : params.length = args.length)
    (hlength : replacements.length = args.length) (hextend : s.extend (params.zip replacements) = .ok inner)
    (hshallow : ∀ p ∈ args.zip replacements, p.2.Shallow (p.1.foreseenDepth depth))
    (hreplaced : ∀ r ∈ replacements, ∀ v ∈ r.freeVars, v ∈ top ∨ v ∈ under) :
    Placed top under next depth inner body := by
  obtain ⟨htarget, -⟩ := Expr.mem_children_of_inline haction
  have hlambda : target.peeled.Within e := target.peeled_within.trans (Expr.within_of_mem_children htarget)
  refine h.body hlambda hnode (fun v hv => ?_) ?_ (hlength.trans harity.symm) hextend (fun b hb => ?_) hreplaced
  · refine (Expr.mem_freeVars_of_peeled (h.seals.child htarget) hv).imp_left fun hv => ?_
    exact Expr.mem_freeVars_of_child htarget hv (by simp [Expr.params_of_action (e := e) (by simp [haction])])
  · exact Node.not_mem_params_of_sparesData h.stratified.spares.here haction hnode
  · obtain ⟨a, hleft, hright⟩ := exists_between_of_mem_zip harity hlength hb
    exact (hshallow _ hright).mono
      (Node.le_depth_of_keepsDepths h.stratified.keeps.here haction hnode _ hleft)

end Placed

/-- The body of a replacement that is opened: only the new parameters are replaced in it, and it holds no
lambda. -/
theorem Placed.apart_opened (h : Placed top under next depth s e) {n m k : Nat} {v : Variable}
    {r body out : Expr} {params : List Variable} {replacements : List Expr}
    (hlookup : s.lookup? v = some r) (hdepth : depth v ≤ 1) (hpeels : Peels .idle s m r params body)
    (hlength : replacements.length = params.length)
    (hextend : s.extend (params.zip replacements) = .ok inner) (hbody : Expands .idle n inner body out)
    (hreplaced : ∀ r ∈ replacements, r.Shallow k ∧ ∀ v ∈ r.freeVars, v ∈ top ∨ v ∈ under) :
    (Peels .apart s m r params body ∧ ∀ u ∈ r.freeVars, u ∉ s.params) ∧ Expands .apart n inner body out ∧
      out.Shallow k ∧ ∀ v ∈ out.freeVars, v ∈ top ∨ v ∈ under := by
  have hbinding := Scope.mem_bindings_of_lookup? hlookup
  have houter : ∀ u ∈ r.freeVars, u ∉ s.params := fun u hu => h.outer u (h.replaced _ hbinding u hu)
  obtain ⟨hinert, hshallow⟩ := h.shallow _ hbinding hdepth
  obtain ⟨hpeels, hinert, hflat, hfree⟩ := hpeels.apart_of_inert hinert houter
  obtain ⟨-, -, hunbound⟩ := Scope.extend_eq_ok_iff.1 hextend
  have hmem : ∀ u, u ∈ inner.params ↔ u ∈ params ∨ u ∈ s.params := fun u =>
    Scope.mem_params_extend hextend hlength
  refine ⟨⟨hpeels, houter⟩, hbody.apart_of_inert hinert (by simp only at hshallow; omega) ?_ ?_⟩
  · intro u r' hu hlookup'
    have hbound := Scope.mem_bindings_of_lookup? hlookup'
    rw [Scope.bindings_of_extend hextend] at hbound
    rcases List.mem_append.1 hbound with hnew | hold
    · exact hreplaced r' (List.of_mem_zip hnew).2
    -- an older binding is of no variable in the body: the new parameters are not bound in the scope
    · have hold : u ∈ s.params := List.mem_map_of_mem (f := (·.1)) hold
      rcases hfree u hu with hparam | hfree
      · rw [← List.map_fst_zip (Nat.le_of_eq hlength.symm)] at hparam
        obtain ⟨p, hp, rfl⟩ := List.mem_map.1 hparam
        exact absurd hold (hunbound p hp)
      · exact absurd hold (houter u hfree)
  · intro u hu
    rw [hmem, or_assoc]
    exact (hfree u hu).imp_right fun hfree => .inr (h.replaced _ hbinding u hfree)

/-- In a stratified tree expansion does not confuse identities, and the depth of the result is foretold. -/
theorem Expands.apart_of_placed {n : Nat} {out : Expr} (h : Expands .idle n s e out)
    (hplaced : Placed top under next depth s e) :
    Expands .apart n s e out ∧ out.Shallow (e.foreseenDepth depth) ∧
      ∀ v ∈ out.freeVars, v ∈ top ∨ v ∈ under := by
  induction h generalizing under with
  | @found _ _ e r v haction hlookup =>
    have hbinding := Scope.mem_bindings_of_lookup? hlookup
    exact ⟨.found haction hlookup, Expr.shallow_of_found haction (hplaced.shallow _ hbinding),
      hplaced.replaced _ hbinding⟩
  | @unbound _ _ e v haction hlookup =>
    have hnode := Expr.node_of_look haction
    refine ⟨.unbound haction hlookup, Expr.shallow_of_look haction, fun u hu => ?_⟩
    obtain rfl := Expr.eq_of_mem_freeVars_variable hnode hu
    exact (hplaced.free u hu).resolve_left (Scope.lookup?_eq_none_iff.1 hlookup)
  | @pass _ s e haction =>
    obtain ⟨value, ty, hnode⟩ := Expr.node_of_pass haction
    have hunbound : ∀ v ∈ e.freeVars, v ∉ s.params := by
      intro v hv hbound
      obtain ⟨t, ht, hfree⟩ := Expr.exists_quoted_of_mem_freeVars hnode hv
      exact (hplaced.unquoted v hbound).here t ht hfree
    exact ⟨.pass haction (Watch.apart_passes.2 hunbound), Expr.shallow_of_passed haction, fun v hv =>
      (hplaced.free v hv).resolve_left (hunbound v hv)⟩
  | @inline n s inner e target body out args replacements params haction hpeels harity hlength _ hextend hbody
      ihargs ihbody =>
    obtain ⟨-, hchildren⟩ := Expr.mem_children_of_inline haction
    have hparams : e.node.params = [] := Expr.params_of_action (by simp [haction])
    have hrs : replacements.length = params.length := hlength.trans harity.symm
    have hargs : ∀ p ∈ args.zip replacements, Expands .apart n s p.1 p.2 ∧
        p.2.Shallow (p.1.foreseenDepth depth) ∧ ∀ v ∈ p.2.freeVars, v ∈ top ∨ v ∈ under := fun p hp =>
      ihargs p hp (hplaced.child hparams (hchildren _ (List.of_mem_zip hp).1))
    have hfree : ∀ r ∈ replacements, ∀ v ∈ r.freeVars, v ∈ top ∨ v ∈ under := by
      intro r hr
      obtain ⟨a, -, hpair⟩ := exists_mem_zip hlength hr
      exact (hargs _ hpair).2.2
    rcases hpeels.peeled with ⟨ty, hnode, hapart⟩ | ⟨v, r, m, hnode, hlookup, hopened, hback⟩
    · -- the lambda stands in the tree
      obtain ⟨hexpands, hshallow, hout⟩ := ihbody
        (hplaced.written haction hnode harity hlength hextend (fun p hp => (hargs p hp).2.1) hfree)
      refine ⟨.inline haction hapart harity hlength (fun p hp => (hargs p hp).1) hextend hexpands,
        hshallow.mono (Expr.foreseenDepth_le_of_upcoming ?_), hout⟩
      rw [Node.upcoming_of_lambda haction hnode]
      exact List.mem_singleton_self body
    · -- the lambda was bound to a parameter
      have hdepth := Node.depth_le_one_of_keepsDepths hplaced.stratified.keeps.here haction hnode
      have hshallow : ∀ r ∈ replacements, r.Shallow (e.foreseenDepth depth) := by
        intro r hr
        obtain ⟨a, ha, hpair⟩ := exists_mem_zip hlength hr
        refine (hargs _ hpair).2.1.mono (Expr.foreseenDepth_le_of_upcoming ?_)
        rwa [Node.upcoming_of_variable haction hnode]
      obtain ⟨⟨hpeels', houter⟩, hexpands, hout⟩ := hplaced.apart_opened hlookup hdepth hopened hrs hextend
        hbody fun r hr => ⟨hshallow r hr, hfree r hr⟩
      exact ⟨.inline haction (hback houter hpeels') harity hlength (fun p hp => (hargs p hp).1) hextend
        hexpands, hout⟩
  | @capture _ _ e tree out compiled haction _ ih =>
    obtain ⟨c, hc, o, ho, htree⟩ := Expr.captured_of_capture haction
    obtain ⟨hexpands, hshallow, hout⟩ :=
      ih (hplaced.captured (ho.trans (Expr.within_of_mem_children hc)) htree)
    refine ⟨.capture haction hexpands, hshallow.mono (Expr.foreseenDepth_le_of_upcoming ?_), hout⟩
    simp [Node.upcoming, haction]
  | @unwrap _ _ e query out haction _ ih =>
    have hparams : e.node.params = [] := Expr.params_of_action (by simp [haction])
    obtain ⟨hexpands, hshallow, hout⟩ :=
      ih (hplaced.child hparams (Expr.mem_children_of_unwrap haction))
    refine ⟨.unwrap haction hexpands, hshallow.mono (Expr.foreseenDepth_le_of_upcoming ?_), hout⟩
    simp [Node.upcoming, haction]
  | @descend _ _ e out haction _ hshape hlength _ ih =>
    have hvisit := fun p (hp : p ∈ e.children.zip out.children) =>
      ih p hp (hplaced.below (List.of_mem_zip hp).1)
    refine ⟨.descend haction hplaced.apart_walks hshape hlength fun p hp => (hvisit p hp).1,
      Expr.shallow_of_descend haction hshape hlength fun p hp => (hvisit p hp).2.1,
      Expr.freeVars_of_shape haction hshape fun c hc v hv => ?_⟩
    obtain ⟨a, -, hpair⟩ := exists_mem_zip hlength hc
    have hallowed := (hvisit _ hpair).2.2 v hv
    rwa [List.mem_append, ← or_assoc] at hallowed

end Placed

/-! ## Sources -/

/-- If the tree of a source is stratified, then every expansion of it that succeeds keeps identities apart: no
parameter of a lambda that is walked under is bound in the scope or free in a replacement that goes under it.
So the reference succeeds as well, and both results are equal up to the variables that lambdas bind. -/
theorem expand_eq_expandFreshly_of_stratified (source : String) (supply₀ supply supply' : Supply)
    (limit : Nat) (e : Expr) (r : Expanded) (depth : Variable → Nat)
    (hparse : parseTree source supply₀ = .ok (e, supply)) (hstratified : e.Stratified depth)
    (hexpand : expand limit e supply = .ok (r, supply')) :
    Expands .apart limit .root e r.tree ∧
      ∃ r' supply'', expandFreshly limit e supply = .ok (r', supply'') ∧
        AlphaEq (fun v c => c.ty = v.ty) [] r.tree r'.tree := by
  have hground := grounded_of_parseTree hparse
  have hplaced : Placed (freeVariables source supply₀) [] supply.next depth .root e := {
    once := (fromSource_of_parseTree hparse).boundOnce
    seals := hground.seals
    stratified := hstratified
    unbound := fun v hv => by simp [Scope.params, Scope.root, Scope.bindings] at hv
    unquoted := fun v hv => by simp [Scope.params, Scope.root, Scope.bindings] at hv
    outer := fun v _ => by simp [Scope.params, Scope.root, Scope.bindings]
    free := fun v hv => .inr (.inl (hground.closed v hv))
    shallow := by simp [Scope.root, Scope.bindings]
    replaced := by simp [Scope.root, Scope.bindings] }
  have hapart := ((expands_of_expand hground.coherent hexpand).2.apart_of_placed hplaced).1
  exact ⟨hapart, hapart.exists_expandFreshly hground⟩

/-- A lambda that is inlined twice below another one, with the parameter of that one as its argument. -/
def sharedLambda : String :=
  "(invoke (lambda ((g F) (k Int)) (lambda ((y Int)) (add (invoke g y) (invoke g k)))) " ++
    "(lambda ((x Int)) (mul x x)) 3)"

/-- Only `g` is invoked, and it stands for a lambda without lambdas in its body. -/
theorem expand_eq_expandFreshly_on_sharedLambda :
    ∃ e supply r supply' r' supply'', parseTree sharedLambda {} = .ok (e, supply) ∧
      (e.Stratified fun v => if v.name = "g" then 1 else 0) ∧ expand 10 e supply = .ok (r, supply') ∧
      expandFreshly 10 e supply = .ok (r', supply'') ∧
      AlphaEq (fun v c => c.ty = v.ty) [] r.tree r'.tree := by
  have hpasses : passes sharedLambda 10 (fun e _ _ =>
      decide (e.Stratified fun v => if v.name = "g" then 1 else 0)) = true := by
    decide +kernel
  obtain ⟨e, supply, r, supply', hparse, hexpand, hcheck⟩ := exists_run_of_passes hpasses
  have hstratified := of_decide_eq_true hcheck
  obtain ⟨-, r', supply'', hfreshly, heq⟩ := expand_eq_expandFreshly_of_stratified sharedLambda {} supply
    supply' 10 e r _ hparse hstratified hexpand
  exact ⟨e, supply, r, supply', r', supply'', hparse, hstratified, hexpand, hfreshly, heq⟩

end ExprTree
