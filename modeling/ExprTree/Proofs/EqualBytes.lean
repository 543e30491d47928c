import ExprTree.Proofs.Correspondence
import ExprTree.Proofs.RecastExpansion

/-!
# Expanding trees with the same bytes

The bytes of a tree do not show all that an expansion looks at: a call is written without the tag of
its method, and a tree that is carried as data without the binders around it. So trees with the same
bytes may expand differently (`expand_differs_on_equal_bytes`). Where the outlines are the same too, one
tree is the other up to identities, and they expand alike, to results with the same bytes
(`expand_alike_of_normalize_eq`).
-/

namespace ExprTree

/-! ## What an expansion keeps -/

@[simp] theorem Node.closures_shape (n : Node) : n.shape.closures = n.closures := by cases n <;> rfl

section Result

variable {e out : Expr} {limit : Nat}

/-- The result of an expansion uses what the tree uses. -/
theorem Expands.uses (h : Expands .idle limit .root e out) :
    out.Everywhere fun a => (∀ v ∈ a.node.vars, e.Uses v) ∧ ∀ c ∈ a.node.closures, e.UsesClosure c.id := by
  refine h.everywhere (fun a b hshape hb => ?_) (fun _ hp => nomatch hp) fun a ha =>
    ⟨fun v hv => ⟨a, ha, hv⟩, fun c hc => ⟨a, ha, c, hc, rfl⟩⟩
  rw [Expansion.vars_of_shape hshape, ← Node.closures_shape, hshape, Node.closures_shape]
  exact hb

/-- What the bytes of the result give by name, the bytes of the tree give by name. -/
theorem Expands.givesByName (h : Expands .idle limit .root e out) {v : Variable}
    (hv : out.GivesByName v) : e.GivesByName v := by
  have hpayload : ∀ a : Expr, a.Within e → ∀ t ∈ a.node.payload,
      t.LooseOnly fun u _ => e.GivesByName u := fun a ha t ht =>
    Expr.looseOnly_iff_exposed.2 fun u hu => .inr ⟨a, ha, t, ht, hu⟩
  have hcarries : e.Everywhere (Expr.Carries Watch.idle.unquotes fun u _ => e.GivesByName u) := fun a ha =>
    ⟨fun t ht _ => hpayload a ha t (Node.mem_payload.2 (.inl ht)),
      fun t ht => hpayload a ha t (Node.mem_payload.2 (.inr ht))⟩
  rcases hv with hv | ⟨a, ha, t, ht, hv⟩
  · refine Expr.looseOnly_iff_exposed.1 (h.looseOnly (fun _ hp => nomatch hp) (fun _ hp => nomatch hp)
      hcarries fun u a ha => .inl (.inl ?_)) v hv
    exact Expr.mem_exposed_iff_looseIn.2 ⟨a, ha⟩
  · have hcarried := h.everywhere (fun _ _ => Expr.Carries.of_shape) (fun _ hp => nomatch hp) hcarries a ha
    refine Expr.looseOnly_iff_exposed.1 ?_ v hv
    rcases Node.mem_payload.1 ht with hquoted | hcaptured
    · exact hcarried.quoted t hquoted rfl
    · exact hcarried.captured t hcaptured

/-- A recasting that keeps the identities of a tree apart keeps those of its expansion apart. -/
theorem Recasting.Faithful.of_expands {r : Recasting} (hfaithful : r.Faithful e)
    (h : Expands .idle limit .root e out) : r.Faithful out where
  var_inj := fun v w ⟨a, ha, hv⟩ ⟨b, hb, hw⟩ =>
    hfaithful.var_inj v w ((h.uses a ha).1 v hv) ((h.uses b hb).1 w hw)
  ty_eq := fun v ⟨a, ha, hv⟩ => hfaithful.ty_eq v ((h.uses a ha).1 v hv)
  closure_inj := by
    rintro _ _ ⟨a, ha, c, hc, rfl⟩ ⟨b, hb, d, hd, rfl⟩
    exact hfaithful.closure_inj _ _ ((h.uses a ha).2 c hc) ((h.uses b hb).2 d hd)

end Result

/-! ## Equal bytes -/

/-- The failure without the name of a parameter. -/
def Failure.unnamed : Failure → Failure
  | .recursiveBinding _ => .recursiveBinding ""
  | failure => failure

theorem Failure.Recast.unnamed_eq {r : Recasting} {S : Variable → Prop} {failure failure' : Failure}
    (h : Failure.Recast r S failure failure') : failure'.unnamed = failure.unnamed := by
  cases h <;> rfl

theorem Expr.Encodable.writable {e : Expr} (h : e.Encodable) :
    e.Everywhere (Encoding.Writable e.closureIds) := fun a ha =>
  ⟨h.sizes a ha, h.binders a ha, fun _ hc => mem_closureIds ha hc⟩

/-- The trees of two sources that have the same bytes and the same outline are the same up to
identities, and what the bytes show by name keeps its name. -/
theorem exists_recasting_of_normalize_eq {top top' : List Variable} {a b : Expr} (ha : OfSource top a)
    (hb : OfSource top' b) (hencodable : a.Encodable) (hencodable' : b.Encodable)
    (hbytes : a.normalize = b.normalize) (houtline : a.outline [] = b.outline []) :
    ∃ r : Recasting, b.recast {} = a.recast r ∧ r.Faithful a ∧ r.owner = id ∧
      ∀ v, a.GivesByName v → (r.var v).name = v.name := by
  have htells : Encoding.TellsExpr a.closureIds b.closureIds {} a b :=
    Encoding.tells_expr hencodable.closures hencodable'.closures a b {} hencodable.writable
      hencodable'.writable (by simpa using hencodable.binders a (.here a))
      (by simpa using hencodable'.binders b (.here b))
  have hagrees := (htells ⟨List.nodup_nil, by simp⟩ ⟨List.nodup_nil, by simp⟩
    (congrArg (· ++ []) (List.cons.inj hbytes).2)).1
  exact exists_recasting_of_agrees ha hb hagrees houtline

/-- Let the trees of two sources be within the limits of the format, have the same bytes and the same
outline. Then under every limit both expand, with the same counters and to results with the same bytes,
or both fail in the same way. -/
theorem expand_alike_of_normalize_eq (source source' : String) (supply₀ supply₀' supply supply' : Supply)
    (a b : Expr) (hparse : parseTree source supply₀ = .ok (a, supply))
    (hparse' : parseTree source' supply₀' = .ok (b, supply')) (ha : a.Encodable) (hb : b.Encodable)
    (hbytes : a.normalize = b.normalize) (houtline : a.outline [] = b.outline []) (limit : Nat) :
    (∃ out out' supply₁ supply₁', expand limit a supply = .ok (out, supply₁) ∧
      expand limit b supply' = .ok (out', supply₁') ∧ out'.stats = out.stats ∧
      out'.tree.normalize = out.tree.normalize) ∨
    ∃ failure failure', expand limit a supply = .error failure ∧
      expand limit b supply' = .error failure' ∧ failure'.unnamed = failure.unnamed := by
  obtain ⟨r, hrecast, hfaithful, howner, hnames⟩ := exists_recasting_of_normalize_eq
    (ofSource_of_parseTree hparse) (ofSource_of_parseTree hparse') ha hb hbytes houtline
  have hcoherent := (grounded_of_parseTree hparse).coherent
  obtain ⟨out, out', supply₁, supply₁', hout, hout', hstats, -, halike⟩ | ⟨failure, failure', hfails,
    hfails', hsame⟩ := expand_alike howner hfaithful.var_inj hrecast hcoherent
      (grounded_of_parseTree hparse').coherent limit
  · have hexpands := (expands_of_expand hcoherent hout).2
    exact .inl ⟨out, out', supply₁, supply₁', hout, hout', hstats,
      Expr.normalize_eq_of_recast halike (hfaithful.of_expands hexpands) howner
        fun v hv => hnames v (hexpands.givesByName hv)⟩
  · exact .inr ⟨failure, failure', hfails, hfails', hsame.unnamed_eq⟩

/-- A captured lambda is applied inside a marked invocation, beside a tree that reads an outer
parameter. -/
def markedApplication (captured param : String) : String :=
  "closure E \x7b p = (tree (lambda ((" ++ captured ++ " Int)) (add " ++ captured ++ " 1))) \x7d " ++
    "(lambda ((y Int)) (call static C::f ((invoke! (lambda ((" ++ param ++
    " Int)) (invoke (field E E::p F) " ++ param ++ ")) y) (tree y)) Int))"

/-- Other names for the parameters that no tree exposes: the runs go alike. -/
theorem expand_alike_on_markedApplication :
    ∃ a b supply supply' out out' supply₁ supply₁',
      parseTree (markedApplication "z" "x") {} = .ok (a, supply) ∧
      parseTree (markedApplication "x" "u") {} = .ok (b, supply') ∧
      a.Encodable ∧ b.Encodable ∧ a.normalize = b.normalize ∧ a.outline [] = b.outline [] ∧
      expand 9 a supply = .ok (out, supply₁) ∧ out.stats.invocationsInlined = 2 ∧
      expand 9 b supply' = .ok (out', supply₁') ∧ out'.stats = out.stats ∧
      out'.tree.normalize = out.tree.normalize := by
  have hpasses : passes (markedApplication "z" "x") 9 (fun a _ out =>
      accepts (markedApplication "x" "u") fun b => decide (a.Encodable ∧ b.Encodable ∧
        a.normalize = b.normalize ∧ a.outline [] = b.outline [] ∧
          out.stats.invocationsInlined = 2)) = true := by
    decide +kernel
  obtain ⟨a, supply, out, supply₁, hparse, hexpand, hcheck⟩ := exists_run_of_passes hpasses
  obtain ⟨b, supply', hparse', hcheck⟩ := exists_tree_of_accepts hcheck
  obtain ⟨ha, hb, hbytes, houtline, hinlined⟩ := of_decide_eq_true hcheck
  obtain ⟨r, out', supply₂, supply₁', hfirst, hexpand', hstats, hsame⟩ | ⟨_, _, hfails, -⟩ :=
    expand_alike_of_normalize_eq _ _ _ _ _ _ a b hparse hparse' ha hb hbytes houtline 9
  · obtain ⟨rfl, rfl⟩ := Prod.mk.inj (Except.ok.inj (hexpand.symm.trans hfirst))
    exact ⟨a, b, supply, supply', out, out', supply₁, supply₁', hparse, hparse', ha, hb, hbytes, houtline,
      hexpand, hinlined, hexpand', hstats, hsame⟩
  · rw [hexpand] at hfails
    cases hfails

/-- The trees of two sources are within the limits of the format and have the same bytes, and their
expansions have different bytes. -/
def ExpandApart (source source' : String) (limit : Nat) : Prop :=
  ∃ a b supply supply' out out' supply₁ supply₁',
    parseTree source {} = .ok (a, supply) ∧ parseTree source' {} = .ok (b, supply') ∧
    a.Encodable ∧ b.Encodable ∧ a.normalize = b.normalize ∧
    expand limit a supply = .ok (out, supply₁) ∧ expand limit b supply' = .ok (out', supply₁') ∧
    out.tree.normalize ≠ out'.tree.normalize

theorem expandApart_of_passes {source source' : String} {limit : Nat}
    (h : passes source limit (fun a _ out => passes source' limit fun b _ out' =>
      decide (a.Encodable ∧ b.Encodable ∧ a.normalize = b.normalize ∧
        out.tree.normalize ≠ out'.tree.normalize)) = true) : ExpandApart source source' limit := by
  obtain ⟨a, supply, out, supply₁, hparse, hexpand, h⟩ := exists_run_of_passes h
  obtain ⟨b, supply', out', supply₁', hparse', hexpand', h⟩ := exists_run_of_passes h
  obtain ⟨ha, hb, hbytes, hdiffer⟩ := of_decide_eq_true h
  exact ⟨a, b, supply, supply', out, out', supply₁, supply₁', hparse, hparse', ha, hb, hbytes, hexpand,
    hexpand', hdiffer⟩

/-- The bytes do not show whether a call of `Expandable::Invoke` is a marked one, and not which `x` a
carried tree reads. Both decide what the expansion gives. -/
theorem expand_differs_on_equal_bytes :
    ExpandApart "(invoke! (lambda ((x Int)) x) 1)"
      "(call static Expandable::Invoke ((lambda ((x Int)) x) 1) Int)" 9 ∧
    ExpandApart "(invoke (lambda ((x Int)) (invoke (tree (lambda ((z Int)) x)) 1)) 5)"
      "free x: Int (invoke (lambda ((y Int)) (invoke (tree (lambda ((z Int)) x)) 1)) 5)" 9 :=
  ⟨expandApart_of_passes (by decide +kernel), expandApart_of_passes (by decide +kernel)⟩

end ExprTree
