import ExprTree.Proofs.Fragments

/-!
# Copying part by part

`Walk.children` compares the children of a node before and after a visit, all at once. A walk can also go
part by part: constructor calls, bindings and element initializers are shared just as expressions are, and
each of them is kept if nothing in it has changed. `Node.copy` does so. Each of its steps gives `none` for a
part that came back as itself, and a new part otherwise, in which what came back as itself is reused.

Both ways agree where labels are identities, whatever is done to the children
(`Walk.children_eq_byParts`), and so a fragment is kept if and only if all expressions in it are
(`Fragment.copy_matches`).
-/

namespace ExprTree

open Walk

variable {σ α β γ δ : Type}

/-! ## Parts that come back as themselves -/

/-- Visits an expression; `none` if it comes back as itself. -/
def Expr.copy (visit : Expr → Walk σ Expr) (e : Expr) : Walk σ (Option Expr) := do
  let out ← visit e
  pure (if out.identical e then none else some out)

/-- Copies an expression that may be absent. -/
def copyOption (visit : Expr → Walk σ Expr) : Option Expr → Walk σ (Option (Option Expr))
  | none => pure none
  | some e => do
    let e' ← e.copy visit
    pure (e'.map some)

/-- Copies a list if an item does not come back as itself. The others are reused. -/
def copyList (copy : α → Walk σ (Option α)) : List α → Walk σ (Option (List α))
  | [] => pure none
  | x :: xs => do
    let x' ← copy x
    let xs' ← copyList copy xs
    pure (if x'.isNone && xs'.isNone then none else some (x'.getD x :: xs'.getD xs))

/-- Copies a constructor call if an argument changes. -/
def Construct.copy (visit : Expr → Walk σ Expr) (c : Construct Expr) :
    Walk σ (Option (Construct Expr)) := do
  let args ← copyList (Expr.copy visit) c.args
  pure (args.map fun args => { ty := c.ty, args := args, members := c.members })

/-- Copies an element initializer if an argument changes. -/
def ElementInit.copy (visit : Expr → Walk σ Expr) (i : ElementInit Expr) :
    Walk σ (Option (ElementInit Expr)) := do
  let args ← copyList (Expr.copy visit) i.args
  pure (args.map fun args => { addMethod := i.addMethod, args := args })

mutual

/-- Copies a binding if anything in it changes. -/
def Binding.copy (visit : Expr → Walk σ Expr) : Binding Expr → Walk σ (Option (Binding Expr))
  | .assign member e => do
    let e' ← e.copy visit
    pure (e'.map (.assign member))
  | .nested member bs => do
    let bs' ← Binding.copyAll visit bs
    pure (bs'.map (.nested member))
  | .elements member es => do
    let es' ← copyList (ElementInit.copy visit) es
    pure (es'.map (.elements member))

/-- Copies a list of bindings if one of them changes. -/
def Binding.copyAll (visit : Expr → Walk σ Expr) :
    List (Binding Expr) → Walk σ (Option (List (Binding Expr)))
  | [] => pure none
  | b :: bs => do
    let b' ← Binding.copy visit b
    let bs' ← Binding.copyAll visit bs
    pure (if b'.isNone && bs'.isNone then none else some (b'.getD b :: bs'.getD bs))

end

/-- Copies a node if a part of it changes, with everything else it has. -/
def Node.copy (visit : Expr → Walk σ Expr) : Node → Walk σ (Option Node)
  | .unary op e ty method => do
    let e' ← e.copy visit
    pure (e'.map fun e => .unary op e ty method)
  | .binary op l r c lifted method ty => do
    let l' ← l.copy visit
    let r' ← r.copy visit
    let c' ← copyOption visit c
    pure (if l'.isNone && r'.isNone && c'.isNone then none
      else some (.binary op (l'.getD l) (r'.getD r) (c'.getD c) lifted method ty))
  | .typeIs e tested => do
    let e' ← e.copy visit
    pure (e'.map fun e => .typeIs e tested)
  | .conditional t a b ty => do
    let t' ← t.copy visit
    let a' ← a.copy visit
    let b' ← b.copy visit
    pure (if t'.isNone && a'.isNone && b'.isNone then none
      else some (.conditional (t'.getD t) (a'.getD a) (b'.getD b) ty))
  | .constant _ _ => pure none
  | .variable _ => pure none
  | .memberAccess o member => do
    let o' ← copyOption visit o
    pure (o'.map fun o => .memberAccess o member)
  | .call o method args => do
    let o' ← copyOption visit o
    let args' ← copyList (Expr.copy visit) args
    pure (if o'.isNone && args'.isNone then none
      else some (.call (o'.getD o) method (args'.getD args)))
  | .lambda params body ty => do
    let body' ← body.copy visit
    pure (body'.map fun body => .lambda params body ty)
  | .construct c => do
    let c' ← c.copy visit
    pure (c'.map .construct)
  | .newArray kind elem items => do
    let items' ← copyList (Expr.copy visit) items
    pure (items'.map (.newArray kind elem))
  | .invocation target args ty => do
    let args' ← copyList (Expr.copy visit) args
    let target' ← target.copy visit
    pure (if args'.isNone && target'.isNone then none
      else some (.invocation (target'.getD target) (args'.getD args) ty))
  | .memberInit c bs => do
    let c' ← c.copy visit
    let bs' ← Binding.copyAll visit bs
    pure (if c'.isNone && bs'.isNone then none else some (.memberInit (c'.getD c) (bs'.getD bs)))
  | .listInit c es => do
    let c' ← c.copy visit
    let es' ← copyList (ElementInit.copy visit) es
    pure (if c'.isNone && es'.isNone then none else some (.listInit (c'.getD c) (es'.getD es)))
  | .extension _ _ => pure none

/-- Copies a fragment if anything in it changes. -/
def Fragment.copy (visit : Expr → Walk σ Expr) : Fragment → Walk σ (Option Fragment)
  | .construct c => do
    let c' ← c.copy visit
    pure (c'.map .construct)
  | .binding b => do
    let b' ← b.copy visit
    pure (b'.map .binding)
  | .element i => do
    let i' ← i.copy visit
    pure (i'.map .element)

/-- Visits the children of an expression part by part. The expression is kept if every part is. -/
def Walk.byParts (e : Expr) (visit : Expr → Walk σ Expr) : Walk σ Expr := do
  match ← e.node.copy visit with
  | none => pure e
  | some n => alloc n

/-! ## Two walks in step -/

/-- From every state both walks succeed, with related results, or both fail, with the same failure. They end
in the same state. -/
def Walk.Matches (R : α → β → Prop) (x : Walk σ α) (y : Walk σ β) : Prop :=
  ∀ st, (∃ a b st', x.Yields st a st' ∧ y.Yields st b st' ∧ R a b) ∨
    ∃ failure st', x st = (.error failure, st') ∧ y st = (.error failure, st')

theorem Walk.Yields.run_bind {x : Walk σ α} {a : α} {st st' : WalkState σ} (h : x.Yields st a st')
    (f : α → Walk σ β) : (x >>= f) st = f a st' := by
  rw [Walk.run_bind, h]

theorem Walk.run_bind_error {x : Walk σ α} {failure : Failure} {st st' : WalkState σ}
    (h : x st = (.error failure, st')) (f : α → Walk σ β) : (x >>= f) st = (.error failure, st') := by
  rw [Walk.run_bind, h]

theorem Walk.matches_pure {R : α → β → Prop} {a : α} {b : β} (h : R a b) :
    Matches R (pure a : Walk σ α) (pure b) := fun st =>
  .inl ⟨a, b, st, yields_pure.2 ⟨rfl, rfl⟩, yields_pure.2 ⟨rfl, rfl⟩, h⟩

theorem Walk.Matches.bind {R : α → β → Prop} {S : γ → δ → Prop} {x : Walk σ α} {y : Walk σ β}
    {f : α → Walk σ γ} {g : β → Walk σ δ} (hxy : Matches R x y)
    (hfg : ∀ a b, R a b → Matches S (f a) (g b)) : Matches S (x >>= f) (y >>= g) := by
  intro st
  obtain ⟨a, b, st₁, hx, hy, hR⟩ | ⟨failure, st₁, hx, hy⟩ := hxy st
  · unfold Yields
    rw [hx.run_bind, hy.run_bind]
    exact hfg a b hR st₁
  · exact .inr ⟨failure, st₁, run_bind_error hx f, run_bind_error hy g⟩

theorem Walk.Matches.yields {R : α → β → Prop} {x : Walk σ α} {y : Walk σ β} {st st' : WalkState σ} {a : α}
    (h : Matches R x y) (hx : x.Yields st a st') : ∃ b, y.Yields st b st' ∧ R a b := by
  obtain ⟨a', b, st₁, hx', hy, hR⟩ | ⟨failure, st₁, hx', -⟩ := h st
  · obtain ⟨rfl, rfl⟩ := hx.unique hx'
    exact ⟨b, hy, hR⟩
  · rw [hx] at hx'
    cases hx'

theorem Walk.Matches.fails {R : α → β → Prop} {x : Walk σ α} {y : Walk σ β} {st : WalkState σ}
    {failure : Failure} (h : Matches R x y) (hx : x.Fails st failure) : y.Fails st failure := by
  obtain ⟨st', hx⟩ := hx
  obtain ⟨a, b, st₁, hx', -, -⟩ | ⟨failure', st₁, hx', hy⟩ := h st
  · rw [hx'] at hx
    cases hx
  · rw [hx] at hx'
    cases hx'
    exact ⟨st', hy⟩

theorem Walk.matches_self (x : Walk σ α) : Matches (fun a b => b = a) x x := by
  intro st
  rcases h : x st with ⟨failure | a, st'⟩
  · exact .inr ⟨failure, st', rfl, rfl⟩
  · exact .inl ⟨a, a, st', h, h, rfl⟩

/-! ## What copying a part gives -/

/-- Between these expressions and those, equal labels mean equal expressions. -/
def LabelsDecide (cs cs' : List Expr) : Prop := ∀ c ∈ cs, ∀ c' ∈ cs', c'.label = c.label → c' = c

theorem LabelsDecide.append {cs ds cs' ds' : List Expr} (h : LabelsDecide (cs ++ ds) (cs' ++ ds')) :
    LabelsDecide cs cs' ∧ LabelsDecide ds ds' :=
  ⟨fun c hc c' hc' => h c (List.mem_append_left _ hc) c' (List.mem_append_left _ hc'),
    fun d hd d' hd' => h d (List.mem_append_right _ hd) d' (List.mem_append_right _ hd')⟩

/-- A part `x` with the expressions `cs` becomes `x'` with the expressions `cs'` if these are visited, and
copying it gave `copied`. Then this is the same part, and nothing was copied if and only if every
expression is the one that was there. -/
structure CameBack (cs cs' : List Expr) (x x' : α) (copied : Option α) : Prop where
  length : cs'.length = cs.length
  same : LabelsDecide cs cs' → copied.getD x = x' ∧ (copied.isNone = true ↔ cs' = cs)

theorem cameBack_empty (x : α) : CameBack [] [] x x none :=
  ⟨rfl, fun _ => ⟨rfl, iff_of_true rfl rfl⟩⟩

section Parts

variable {cs cs' ds ds' es es' : List Expr} {x x' : α} {y y' : β} {z z' : γ} {copied : Option α}
  {copied₁ : Option β} {copied₂ : Option γ}

theorem CameBack.map (h : CameBack cs cs' x x' copied) (make : α → β) :
    CameBack cs cs' (make x) (make x') (copied.map make) := by
  refine ⟨h.length, fun hlabels => ?_⟩
  obtain ⟨rfl, hsame⟩ := h.same hlabels
  rw [Option.isNone_map, hsame]
  cases copied <;> exact ⟨rfl, Iff.rfl⟩

/-- A whole is copied if one of its parts is. -/
theorem CameBack.two (hx : CameBack cs cs' x x' copied) (hy : CameBack ds ds' y y' copied₁)
    (make : α → β → δ) : CameBack (cs ++ ds) (cs' ++ ds') (make x y) (make x' y')
      (if copied.isNone && copied₁.isNone then none
        else some (make (copied.getD x) (copied₁.getD y))) := by
  refine ⟨by rw [List.length_append, List.length_append, hx.length, hy.length], fun hlabels => ?_⟩
  obtain ⟨hcs, hds⟩ := hlabels.append
  obtain ⟨rfl, hxsame⟩ := hx.same hcs
  obtain ⟨rfl, hysame⟩ := hy.same hds
  have happend : cs' ++ ds' = cs ++ ds ↔ cs' = cs ∧ ds' = ds :=
    ⟨fun h => List.append_inj h hx.length, fun ⟨h, h'⟩ => by rw [h, h']⟩
  rw [happend, ← hxsame, ← hysame]
  cases copied <;> cases copied₁ <;> simp

theorem CameBack.three (hx : CameBack cs cs' x x' copied) (hy : CameBack ds ds' y y' copied₁)
    (hz : CameBack es es' z z' copied₂) (make : α → β → γ → δ) :
    CameBack (cs ++ (ds ++ es)) (cs' ++ (ds' ++ es')) (make x y z) (make x' y' z')
      (if copied.isNone && copied₁.isNone && copied₂.isNone then none
        else some (make (copied.getD x) (copied₁.getD y) (copied₂.getD z))) := by
  have h := hx.two (hy.two hz Prod.mk) fun x p => make x p.1 p.2
  cases copied <;> cases copied₁ <;> cases copied₂ <;> exact h

end Parts

/-! ## Copying agrees with visiting -/

variable (f : Expr → Walk σ Expr)

theorem Expr.copy_matches (e : Expr) :
    Matches (fun e' copied => CameBack [e] [e'] e e' copied) (f e) (e.copy f) := by
  rw [← bind_pure (f e)]
  refine (matches_self (f e)).bind fun out b hb => matches_pure ?_
  obtain rfl := hb
  -- labels decide whether it is the same expression
  refine ⟨rfl, fun hlabels => ?_⟩
  have hsame : b.identical e = true ↔ b = e := by
    rw [Expr.identical, beq_iff_eq]
    exact ⟨hlabels e (List.mem_singleton_self e) b (List.mem_singleton_self b), fun h => h ▸ rfl⟩
  by_cases hb : b = e
  · rw [if_pos (hsame.2 hb), hb]
    exact ⟨rfl, iff_of_true rfl rfl⟩
  · rw [if_neg (hb ∘ hsame.1), List.singleton_inj]
    exact ⟨rfl, iff_of_false Bool.false_ne_true hb⟩

theorem copyOption_matches (o : Option Expr) :
    Matches (fun o' copied => CameBack o.toList o'.toList o o' copied) (visitOption o fun e _ => f e)
      (copyOption f o) := by
  cases o with
  | none => exact matches_pure (cameBack_empty none)
  | some e =>
    refine (Expr.copy_matches f e).bind fun e' copied he => ?_
    exact matches_pure (he.map some)

theorem copyList_matches (xs : List Expr) :
    Matches (fun xs' copied => CameBack xs xs' xs xs' copied) (each f xs)
      (copyList (Expr.copy f) xs) := by
  induction xs with
  | nil => exact matches_pure (cameBack_empty [])
  | cons x xs ih =>
    refine (Expr.copy_matches f x).bind fun x' copied hx => ih.bind fun xs' copied' hxs => ?_
    exact matches_pure (hx.two hxs List.cons)

theorem Construct.copy_matches (c : Construct Expr) :
    Matches (fun c' copied => CameBack c.args c'.args c c' copied) (c.traverse fun e _ => f e)
      (c.copy f) := by
  refine (copyList_matches f c.args).bind fun args copied hargs => matches_pure ?_
  exact hargs.map (fun args => (⟨c.ty, args, c.members⟩ : Construct Expr))

theorem ElementInit.copy_matches (i : ElementInit Expr) :
    Matches (fun i' copied => CameBack i.args i'.args i i' copied)
      (each f i.args >>= fun args => pure ⟨i.addMethod, args⟩) (i.copy f) := by
  refine (copyList_matches f i.args).bind fun args copied hargs => matches_pure ?_
  exact hargs.map (fun args => (⟨i.addMethod, args⟩ : ElementInit Expr))

theorem ElementInit.copyList_matches (es : List (ElementInit Expr)) :
    Matches (fun es' copied => CameBack (es.flatMap (·.args)) (es'.flatMap (·.args)) es es' copied)
      (ElementInit.traverseAll es fun e _ => f e) (copyList (ElementInit.copy f) es) := by
  induction es with
  | nil => exact matches_pure (cameBack_empty [])
  | cons i es ih =>
    have hfirst : (ElementInit.traverseAll (i :: es) fun e _ => f e) =
        (each f i.args >>= fun args => pure ⟨i.addMethod, args⟩) >>= fun i' =>
          (ElementInit.traverseAll es fun e _ => f e) >>= fun rest => pure (i' :: rest) := by
      simp only [ElementInit.traverseAll, bind_assoc, pure_bind]
    rw [hfirst]
    refine (ElementInit.copy_matches f i).bind fun i' copied hi => ih.bind fun es' copied' hes => ?_
    exact matches_pure (hi.two hes List.cons)

mutual

theorem Binding.copy_matches : ∀ b : Binding Expr,
    Matches (fun b' copied => CameBack b.exprs b'.exprs b b' copied) (b.traverse fun e _ => f e)
      (b.copy f)
  | .assign m e => by
    refine (Expr.copy_matches f e).bind fun e' copied he => matches_pure ?_
    exact he.map (Binding.assign m)
  | .nested m bs => by
    refine (Binding.copyAll_matches bs).bind fun bs' copied hbs => matches_pure ?_
    exact hbs.map (Binding.nested m)
  | .elements m es => by
    refine (ElementInit.copyList_matches f es).bind fun es' copied hes => matches_pure ?_
    exact hes.map (Binding.elements m)

theorem Binding.copyAll_matches : ∀ bs : List (Binding Expr),
    Matches (fun bs' copied => CameBack (exprsOfAll bs) (exprsOfAll bs') bs bs' copied)
      (traverseAll bs fun e _ => f e) (copyAll f bs)
  | [] => matches_pure (cameBack_empty [])
  | b :: bs => by
    refine (Binding.copy_matches b).bind fun b' copied hb => ?_
    refine (Binding.copyAll_matches bs).bind fun bs' copied' hbs => matches_pure ?_
    exact hb.two hbs List.cons

end

theorem Node.copy_matches (n : Node) :
    Matches (fun n' copied => CameBack n.visitOrder n'.visitOrder n n' copied)
      (n.traverse fun c _ => f c) (n.copy f) := by
  cases n with
  | unary op e ty m =>
    refine (Expr.copy_matches f e).bind fun e' copied he => matches_pure ?_
    exact he.map (Node.unary op · ty m)
  | binary op l r c lifted m ty =>
    refine (Expr.copy_matches f l).bind fun l' copied hl => ?_
    refine (Expr.copy_matches f r).bind fun r' copied₁ hr => ?_
    refine (copyOption_matches f c).bind fun c' copied₂ hc => matches_pure ?_
    exact hl.three hr hc (fun l r c => Node.binary op l r c lifted m ty)
  | typeIs e ty =>
    refine (Expr.copy_matches f e).bind fun e' copied he => matches_pure ?_
    exact he.map (Node.typeIs · ty)
  | conditional t a b ty =>
    refine (Expr.copy_matches f t).bind fun t' copied ht => ?_
    refine (Expr.copy_matches f a).bind fun a' copied₁ ha => ?_
    refine (Expr.copy_matches f b).bind fun b' copied₂ hb => matches_pure ?_
    exact ht.three ha hb (fun t a b => Node.conditional t a b ty)
  | constant | «variable» | extension => exact matches_pure (cameBack_empty _)
  | memberAccess o m =>
    refine (copyOption_matches f o).bind fun o' copied ho => matches_pure ?_
    exact ho.map (Node.memberAccess · m)
  | call o m args =>
    refine (copyOption_matches f o).bind fun o' copied ho => ?_
    refine (copyList_matches f args).bind fun args' copied₁ hargs => matches_pure ?_
    exact ho.two hargs (fun o args => Node.call o m args)
  | lambda params body ty =>
    refine (Expr.copy_matches f body).bind fun body' copied hbody => matches_pure ?_
    exact hbody.map (Node.lambda params · ty)
  | construct c =>
    refine (Construct.copy_matches f c).bind fun c' copied hc => matches_pure ?_
    exact hc.map Node.construct
  | newArray kind elem items =>
    refine (copyList_matches f items).bind fun items' copied hitems => matches_pure ?_
    exact hitems.map (Node.newArray kind elem)
  | invocation target args ty =>
    refine (copyList_matches f args).bind fun args' copied hargs => ?_
    refine (Expr.copy_matches f target).bind fun target' copied₁ htarget => matches_pure ?_
    exact hargs.two htarget (fun args target => Node.invocation target args ty)
  | memberInit c bs =>
    refine (Construct.copy_matches f c).bind fun c' copied hc => ?_
    refine (Binding.copyAll_matches f bs).bind fun bs' copied₁ hbs => matches_pure ?_
    exact hc.two hbs Node.memberInit
  | listInit c es =>
    refine (Construct.copy_matches f c).bind fun c' copied hc => ?_
    refine (ElementInit.copyList_matches f es).bind fun es' copied₁ hes => matches_pure ?_
    exact hc.two hes Node.listInit

/-! ## Both ways to walk -/

variable {f}

theorem LabelsDecide.eq_of_map_label {cs cs' : List Expr} (h : LabelsDecide cs cs')
    (hlabels : cs'.map (·.label) = cs.map (·.label)) : cs' = cs := by
  induction cs generalizing cs' with
  | nil => exact List.map_eq_nil_iff.1 hlabels
  | cons c cs ih =>
    cases cs' with
    | nil => cases hlabels
    | cons c' cs' =>
      obtain ⟨hhead, htail⟩ := List.cons.inj hlabels
      have hfirst : c' = c := h c List.mem_cons_self c' List.mem_cons_self hhead
      have hrest : LabelsDecide cs cs' := fun d hd d' hd' =>
        h d (List.mem_cons_of_mem c hd) d' (List.mem_cons_of_mem c' hd')
      rw [hfirst, ih hrest htail]

/-- Where labels tell the results of the visits from what was there, going part by part is the same walk
through the children of an expression. -/
theorem Walk.children_eq_byParts {e : Expr} {st : WalkState σ}
    (hlabels : ∀ cs st', (each f e.node.visitOrder).Yields st cs st' →
      LabelsDecide e.node.visitOrder cs) :
    Walk.children e (fun c _ => f c) st = byParts e f st := by
  obtain ⟨n, copied, st', hn, hcopied, hback⟩ | ⟨failure, st', hn, hcopied⟩ :=
    Node.copy_matches f e.node st
  · obtain ⟨hshape, heach⟩ := Node.shape_of_traverse hn
    have hdecide := hlabels _ _ heach
    obtain ⟨hnode, hsame⟩ := hback.same hdecide
    have hchildren : LabelsDecide e.node.children n.children := fun c hc c' hc' =>
      hdecide c (Node.mem_visitOrder.2 hc) c' (Node.mem_visitOrder.2 hc')
    -- the labels of the children are compared in another order than they are visited in
    have hkept : sameChildren e.node n = true ↔ copied.isNone = true := by
      rw [hsame, sameChildren, beq_iff_eq]
      constructor
      · intro hlabels
        exact Node.visitOrder_congr hshape (hchildren.eq_of_map_label hlabels.symm)
      · intro horder
        rw [Node.eq_of_shape hshape horder]
    refine (hn.run_bind _).trans (Eq.trans ?_ (hcopied.run_bind _).symm)
    cases copied with
    | none => exact congrFun (if_pos (hkept.2 rfl)) st'
    | some n' =>
      obtain rfl : n' = n := hnode
      exact congrFun (if_neg fun h => Bool.false_ne_true (hkept.1 h)) st'
  · exact (run_bind_error hn _).trans (run_bind_error hcopied _).symm

/-! ## Fragments -/

theorem Walk.each_append (f : α → Walk σ β) (xs ys : List α) :
    each f (xs ++ ys) = each f xs >>= fun as => each f ys >>= fun bs => pure (as ++ bs) := by
  induction xs with
  | nil => simp only [each, visitList, List.nil_append, pure_bind, bind_pure]
  | cons x xs ih =>
    have hrest : (visitList (xs ++ ys) fun a _ => f a) = _ := ih
    simp only [each, visitList, List.cons_append, hrest, bind_assoc, pure_bind]

variable (f)

theorem ElementInit.map_args_traverseAll (es : List (ElementInit Expr)) :
    (fun es' => es'.flatMap (·.args)) <$> (ElementInit.traverseAll es fun e _ => f e) =
      each f (es.flatMap (·.args)) := by
  induction es with
  | nil => rfl
  | cons i es ih =>
    show _ = each f (i.args ++ es.flatMap (·.args))
    rw [each_append, ← ih]
    simp only [ElementInit.traverseAll, map_eq_pure_bind, bind_assoc, pure_bind, List.flatMap_cons]

mutual

theorem Binding.map_exprs_traverse : ∀ b : Binding Expr,
    Binding.exprs <$> (b.traverse fun e _ => f e) = each f b.exprs
  | .assign m e => by
    simp only [Binding.traverse, Binding.exprs, each, visitList, map_eq_pure_bind, bind_assoc, pure_bind]
  | .nested m bs => by
    simp only [Binding.traverse, Binding.exprs, ← Binding.map_exprsOfAll_traverseAll bs,
      map_eq_pure_bind, bind_assoc, pure_bind]
  | .elements m es => by
    simp only [Binding.traverse, Binding.exprs, ← ElementInit.map_args_traverseAll,
      map_eq_pure_bind, bind_assoc, pure_bind]

theorem Binding.map_exprsOfAll_traverseAll : ∀ bs : List (Binding Expr),
    Binding.exprsOfAll <$> (Binding.traverseAll bs fun e _ => f e) = each f (Binding.exprsOfAll bs)
  | [] => rfl
  | b :: bs => by
    simp only [Binding.exprsOfAll, each_append, ← Binding.map_exprs_traverse b,
      ← Binding.map_exprsOfAll_traverseAll bs, Binding.traverseAll, map_eq_pure_bind, bind_assoc, pure_bind]

end

/-- What copying a fragment gives, compared with visiting the expressions in it. -/
def Fragment.CameBack (x : Fragment) (cs : List Expr) (copied : Option Fragment) : Prop :=
  LabelsDecide x.exprs cs → (copied.getD x).exprs = cs ∧ (copied.isNone = true ↔ cs = x.exprs)

/-- A part whose expressions are visited in their order, as a fragment. -/
theorem Walk.Matches.fragment {x : α} {exprs : α → List Expr} {whole : Walk σ α}
    {part : Walk σ (Option α)}
    (h : Matches (fun x' copied => ExprTree.CameBack (exprs x) (exprs x') x x' copied) whole part)
    (make : α → Fragment) (hmake : ∀ a, (make a).exprs = exprs a)
    (hwhole : exprs <$> whole = each f (exprs x)) :
    Matches (make x).CameBack (each f (make x).exprs)
      (part >>= fun copied => pure (copied.map make)) := by
  rw [hmake, ← hwhole, map_eq_pure_bind]
  refine h.bind fun x' copied hback => matches_pure ?_
  have hmade := hback.map make
  intro hlabels
  rw [hmake] at hlabels ⊢
  obtain ⟨hx', hsame⟩ := hmade.same hlabels
  rw [hx', hmake]
  exact ⟨rfl, hsame⟩

/-- A fragment is copied if and only if one of the expressions in it is another one after the visit. -/
theorem Fragment.copy_matches (x : Fragment) : Matches x.CameBack (each f x.exprs) (x.copy f) := by
  cases x with
  | construct c =>
    refine (Construct.copy_matches f c).fragment f Fragment.construct (fun _ => rfl) ?_
    simp only [Construct.traverse, map_eq_pure_bind, bind_assoc, pure_bind, bind_pure]
  | binding b =>
    exact (Binding.copy_matches f b).fragment f Fragment.binding (fun _ => rfl)
      (Binding.map_exprs_traverse f b)
  | element i =>
    refine (ElementInit.copy_matches f i).fragment f Fragment.element (fun _ => rfl) ?_
    simp only [map_eq_pure_bind, bind_assoc, pure_bind, bind_pure]

end ExprTree
