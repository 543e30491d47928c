import Mathlib.Data.List.Nodup
import ExprTree.Proofs.RereadingParts

/-!
# Reading printed expressions

A legible tree, printed under names that keep its variables apart, is read again as the same tree up
to identities (`rereads`), in every place where its free variables are in scope under their printed
names and the closures that it refers to are declared.

There is a lemma for each kind of node. Only lambdas change what is in scope; the theorem for trees is
by induction over what is written inside an expression, for all scopes.
-/

namespace ExprTree

namespace Parser

section Nodes

variable {ns : Names} {like : Likening} {scopes : List (String × Variable)}
  {closures : List (String × Closure Value)} {reader : Parser Expr}

/-! ## Nodes -/

variable (ns like scopes closures reader) in
/-- The document spells lexemes that are read as the node, up to identities. -/
def NodeRereads (d : Doc) (n : Node) : Prop :=
  ∃ l ls, d.Spelled (l :: ls) ∧ l.opensExpr = true ∧
    Takes scopes closures (exprNode reader) (l :: ls) Anything
      fun n' => n'.recast (.called like) = n.recast (.printed ns like)

/-- A form that never declares a type. -/
theorem nodeRereads_headed {head : String} (hhead : isWord head = true) {docs : List Doc}
    {lss : List (List Lexeme)} (hspelled : List.Forall₂ Doc.Spelled docs lss) (inline : Nat) {n : Node}
    (hbody : ∀ span, Takes scopes closures (formBody reader head span) lss.flatten BehindParts
      fun n' => n'.recast (.called like) = n.recast (.printed ns like)) :
    NodeRereads ns like scopes closures reader (.headed head docs inline) n :=
  ⟨_, _, Doc.spelled_headed (Lexer.spells_word hhead) hspelled inline, rfl, takes_plainForm hbody⟩

/-- A form that declares its type where the parts imply another one. -/
theorem nodeRereads_annotate {head : String} (hhead : isWord head = true) {docs : List Doc}
    {lss : List (List Lexeme)} (hspelled : List.Forall₂ Doc.Spelled docs lss) (inline : Nat)
    {actual implied : Ty} (hty : actual.Declarable implied)
    (havoids : ∀ t ∈ Doc.written actual implied, t.avoidsFn = true)
    {n : Node} {P : Node → Prop}
    (hbody : ∀ span, Takes scopes closures (formBody reader head span) lss.flatten BehindParts P)
    (himplied : actual = implied → ∀ n', P n' →
      n'.recast (.called like) = n.recast (.printed ns like))
    (hdeclared : ∀ n', P n' → ∃ n'', n'.withTy? actual = some n'' ∧
      n''.recast (.called like) = n.recast (.printed ns like)) :
    NodeRereads ns like scopes closures reader ((Doc.headed head docs inline).annotate actual implied)
      n := by
  refine ⟨_, _, Doc.spelled_annotate (Lexer.spells_word hhead) hspelled inline hty.spellable, rfl,
    takes_form _ hbody ?_ ?_⟩
  · intro hnone
    refine himplied (Decidable.byContradiction fun hne => ?_)
    rw [Doc.written, if_neg hne] at hnone
    cases hnone
  · intro t ht
    have havoids := havoids t ht
    unfold Doc.written at ht
    split at ht
    · cases ht
    · next hne =>
      cases ht
      exact ⟨hty.resolve_left hne, havoids, hdeclared⟩

theorem nodeRereads_unary {op : UnaryOp} {e : Expr} {ty : Ty} {m : Option Method}
    (hformed : (Node.unary op e ty m).Formed)
    (havoids : ∀ t ∈ (Node.unary op e ty m).ownTys, t.avoidsFn = true)
    (he : Rereads ns like scopes closures reader e) :
    NodeRereads ns like scopes closures reader (Printer.node ns (.unary op e ty m))
      (.unary op e ty m) := by
  obtain ⟨rfl, hty⟩ := hformed
  obtain ⟨l, ls, hspelled, -, htakes⟩ := he
  have hword : isWord op.word = true := by cases op <;> decide
  rw [Printer.node]
  rw [Node.ownTys] at havoids
  by_cases htakesType : op.takesType = true
  · rw [if_pos htakesType] at hty havoids ⊢
    have havoids := havoids ty (List.mem_singleton_self ty)
    refine nodeRereads_headed hword (.cons hspelled (.cons (Doc.spelled_ty (Ty.spellable hty)) .nil))
      1 fun span => ?_
    rw [formBody_unary, List.flatten_cons, List.flatten_cons, List.flatten_nil, List.append_nil]
    simp only [htakesType, reduceIte]
    refine htakes.andThen fun e' he' => ?_
    refine ((takes_ty hty havoids).thenPure ?_).imp (fun _ h => h) fun _ => BehindParts.endsTy
    rintro _ rfl
    rw [Node.recast, Node.recast, he']
  · rw [if_neg htakesType] at hty havoids ⊢
    simp only [Option.mem_toList] at havoids
    refine nodeRereads_annotate hword (.cons hspelled .nil) 1 hty havoids
      (P := fun n' => ∃ e' : Expr, e'.recast (.called like) = e.recast (.printed ns like) ∧
        n' = .unaryOf op e') (fun span => ?_) ?_ ?_
    · rw [formBody_unary, List.flatten_cons, List.flatten_nil, List.append_nil]
      simp only [htakesType]
      exact (htakes.thenPure fun e' he' => ⟨e', he', rfl⟩).imp (fun _ h => h) fun _ _ => trivial
    · rintro rfl _ ⟨e', he', rfl⟩
      rw [Node.unaryOf, Node.recast, Node.recast, he', ty_eq_of_recast he']
    · rintro _ ⟨e', he', rfl⟩
      refine ⟨_, rfl, ?_⟩
      rw [Node.recast, Node.recast, he']

theorem nodeRereads_binary {op : BinaryOp} {x y : Expr} {c : Option Expr} {lifted : Bool}
    {m : Option Method} {ty : Ty} (hformed : (Node.binary op x y c lifted m ty).Formed)
    (havoids : ∀ t ∈ Doc.written ty (op.resultType x.ty y.ty), t.avoidsFn = true)
    (hx : Rereads ns like scopes closures reader x) (hy : Rereads ns like scopes closures reader y) :
    NodeRereads ns like scopes closures reader (Printer.node ns (.binary op x y c lifted m ty))
      (.binary op x y c lifted m ty) := by
  obtain ⟨rfl, rfl, rfl, hty⟩ := hformed
  obtain ⟨l, ls, hspelled, -, htakes⟩ := hx
  obtain ⟨l', ls', hspelled', -, htakes'⟩ := hy
  have hword : isWord op.word = true := by cases op <;> decide
  rw [Printer.node]
  refine nodeRereads_annotate hword (.cons hspelled (.cons hspelled' .nil)) 1 hty havoids
    (P := fun n' => ∃ x' y' : Expr, x'.recast (.called like) = x.recast (.printed ns like) ∧
      y'.recast (.called like) = y.recast (.printed ns like) ∧ n' = .binaryOf op x' y')
    (fun span => ?_) ?_ ?_
  · rw [formBody_binary, List.flatten_cons, List.flatten_cons, List.flatten_nil, List.append_nil]
    refine htakes.andThen fun x' hx' => ?_
    exact (htakes'.thenPure fun y' hy' => ⟨x', y', hx', hy', rfl⟩).imp (fun _ h => h)
      fun _ _ => trivial
  · rintro rfl _ ⟨x', y', hx', hy', rfl⟩
    rw [Node.binaryOf, Node.recast, Node.recast, hx', hy', ty_eq_of_recast hx', ty_eq_of_recast hy']
    rfl
  · rintro _ ⟨x', y', hx', hy', rfl⟩
    refine ⟨_, rfl, ?_⟩
    rw [Node.recast, Node.recast, hx', hy']
    rfl

theorem nodeRereads_typeIs {e : Expr} {ty : Ty} (hty : ty.isReadable = true)
    (havoids : ty.avoidsFn = true) (he : Rereads ns like scopes closures reader e) :
    NodeRereads ns like scopes closures reader (Printer.node ns (.typeIs e ty)) (.typeIs e ty) := by
  obtain ⟨l, ls, hspelled, -, htakes⟩ := he
  rw [Printer.node]
  refine nodeRereads_headed (by decide)
    (.cons hspelled (.cons (Doc.spelled_ty (Ty.spellable hty)) .nil)) 1 fun span => ?_
  rw [List.flatten_cons, List.flatten_cons, List.flatten_nil, List.append_nil]
  refine htakes.andThen fun e' he' => ?_
  refine ((takes_ty hty havoids).thenPure ?_).imp (fun _ h => h) fun _ => BehindParts.endsTy
  rintro _ rfl
  rw [Node.recast, Node.recast, he']

theorem nodeRereads_conditional {x y z : Expr} {ty : Ty} (hty : ty.Declarable y.ty)
    (havoids : ∀ t ∈ Doc.written ty y.ty, t.avoidsFn = true)
    (hx : Rereads ns like scopes closures reader x)
    (hy : Rereads ns like scopes closures reader y) (hz : Rereads ns like scopes closures reader z) :
    NodeRereads ns like scopes closures reader (Printer.node ns (.conditional x y z ty))
      (.conditional x y z ty) := by
  obtain ⟨l, ls, hspelled, -, htakes⟩ := hx
  obtain ⟨l', ls', hspelled', -, htakes'⟩ := hy
  obtain ⟨l'', ls'', hspelled'', -, htakes''⟩ := hz
  rw [Printer.node]
  refine nodeRereads_annotate (by decide) (.cons hspelled (.cons hspelled' (.cons hspelled'' .nil))) 1
    hty havoids (P := fun n' => ∃ x' y' z' : Expr,
      x'.recast (.called like) = x.recast (.printed ns like) ∧
      y'.recast (.called like) = y.recast (.printed ns like) ∧
      z'.recast (.called like) = z.recast (.printed ns like) ∧ n' = .conditionalOf x' y' z')
    (fun span => ?_) ?_ ?_
  · rw [List.flatten_cons, List.flatten_cons, List.flatten_cons, List.flatten_nil, List.append_nil]
    refine htakes.andThen fun x' hx' => htakes'.andThen fun y' hy' => ?_
    exact (htakes''.thenPure fun z' hz' => ⟨x', y', z', hx', hy', hz', rfl⟩).imp (fun _ h => h)
      fun _ _ => trivial
  · rintro rfl _ ⟨x', y', z', hx', hy', hz', rfl⟩
    rw [Node.conditionalOf, Node.recast, Node.recast, hx', hy', hz', ty_eq_of_recast hy']
  · rintro _ ⟨x', y', z', hx', hy', hz', rfl⟩
    refine ⟨_, rfl, ?_⟩
    rw [Node.recast, Node.recast, hx', hy', hz']

theorem nodeRereads_constant {v : Value} {ty : Ty} (hty : v.isBare ty = true ∨ ty.isReadable = true)
    (havoids : v.isBare ty = false → ty.avoidsFn = true)
    (hv : PayloadRereads ns like scopes closures reader v) :
    NodeRereads ns like scopes closures reader (Printer.node ns (.constant v ty))
      (.constant v ty) := by
  rw [Printer.node]
  by_cases hbare : v.isBare ty = true
  · rw [if_pos hbare]
    exact takes_bare hv hbare
  · rw [if_neg hbare]
    have hty := hty.resolve_left hbare
    have havoids := havoids (Bool.not_eq_true _ ▸ hbare)
    obtain ⟨ls, hspelled, htakes⟩ := takes_value hv
    refine nodeRereads_headed (by decide)
      (.cons hspelled (.cons (Doc.spelled_ty (Ty.spellable hty)) .nil)) 1 fun span => ?_
    rw [List.flatten_cons, List.flatten_cons, List.flatten_nil, List.append_nil]
    refine htakes.andThen fun v' hv' => ?_
    refine ((takes_ty hty havoids).thenPure ?_).imp (fun _ h => h) fun _ => BehindParts.endsTy
    rintro _ rfl
    rw [Node.recast, Node.recast, hv']

/-- A name is read as the variable in scope. -/
theorem nodeRereads_variable {v v' : Variable} (hword : isWord (ns.name v) = true)
    (hlookup : scopes.lookup (ns.name v) = some v') (hname : v'.name = ns.name v)
    (hty : v'.ty = v.ty) :
    NodeRereads ns like scopes closures reader (Printer.node ns (.variable v)) (.variable v) := by
  rw [Printer.node]
  refine ⟨_, [], Doc.spelled_text (Lexer.spells_word hword), rfl, takes_peek (takes_peekSpan fun _ =>
    takes_advance (takes_get fun s hs _ _ _ => ?_))⟩
  simp only [hs, hlookup]
  refine takes_pure ?_
  simp only [Node.recast, Recasting.called, Recasting.printed, hname, hty]

theorem nodeRereads_memberAccess {o : Option Expr} {m : Member}
    (hm : MemberRereads like closures m)
    (ho : ∀ e ∈ o.toList, Rereads ns like scopes closures reader e) :
    NodeRereads ns like scopes closures reader (Printer.node ns (.memberAccess o m))
      (.memberAccess o m) := by
  obtain ⟨hreadable, havoids, howner⟩ := hm
  obtain ⟨hownerWord, hnameWord, hty⟩ := Member.isReadable_iff.1 hreadable
  obtain ⟨ls, hspelled, htakes⟩ := takes_object ho
  rw [Printer.node]
  refine nodeRereads_headed (isWord_kind _) (.cons hspelled
    (.cons (Doc.spelled_text (spells_path hownerWord hnameWord))
      (.cons (Doc.spelled_ty (Ty.spellable hty)) .nil))) 1 fun span => ?_
  rw [List.flatten_cons, List.flatten_cons, List.flatten_cons, List.flatten_nil, List.append_nil]
  have hbody : formBody reader m.kind.word span = (do
      let object ← object reader
      return .memberAccess object (← memberTail m.kind)) := by
    cases m.kind <;> rfl
  rw [hbody]
  refine htakes.andThen fun o' ho' => ?_
  refine ((takes_memberTail hty havoids).thenPure ?_).imp (fun _ h => h) fun _ => BehindParts.endsTy
  rintro _ rfl
  rw [Node.recast, Node.recast, ho'.2, recast_ownerIn howner]

theorem nodeRereads_construct {c : Construct Expr} (hc : c.Legible) (havoids : c.ty.avoidsFn = true)
    (hmembers : ∀ m ∈ c.members.getD [], MemberRereads like closures m)
    (hargs : ∀ e ∈ c.args, Rereads ns like scopes closures reader e) :
    NodeRereads ns like scopes closures reader (Printer.node ns (.construct c)) (.construct c) := by
  obtain ⟨ls, hspelled, htakes⟩ := takes_construct hc havoids hmembers hargs
  rw [Printer.node]
  refine ⟨_, _, hspelled, rfl, takes_plainForm fun span => ?_⟩
  refine (htakes.thenPure fun c' hc' => ?_).imp (fun _ h => h) fun _ => BehindParts.endsForms
  rw [Node.recast, Node.recast, hc']

theorem nodeRereads_newArray {kind : ArrayKind} {elem : Ty} {items : List Expr}
    (hty : elem.isReadable = true) (havoids : elem.avoidsFn = true)
    (hitems : ∀ e ∈ items, Rereads ns like scopes closures reader e) :
    NodeRereads ns like scopes closures reader (Printer.node ns (.newArray kind elem items))
      (.newArray kind elem items) := by
  obtain ⟨lss, hspelled, hends, htakes⟩ := takes_exprs hitems
  have hbody : ∀ head span, (formBody reader head span = do
      let elem ← ty
      return .newArray kind elem (← exprs reader)) →
      Takes scopes closures (formBody reader head span) ((elem.lexemes :: lss).flatten) BehindParts
        fun n' => n'.recast (.called like) =
          (Node.newArray kind elem items).recast (.printed ns like) := by
    intro head span heq
    rw [heq, List.flatten_cons]
    refine (takes_ty hty havoids).bind ?_ fun l hl => hends l (BehindParts.endsTy hl)
    rintro _ rfl
    refine (htakes.thenPure fun es' hes' => ?_).imp (fun _ h => h) fun _ => BehindParts.endsExprs
    rw [Node.recast, Node.recast, hes']
  have hdocs := List.Forall₂.cons (Doc.spelled_ty (Ty.spellable hty)) hspelled
  cases kind with
  | elements =>
    rw [Printer.node]
    exact nodeRereads_headed (by decide) hdocs 2 fun span => hbody _ span rfl
  | bounds =>
    rw [Printer.node]
    exact nodeRereads_headed (by decide) hdocs 2 fun span => hbody _ span rfl

theorem nodeRereads_invocation {target : Expr} {args : List Expr} {ty : Ty}
    (hty : ty.Declarable target.ty.callResult)
    (havoids : ∀ t ∈ Doc.written ty target.ty.callResult, t.avoidsFn = true)
    (htarget : Rereads ns like scopes closures reader target)
    (hargs : ∀ e ∈ args, Rereads ns like scopes closures reader e) :
    NodeRereads ns like scopes closures reader (Printer.node ns (.invocation target args ty))
      (.invocation target args ty) := by
  obtain ⟨l, ls, hspelled, -, htakes⟩ := htarget
  obtain ⟨lss, hspelled', -, htakes'⟩ := takes_exprs hargs
  rw [Printer.node]
  refine nodeRereads_annotate (by decide) (.cons hspelled hspelled') 1 hty havoids
    (P := fun n' => ∃ (t' : Expr) (as' : List Expr),
      t'.recast (.called like) = target.recast (.printed ns like) ∧
      Expr.recastList (.called like) as' = Expr.recastList (.printed ns like) args ∧
      n' = .invokeOf t' as') (fun span => ?_) ?_ ?_
  · rw [List.flatten_cons]
    refine htakes.andThen fun t' ht' => ?_
    exact (htakes'.thenPure fun as' has' => ⟨t', as', ht', has', rfl⟩).imp (fun _ h => h)
      fun _ => BehindParts.endsExprs
  · rintro rfl _ ⟨t', as', ht', has', rfl⟩
    rw [Node.invokeOf, Node.recast, Node.recast, ht', has', ty_eq_of_recast ht']
  · rintro _ ⟨t', as', ht', has', rfl⟩
    refine ⟨_, rfl, ?_⟩
    rw [Node.recast, Node.recast, ht', has']

theorem nodeRereads_extension {kind : String} {ty : Ty} (hkind : isWord kind = true)
    (hty : ty.isReadable = true) (havoids : ty.avoidsFn = true) :
    NodeRereads ns like scopes closures reader (Printer.node ns (.extension kind ty))
      (.extension kind ty) := by
  rw [Printer.node]
  refine nodeRereads_headed (by decide) (.cons (Doc.spelled_text (Lexer.spells_word hkind))
    (.cons (Doc.spelled_ty (Ty.spellable hty)) .nil)) 1 fun span => ?_
  rw [List.flatten_cons, List.flatten_cons, List.flatten_nil, List.append_nil, List.singleton_append]
  refine takes_expectIdent fun _ => ?_
  refine ((takes_ty hty havoids).thenPure ?_).imp (fun _ h => h) fun _ => BehindParts.endsTy
  rintro _ rfl
  rfl

theorem takes_constructForm {c : Construct Expr} {ls : List Lexeme}
    (htakes : Takes scopes closures (constructTail reader) ls (· ≠ .lparen) fun c' =>
      Expr.recastConstruct (.called like) c' = Expr.recastConstruct (.printed ns like) c) :
    Takes scopes closures (constructForm reader) (.lparen :: .ident "new" :: (ls ++ [.rparen]))
      Anything fun c' =>
        Expr.recastConstruct (.called like) c' = Expr.recastConstruct (.printed ns like) c := by
  refine takes_expect fun _ => takes_expectIdent fun _ => ?_
  exact htakes.bind (fun c' hc' => takes_expect fun _ => takes_pure hc')
    fun _ _ => Lexeme.noConfusion

theorem nodeRereads_memberInit {c : Construct Expr} {bs : List (Binding Expr)} (hc : c.Legible)
    (havoids : c.ty.avoidsFn = true)
    (hmembers : ∀ m ∈ c.members.getD [] ++ Binding.membersOfAll bs, MemberRereads like closures m)
    (hadd : ∀ m ∈ Binding.addMethodsOfAll bs, m.IsAdd)
    (hexprs : ∀ e ∈ c.args ++ Binding.exprsOfAll bs, Rereads ns like scopes closures reader e) :
    NodeRereads ns like scopes closures reader (Printer.node ns (.memberInit c bs))
      (.memberInit c bs) := by
  obtain ⟨ls, hspelled, htakes⟩ := takes_construct hc havoids
    (fun m hm => hmembers m (List.mem_append_left _ hm))
    fun e he => hexprs e (List.mem_append_left _ he)
  obtain ⟨lss, hspelled', htakes'⟩ := takes_bindings
    (fun m hm => hmembers m (List.mem_append_right _ hm)) hadd
    fun e he => hexprs e (List.mem_append_right _ he)
  rw [Printer.node]
  refine nodeRereads_headed (by decide) (.cons hspelled hspelled') 1 fun span => ?_
  rw [List.flatten_cons]
  refine (takes_constructForm htakes).andThen fun c' hc' => ?_
  refine (htakes'.thenPure fun bs' hbs' => ?_).imp (fun _ h => h) fun _ => BehindParts.endsForms
  rw [Node.recast, Node.recast, hc', hbs']

theorem nodeRereads_listInit {c : Construct Expr} {es : List (ElementInit Expr)} (hc : c.Legible)
    (havoids : c.ty.avoidsFn = true)
    (hmembers : ∀ m ∈ c.members.getD [], MemberRereads like closures m)
    (hadd : ∀ m ∈ es.map (·.addMethod), m.IsAdd)
    (hexprs : ∀ e ∈ c.args ++ es.flatMap (·.args), Rereads ns like scopes closures reader e) :
    NodeRereads ns like scopes closures reader (Printer.node ns (.listInit c es))
      (.listInit c es) := by
  obtain ⟨ls, hspelled, htakes⟩ := takes_construct hc havoids hmembers
    fun e he => hexprs e (List.mem_append_left _ he)
  obtain ⟨lss, hspelled', htakes'⟩ := takes_elements (fun i hi => hadd _ (List.mem_map_of_mem hi))
    fun e he => hexprs e (List.mem_append_right _ he)
  rw [Printer.node]
  refine nodeRereads_headed (by decide) (.cons hspelled hspelled') 1 fun span => ?_
  rw [List.flatten_cons]
  refine (takes_constructForm htakes).andThen fun c' hc' => ?_
  refine (htakes'.thenPure fun es' hes' => ?_).imp (fun _ h => h) fun _ => BehindParts.endsForms
  rw [Node.recast, Node.recast, hc', hes']

/-- A call of a marker that invokes its first argument. -/
theorem nodeRereads_invoke {target : Expr} {args : List Expr} {ret : Ty}
    (hret : ret.Declarable target.ty.callResult)
    (havoids : ∀ t ∈ Doc.written ret target.ty.callResult, t.avoidsFn = true)
    (htarget : Rereads ns like scopes closures reader target)
    (hargs : ∀ e ∈ args, Rereads ns like scopes closures reader e) :
    NodeRereads ns like scopes closures reader
      ((Doc.headed "invoke!" (Printer.exprs ns (target :: args))).annotate ret target.ty.callResult)
      (.call none (.ofMarker .invoke ret) (target :: args)) := by
  obtain ⟨l, ls, hspelled, -, htakes⟩ := htarget
  obtain ⟨lss, hspelled', -, htakes'⟩ := takes_exprs hargs
  rw [Printer.exprs]
  refine nodeRereads_annotate (by decide) (.cons hspelled hspelled') 1 hret havoids
    (P := fun n' => ∃ (t' : Expr) (as' : List Expr),
      t'.recast (.called like) = target.recast (.printed ns like) ∧
      Expr.recastList (.called like) as' = Expr.recastList (.printed ns like) args ∧
      n' = .invokeMarked t' as') (fun span => ?_) ?_ ?_
  · rw [List.flatten_cons]
    refine htakes.andThen fun t' ht' => ?_
    exact (htakes'.thenPure fun as' has' => ⟨t', as', ht', has', rfl⟩).imp (fun _ h => h)
      fun _ => BehindParts.endsExprs
  · rintro rfl _ ⟨t', as', ht', has', rfl⟩
    simp only [Node.invokeMarked, Node.recast, Expr.recastList, Expr.recastOption, ht', has',
      ty_eq_of_recast ht']
  · rintro _ ⟨t', as', ht', has', rfl⟩
    refine ⟨_, rfl, ?_⟩
    simp only [Node.recast, Expr.recastList, Expr.recastOption, ht', has']
    rfl

/-- A call of a marker around a query. -/
theorem nodeRereads_expandable {query : Expr} {ret : Ty} (hret : ret.Declarable query.ty)
    (havoids : ∀ t ∈ Doc.written ret query.ty, t.avoidsFn = true)
    (hquery : Rereads ns like scopes closures reader query) :
    NodeRereads ns like scopes closures reader
      ((Doc.headed "expandable" (Printer.exprs ns [query])).annotate ret query.ty)
      (.call none (.ofMarker .asExpandable ret) [query]) := by
  obtain ⟨l, ls, hspelled, -, htakes⟩ := hquery
  refine nodeRereads_annotate (by decide) (.cons hspelled .nil) 1 hret havoids
    (P := fun n' => ∃ q' : Expr, q'.recast (.called like) = query.recast (.printed ns like) ∧
      n' = .expandableOf q') (fun span => ?_) ?_ ?_
  · rw [List.flatten_cons, List.flatten_nil, List.append_nil]
    exact (htakes.thenPure fun q' hq' => ⟨q', hq', rfl⟩).imp (fun _ h => h) fun _ _ => trivial
  · rintro rfl _ ⟨q', hq', rfl⟩
    simp only [Node.expandableOf, Node.recast, Expr.recastList, Expr.recastOption, hq',
      ty_eq_of_recast hq']
  · rintro _ ⟨q', hq', rfl⟩
    refine ⟨_, rfl, ?_⟩
    simp only [Node.recast, Expr.recastList, Expr.recastOption, hq']
    rfl

/-- A call of a marker that compiles a tree. -/
theorem nodeRereads_compile {tree : Expr} {ret : Ty} (hret : ret.Declarable tree.ty.delegate)
    (havoids : ∀ t ∈ Doc.written ret tree.ty.delegate, t.avoidsFn = true)
    (htree : Rereads ns like scopes closures reader tree) :
    NodeRereads ns like scopes closures reader
      ((Doc.headed "compile" [Printer.object ns (some tree)]).annotate ret tree.ty.delegate)
      (.call (some tree) (.ofMarker .compile ret) []) := by
  obtain ⟨l, ls, hspelled, -, htakes⟩ := htree
  rw [Printer.object]
  refine nodeRereads_annotate (by decide) (.cons hspelled .nil) 1 hret havoids
    (P := fun n' => ∃ t' : Expr, t'.recast (.called like) = tree.recast (.printed ns like) ∧
      n' = .compileOf t') (fun span => ?_) ?_ ?_
  · rw [List.flatten_cons, List.flatten_nil, List.append_nil]
    exact (htakes.thenPure fun t' ht' => ⟨t', ht', rfl⟩).imp (fun _ h => h) fun _ _ => trivial
  · rintro rfl _ ⟨t', ht', rfl⟩
    simp only [Node.compileOf, Node.recast, Expr.recastList, Expr.recastOption, ht',
      ty_eq_of_recast ht']
  · rintro _ ⟨t', ht', rfl⟩
    refine ⟨_, rfl, ?_⟩
    simp only [Node.recast, Expr.recastList, Expr.recastOption, ht']
    rfl

theorem nodeRereads_plainCall {o : Option Expr} {m : Method} {args : List Expr}
    (hmarker : m.marker = none) (howner : isWord m.owner = true) (hname : isWord m.name = true)
    (hstatic : m.isStatic = o.isNone) (hret : m.ret.isReadable = true) (havoids : m.ret.avoidsFn = true)
    (ho : ∀ e ∈ o.toList, Rereads ns like scopes closures reader e)
    (hargs : ∀ e ∈ args, Rereads ns like scopes closures reader e) :
    NodeRereads ns like scopes closures reader
      (.headed "call" [Printer.object ns o, .text m.path, .list (Printer.exprs ns args),
        .text m.ret.text]) (.call o m args) := by
  obtain ⟨ls, hspelled, htakes⟩ := takes_object ho
  obtain ⟨lss, hspelled', -, htakes'⟩ := takes_exprs hargs
  refine nodeRereads_headed (by decide) (.cons hspelled
    (.cons (Doc.spelled_text (spells_path howner hname)) (.cons (Doc.spelled_list hspelled')
      (.cons (Doc.spelled_ty (Ty.spellable hret)) .nil)))) 1 fun span => ?_
  rw [List.flatten_cons, List.flatten_cons, List.flatten_cons, List.flatten_cons, List.flatten_nil,
    List.append_nil, List.cons_append, List.append_assoc]
  refine htakes.andThen fun o' ho' => (takes_path _ _).andThen ?_
  rintro _ rfl
  refine takes_expect fun _ => htakes'.bind (fun as' has' => takes_expect fun _ => ?_)
    fun _ _ => .inl rfl
  refine ((takes_ty hret havoids).thenPure ?_).imp (fun _ h => h) fun _ => BehindParts.endsTy
  rintro _ rfl
  obtain ⟨mowner, mname, isStatic, ret, marker⟩ := m
  obtain rfl : isStatic = o'.isNone := hstatic.trans ho'.1.symm
  obtain rfl : marker = none := hmarker
  rw [Node.recast, Node.recast, ho'.2, has']

theorem nodeRereads_call {o : Option Expr} {m : Method} {args : List Expr}
    (hformed : m.CallFormed o args) (havoids : ∀ t ∈ Node.callTys m o args, t.avoidsFn = true)
    (hexprs : ∀ e ∈ o.toList ++ args, Rereads ns like scopes closures reader e) :
    NodeRereads ns like scopes closures reader (Printer.node ns (.call o m args))
      (.call o m args) := by
  have ho : ∀ e ∈ o.toList, Rereads ns like scopes closures reader e :=
    fun e he => hexprs e (List.mem_append_left _ he)
  have hargs : ∀ e ∈ args, Rereads ns like scopes closures reader e :=
    fun e he => hexprs e (List.mem_append_right _ he)
  rw [Printer.node_call]
  unfold Method.CallFormed at hformed
  split at hformed
  · next target as hmarker =>
    obtain ⟨hm, hret⟩ := hformed
    simp only [Node.callTys, hmarker, Option.mem_toList] at havoids
    simp only [Printer.callDoc, hmarker]
    have hcall := nodeRereads_invoke hret havoids (hargs target List.mem_cons_self)
      fun e he => hargs e (List.mem_cons_of_mem _ he)
    rwa [← hm] at hcall
  · next query hmarker =>
    obtain ⟨hm, hret⟩ := hformed
    simp only [Node.callTys, hmarker, Option.mem_toList] at havoids
    simp only [Printer.callDoc, hmarker]
    have hcall := nodeRereads_expandable hret havoids (hargs query (List.mem_singleton_self query))
    rwa [← hm] at hcall
  · next tree hmarker =>
    obtain ⟨hm, hret⟩ := hformed
    simp only [Node.callTys, hmarker, Option.mem_toList] at havoids
    simp only [Printer.callDoc, hmarker]
    have hcall := nodeRereads_compile hret havoids (ho tree (List.mem_singleton_self tree))
    rwa [← hm] at hcall
  · next hmarker =>
    obtain ⟨howner, hname, hstatic, hret⟩ := hformed
    simp only [Node.callTys, hmarker, List.mem_singleton, forall_eq] at havoids
    simp only [Printer.callDoc, hmarker]
    exact nodeRereads_plainCall hmarker howner hname hstatic hret havoids ho hargs
  · exact hformed.elim

/-! ## Lambdas -/

/-- What is read while more variables are in scope. -/
theorem takes_inScope {α β : Type} {x : Parser α} {f : α → β} {ls : List Lexeme} {next : Lexeme → Prop}
    {P : α → Prop} {Q : β → Prop} {more : List (String × Variable)}
    (hx : Takes (more ++ scopes) closures x ls next P) (hf : ∀ a, P a → Q (f a)) :
    Takes scopes closures (do
      let outer := (← get).scopes
      modify fun s => { s with scopes := more ++ outer }
      let a ← x
      modify fun s => { s with scopes := outer }
      return f a) ls next Q := by
  intro s hscopes hclosures l rest hl hs
  subst hscopes
  obtain ⟨a, tokens, supply, hrun, htokens, ha⟩ :=
    hx { s with scopes := more ++ s.scopes } rfl hclosures l rest hl hs
  refine ⟨f a, tokens, supply, ?_, htokens, hf a ha⟩
  show (f (x { s with scopes := more ++ s.scopes }).1,
    { (x { s with scopes := more ++ s.scopes }).2 with scopes := s.scopes }) = _
  rw [hrun]

variable (ns) in
/-- The second variable has the printed name and the type of the first. -/
def Stands (v v' : Variable) : Prop := v'.name = ns.name v ∧ v'.ty = v.ty

theorem takes_params {params : List Variable} (done acc : List Variable)
    (hacc : List.Forall₂ (Stands ns) done acc.reverse)
    (hnodup : ((done ++ params).map ns.name).Nodup)
    (htys : ∀ p ∈ params, p.ty.isReadable = true ∧ p.ty.avoidsFn = true) :
    Takes scopes closures (iterate (· == .lparen) paramStep acc) (params.flatMap (paramLexemes ns))
      (· = .rparen) fun acc' => List.Forall₂ (Stands ns) (done ++ params) acc'.reverse := by
  induction params generalizing done acc with
  | nil =>
    rw [List.append_nil]
    refine takes_iterate_stop ?_ hacc
    rintro _ rfl
    rfl
  | cons p params ih =>
    obtain ⟨hreadable, havoids⟩ := htys p List.mem_cons_self
    have hnew : acc.any (·.name == ns.name p) = false := by
      have hnames : acc.reverse.map (·.name) = done.map ns.name :=
        map_eq_of_forall₂ (hacc.imp fun _ _ h => h.1)
      rw [List.map_append, List.map_cons, List.nodup_append] at hnodup
      rw [List.any_eq_false]
      intro v hv heq
      have hmem : v.name ∈ done.map ns.name :=
        hnames ▸ List.mem_map_of_mem (List.mem_reverse.2 hv)
      exact hnodup.2.2 _ hmem _ List.mem_cons_self (beq_iff_eq.1 heq)
    rw [List.flatMap_cons, paramLexemes]
    refine takes_iterate_go Anything rfl ?_ fun _ _ => trivial
    refine takes_advance (takes_expectIdent fun _ => ?_)
    refine (takes_ty hreadable havoids).bind ?_ fun _ _ => Lexeme.noConfusion
    rintro _ rfl
    refine takes_expect fun _ => ?_
    simp only [hnew]
    refine takes_allocVariable fun id => takes_pure ⟨?_, rfl⟩
    have hrest := ih (done ++ [p]) (⟨id, ns.name p, p.ty⟩ :: acc) (by
      rw [List.reverse_cons]
      exact List.rel_append hacc (.cons ⟨rfl, rfl⟩ .nil)) (by simpa using hnodup)
      fun q hq => htys q (List.mem_cons_of_mem _ hq)
    rwa [List.append_assoc, List.singleton_append] at hrest

theorem recast_of_stands {params params' : List Variable}
    (h : List.Forall₂ (Stands ns) params params') :
    params'.map (Recasting.called like).var = params.map (Recasting.printed ns like).var :=
  map_eq_of_forall₂ (h.imp fun v v' hv => by simp only [Recasting.called, Recasting.printed, hv.1, hv.2])

/-- A lambda is read again if its body is, wherever variables with the printed names of the
parameters are in scope. -/
theorem nodeRereads_lambda {params : List Variable} {body : Expr} {ty : Ty}
    (hnodup : (params.map ns.name).Nodup) (hwords : ∀ p ∈ params, isWord (ns.name p) = true)
    (htys : ∀ p ∈ params, p.ty.isReadable = true ∧ p.ty.avoidsFn = true)
    (hty : ty.Declarable (Node.lambdaTy params body))
    (havoids : ∀ t ∈ Doc.written ty (Node.lambdaTy params body), t.avoidsFn = true)
    (hbody : ∀ params', List.Forall₂ (Stands ns) params (params' : List Variable).reverse →
      Rereads ns like (params'.map (fun v => (v.name, v)) ++ scopes) closures reader body) :
    NodeRereads ns like scopes closures reader (Printer.node ns (.lambda params body ty))
      (.lambda params body ty) := by
  -- the lexemes of the body do not depend on what is in scope
  obtain ⟨ls, hspelled, htakes⟩ : ∃ ls, (Printer.expr ns body).Spelled ls ∧
      ∀ params', List.Forall₂ (Stands ns) params (params' : List Variable).reverse →
        Takes (params'.map (fun v => (v.name, v)) ++ scopes) closures reader ls Anything
          fun e' => e'.recast (.called like) = body.recast (.printed ns like) := by
    have hsome : List.Forall₂ (Stands ns) params
        (params.map fun p => (⟨0, ns.name p, p.ty⟩ : Variable)).reverse.reverse := by
      rw [List.reverse_reverse, List.forall₂_map_right_iff, List.forall₂_same]
      exact fun p _ => ⟨rfl, rfl⟩
    obtain ⟨l, ls, hspelled, -⟩ := hbody _ hsome
    refine ⟨l :: ls, hspelled, fun params' hparams' => ?_⟩
    obtain ⟨l', ls', hspelled', -, htakes⟩ := hbody params' hparams'
    rwa [hspelled.flat.unique hspelled'.flat]
  rw [Printer.node]
  refine nodeRereads_annotate (by decide)
    (.cons (spelled_paramsDoc fun p hp => ⟨hwords p hp, Ty.spellable (htys p hp).1⟩)
      (.cons hspelled .nil)) 2 hty
    havoids (P := fun n' => ∃ (ps' : List Variable) (b' : Expr),
      List.Forall₂ (Stands ns) params ps' ∧
      b'.recast (.called like) = body.recast (.printed ns like) ∧ n' = .lambdaOf ps' b')
    (fun span => ?_) ?_ ?_
  · rw [List.flatten_cons, List.flatten_cons, List.flatten_nil, List.append_nil, List.cons_append,
      List.append_assoc]
    refine takes_expect fun _ => (takes_params [] [] .nil hnodup htys).bind (fun params' hparams' => ?_)
      fun _ _ => rfl
    refine takes_expect fun _ => ?_
    exact (takes_inScope (htakes params' hparams') fun b' hb' => ⟨_, b', hparams', hb', rfl⟩).imp
      (fun _ h => h) fun _ _ => trivial
  · rintro rfl _ ⟨ps', b', hps', hb', rfl⟩
    have htys' : ps'.map (·.ty) = params.map (·.ty) := map_eq_of_forall₂ (hps'.imp fun _ _ h => h.2)
    rw [Node.lambdaOf, Node.lambdaTy, Node.lambdaTy, Node.recast, Node.recast, hb',
      recast_of_stands hps', htys', ty_eq_of_recast hb']
  · rintro _ ⟨ps', b', hps', hb', rfl⟩
    refine ⟨_, rfl, ?_⟩
    rw [Node.recast, Node.recast, hb', recast_of_stands hps']

end Nodes

/-! ## Trees -/

/-- The names keep the variables of a set apart, and apart from the closures. -/
structure Distinguishes (ns : Names) (closures : List (String × Closure Value)) (V : Variable → Prop) :
    Prop where
  word : ∀ v, V v → isWord (ns.name v) = true
  inj : ∀ v w, V v → V w → ns.name v = ns.name w → v = w
  apart : ∀ v, V v → closures.lookup (ns.name v) = none

end Parser

/-- The float that a payload is. -/
def Value.float? : Value → Option Binary64
  | .float x => some x
  | _ => none

/-- The floats at a node: the one that its constant is, and those in the fields of the closures that the
constant refers to. -/
def Node.floats : Node → List Binary64
  | .constant v _ => v.float?.toList ++ v.closures.flatMap fun c => c.fields.filterMap (·.2.float?)
  | _ => []

namespace Parser

/-- An expression can be printed and read again as far as itself is concerned: it is legible, no type
written at it uses `Fn` as a plain name, its floats are read back, and its variables are in the set. -/
structure Printable (V : Variable → Prop) (a : Expr) : Prop where
  legible : a.node.Legible
  avoids : ∀ t ∈ a.node.tys, t.avoidsFn = true
  float : ∀ x ∈ a.node.floats, x.readsBack = true
  vars : ∀ v ∈ a.node.vars, V v

/-- What is in scope where an expression is read again: its free variables under their printed names,
and nothing but printed names; the closures that it refers to; and owners that count as equal. -/
structure Surroundings (ns : Names) (like : Likening) (closures : List (String × Closure Value))
    (V : Variable → Prop) (scopes : List (String × Variable)) (e : Expr) : Prop where
  vars : ∀ v ∈ e.freeVars, ∃ v', scopes.lookup (ns.name v) = some v' ∧ Stands ns v v'
  names : ∀ b ∈ scopes, ∃ v, V v ∧ b.1 = ns.name v
  references : ∀ c ∈ e.references, Declared ns like closures c
  owners : ∀ m ∈ e.members, like.owner (ownerIn closures m.owner.name) = like.owner m.owner

section Trees

variable {ns : Names} {like : Likening} {closures : List (String × Closure Value)}
  {V : Variable → Prop} {scopes : List (String × Variable)} {c e : Expr}

theorem Surroundings.inner (h : Surroundings ns like closures V scopes e) (hc : c ∈ e.inner)
    (hparams : e.node.params = []) : Surroundings ns like closures V scopes c where
  vars v hv := h.vars v (Expr.mem_freeVars.2 (.inr ⟨by simp [hparams], c, hc, hv⟩))
  names := h.names
  references r hr := h.references r (Expr.mem_gather_of_inner hc hr)
  owners m hm := h.owners m (Expr.mem_gather_of_inner hc hm)

theorem lookup_named (vs : List Variable) (name : String) :
    (vs.map fun v => (v.name, v)).lookup name = vs.find? (·.name == name) := by
  induction vs with
  | nil => rfl
  | cons v vs ih =>
    rw [List.map_cons, List.lookup_cons, List.find?_cons, ih, BEq.comm (a := name)]

/-- In the body of a lambda its parameters are in scope. -/
theorem Surroundings.body (hns : Distinguishes ns closures V)
    (h : Surroundings ns like closures V scopes e) (hc : c ∈ e.inner)
    (hparams : ∀ p ∈ e.node.params, V p) (hbody : ∀ v ∈ c.freeVars, V v) {params' : List Variable}
    (hstands : List.Forall₂ (Stands ns) e.node.params params'.reverse) :
    Surroundings ns like closures V (params'.map (fun v => (v.name, v)) ++ scopes) c where
  vars v hv := by
    rw [List.lookup_append, lookup_named]
    cases hfind : params'.find? (·.name == ns.name v) with
    | some v' =>
      obtain ⟨p, hp, hpv⟩ := exists_of_mem_right hstands
        (List.mem_reverse.2 (List.mem_of_find?_eq_some hfind))
      have hname : v'.name = ns.name v := by simpa using List.find?_some hfind
      obtain rfl := hns.inj p v (hparams p hp) (hbody v hv) (hpv.1.symm.trans hname)
      exact ⟨v', rfl, hpv⟩
    | none =>
      have hout : v ∉ e.node.params := by
        intro hp
        obtain ⟨v', hv', hstand⟩ := exists_of_mem_left hstands hp
        have hne := List.find?_eq_none.1 hfind v' (List.mem_reverse.1 hv')
        exact hne (beq_iff_eq.2 hstand.1)
      exact h.vars v (Expr.mem_freeVars.2 (.inr ⟨hout, c, hc, hv⟩))
  names b hb := by
    rcases List.mem_append.1 hb with hb | hb
    · obtain ⟨v', hv', rfl⟩ := List.mem_map.1 hb
      obtain ⟨p, hp, hstand⟩ := exists_of_mem_right hstands (List.mem_reverse.2 hv')
      exact ⟨p, hparams p hp, hstand.1⟩
    · exact h.names b hb
  references r hr := h.references r (Expr.mem_gather_of_inner hc hr)
  owners m hm := h.owners m (Expr.mem_gather_of_inner hc hm)

theorem vars_of_printable (h : e.Everywhere (Printable V)) : ∀ v ∈ e.freeVars, V v := by
  induction e using Expr.innerInduction with
  | step e ih =>
    intro v hv
    rcases Expr.mem_freeVars.1 hv with hown | ⟨-, c, hc, hv⟩
    · exact h.here.vars v (List.mem_append_left _ hown)
    · exact ih c hc (h.part (Expr.mem_parts_of_mem_inner hc)) v hv

/-- The payload of a constant is read again if the tree it carries is. -/
theorem payloadRereads {reader : Parser Expr} {v : Value} {t : Ty}
    (h : Surroundings ns like closures V scopes e) (hns : Distinguishes ns closures V)
    (he : Printable V e) (hnode : e.node = .constant v t)
    (htree : ∀ t, v = .tree t → Rereads ns like scopes closures reader t) :
    PayloadRereads ns like scopes closures reader v where
  float x hx := he.float x (by simp [hnode, hx, Node.floats, Value.float?])
  closure c hc := by
    have hreference : c ∈ e.node.reference := by
      rw [hnode, hc]
      exact List.mem_singleton_self c
    have hdeclared := h.references c (Expr.mem_gather_here hreference)
    refine ⟨he.legible.reference c hreference, ?_, hdeclared⟩
    -- the names in scope are those of variables, which no closure has
    rw [List.lookup_eq_none_iff]
    rintro b hb
    obtain ⟨w, hw, hname⟩ := h.names b hb
    obtain ⟨c', hlookup, -⟩ := hdeclared
    rw [bne_iff_ne, hname]
    rintro heq
    rw [heq, hns.apart w hw] at hlookup
    cases hlookup
  tree := htree

/-- A printable tree is read again where its surroundings are. -/
theorem rereads (hns : Distinguishes ns closures V) (e : Expr) : ∀ scopes levels, e.nesting ≤ levels →
    e.Everywhere (Printable V) → Surroundings ns like closures V scopes e →
    Rereads ns like scopes closures (expr levels) e := by
  induction e using Expr.innerInduction with
  | step e ih =>
    rintro scopes (_ | levels) hlevels hprintable hscopes
    · exact absurd hlevels (Nat.not_le.2 e.nesting_pos)
    have hbelow : ∀ c ∈ e.inner, ∀ scopes, Surroundings ns like closures V scopes c →
        Rereads ns like scopes closures (expr levels) c := by
      intro c hc scopes hscopes
      have hnesting := Expr.nesting_lt_of_mem_inner hc
      exact ih c hc scopes levels (by omega) (hprintable.part (Expr.mem_parts_of_mem_inner hc)) hscopes
    -- at a node that binds nothing
    have hinner : e.node.params = [] → ∀ c ∈ e.inner, Rereads ns like scopes closures (expr levels) c :=
      fun hparams c hc => hbelow c hc scopes (hscopes.inner hc hparams)
    have hchild : e.node.params = [] → ∀ c ∈ e.children,
        Rereads ns like scopes closures (expr levels) c :=
      fun hparams c hc => hinner hparams c (List.mem_append_left _ hc)
    have hhere := hprintable.here
    obtain ⟨⟨hformed, hmembers, hadd, -⟩, havoids, hfloat, hvars⟩ := hprintable.here
    have hmember : ∀ m ∈ e.node.members, MemberRereads like closures m := fun m hm =>
      ⟨hmembers m hm, havoids _ (List.mem_append_right _ (List.mem_map_of_mem hm)),
        hscopes.owners m (Expr.mem_gather_here hm)⟩
    have hown : ∀ t ∈ e.node.ownTys, t.avoidsFn = true :=
      fun t ht => havoids t (List.mem_append_left _ ht)
    obtain ⟨label, n⟩ := e
    suffices hnode : NodeRereads ns like scopes closures (expr levels) (Printer.node ns n) n by
      obtain ⟨l, ls, hspelled, hopens, htakes⟩ := hnode
      refine ⟨l, ls, hspelled, hopens, htakes.last (fun n' hn' => takes_alloc fun label' => ?_)
        fun _ h => h⟩
      rw [Expr.recast, Expr.recast, hn']
    cases n with
    | unary op x t m =>
      exact nodeRereads_unary hformed hown (hchild rfl x (List.mem_singleton_self x))
    | binary op x y c lifted m t =>
      exact nodeRereads_binary hformed (fun t ht => hown t (Option.mem_toList.2 ht))
        (hchild rfl x (by simp [Expr.children, Node.children]))
        (hchild rfl y (by simp [Expr.children, Node.children]))
    | typeIs x t =>
      exact nodeRereads_typeIs hformed (hown t (List.mem_singleton_self t))
        (hchild rfl x (List.mem_singleton_self x))
    | conditional x y z t =>
      exact nodeRereads_conditional hformed (fun t ht => hown t (Option.mem_toList.2 ht))
        (hchild rfl x (by simp [Expr.children, Node.children]))
        (hchild rfl y (by simp [Expr.children, Node.children]))
        (hchild rfl z (by simp [Expr.children, Node.children]))
    | constant v t =>
      refine nodeRereads_constant hformed (fun hbare => hown t (by simp [Node.ownTys, hbare]))
        (payloadRereads hscopes hns hhere rfl ?_)
      rintro u rfl
      exact hinner rfl u (List.mem_append_right _ (List.mem_singleton_self u))
    | «variable» v =>
      obtain ⟨v', hlookup, hname, hty⟩ := hscopes.vars v
        (Expr.mem_freeVars.2 (.inl (List.mem_singleton_self v)))
      exact nodeRereads_variable (hns.word v (hvars v (List.mem_append_left _ (List.mem_singleton_self v))))
        hlookup hname hty
    | memberAccess o m =>
      exact nodeRereads_memberAccess (hmember m (List.mem_singleton_self m)) (hchild rfl)
    | call o m as =>
      exact nodeRereads_call hformed hown (hchild rfl)
    | lambda ps x t =>
      obtain ⟨hnodup, hreadable, hty⟩ := hformed
      have hps : ∀ p ∈ ps, V p := fun p hp => hvars p (List.mem_append_right _ hp)
      have hx : x ∈ (Expr.mk label (.lambda ps x t)).inner :=
        List.mem_append_left _ (List.mem_singleton_self x)
      refine nodeRereads_lambda (List.Nodup.map_on (fun p hp q hq => hns.inj p q (hps p hp) (hps q hq)) hnodup)
        (fun p hp => hns.word p (hps p hp)) (fun p hp => ⟨hreadable p hp, ?_⟩) hty
        (fun t ht => hown t (List.mem_append_left _ (Option.mem_toList.2 ht)))
        fun params' hparams' => ?_
      · exact hown p.ty (List.mem_append_right _ (List.mem_map_of_mem hp))
      · refine hbelow x hx _ (hscopes.body hns hx hps ?_ hparams')
        exact vars_of_printable (hprintable.part (Expr.mem_parts_of_mem_inner hx))
    | construct c =>
      exact nodeRereads_construct hformed (hown c.ty (List.mem_singleton_self _)) hmember (hchild rfl)
    | newArray kind t xs =>
      exact nodeRereads_newArray hformed (hown t (List.mem_singleton_self _)) (hchild rfl)
    | invocation x as t =>
      exact nodeRereads_invocation hformed (fun t ht => hown t (Option.mem_toList.2 ht))
        (hchild rfl x List.mem_cons_self) fun y hy => hchild rfl y (List.mem_cons_of_mem _ hy)
    | memberInit c bs =>
      exact nodeRereads_memberInit hformed (hown c.ty (List.mem_singleton_self _)) hmember hadd
        (hchild rfl)
    | listInit c es =>
      exact nodeRereads_listInit hformed (hown c.ty (List.mem_singleton_self _)) hmember hadd
        (hchild rfl)
    | extension kind t =>
      exact nodeRereads_extension hformed.1 hformed.2 (hown t (List.mem_singleton_self _))

end Trees

end Parser

end ExprTree
