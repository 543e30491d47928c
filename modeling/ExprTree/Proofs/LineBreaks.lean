import ExprTree.Proofs.EqualTrees
import ExprTree.Proofs.FloatText
import ExprTree.Proofs.Reading
import ExprTree.Proofs.RereadingParts

/-!
# Line breaks and lexemes

A form that does not fit on its line is broken, and its items go on lines of their own. The text on one
line and the broken one are put together by different functions, but only blanks and new lines differ, and
they stand where no lexeme can go on. So a document has the same lexemes however it is laid out if each text
in it is cut into lexemes by itself (`Doc.Reflows`).

The document of a tree is such a document if the names written in the tree are identifiers and its floats
are finite (`Printer.expr_reflows`). Nothing is asked of strings: a quote or a backslash is escaped, and
what looks like a comment stands between quotes. So the column where a tree starts does not change its
lexemes (`Printer.lexemes_render`).
-/

namespace ExprTree

open Lexer

/-! ## Documents -/

namespace Doc

/-- On one line and laid out from any column on, the document spells the same lexemes. -/
def Reflows (d : Doc) : Prop := ∃ ls, d.Spelled ls

theorem exists_spelled {ds : List Doc} (h : ∀ d ∈ ds, d.Reflows) : ∃ lss, List.Forall₂ Spelled ds lss := by
  induction ds with
  | nil => exact ⟨[], .nil⟩
  | cons d ds ih =>
    obtain ⟨ls, hd⟩ := h d List.mem_cons_self
    obtain ⟨lss, hds⟩ := ih fun d hd => h d (List.mem_cons_of_mem _ hd)
    exact ⟨ls :: lss, .cons hd hds⟩

theorem reflows_text {s : String} {ls : List Lexeme} (h : Spells s.toList ls) : (text s).Reflows :=
  ⟨ls, spelled_text h⟩

theorem reflows_ty {t : Ty} (h : t.Spellable) : (text t.text).Reflows := ⟨t.lexemes, spelled_ty h⟩

theorem reflows_list {ds : List Doc} (h : ∀ d ∈ ds, d.Reflows) : (list ds).Reflows := by
  obtain ⟨lss, hds⟩ := exists_spelled h
  exact ⟨_, spelled_list hds⟩

theorem reflows_headed {head : String} (hhead : isWord head = true) {rest : List Doc}
    (h : ∀ d ∈ rest, d.Reflows) (inline : Nat) : (headed head rest inline).Reflows := by
  obtain ⟨lss, hrest⟩ := exists_spelled h
  exact ⟨_, spelled_headed (spells_word hhead) hrest inline⟩

theorem reflows_annotate {head : String} (hhead : isWord head = true) {rest : List Doc}
    (h : ∀ d ∈ rest, d.Reflows) (inline : Nat) {actual implied : Ty}
    (hty : ∀ t ∈ (written actual implied).toList, t.Spellable) :
    ((headed head rest inline).annotate actual implied).Reflows := by
  obtain ⟨lss, hrest⟩ := exists_spelled h
  exact ⟨_, spelled_annotate (spells_word hhead) hrest inline fun t ht => hty t (Option.mem_toList.2 ht)⟩

/-- Nothing but the layout depends on the column. -/
theorem Reflows.tokenize {d : Doc} (h : d.Reflows) (column : Nat) :
    (tokenize (d.render column)).lexemes = (tokenize d.flat).lexemes ∧
      (tokenize (d.render column)).faults = [] ∧ (tokenize d.flat).faults = [] := by
  obtain ⟨ls, hflat, hrender⟩ := h
  obtain ⟨hlexemes, hfaults⟩ := hflat.tokenize
  obtain ⟨hlexemes', hfaults'⟩ := (hrender column).tokenize
  exact ⟨hlexemes'.trans hlexemes.symm, hfaults', hfaults⟩

end Doc

/-! ## The names in a tree -/

/-- The names in a reference to a member. -/
def Member.names (m : Member) : List String := m.owner.name :: m.name :: m.ty.names

theorem Member.spellable_of_names {m : Member} (h : ∀ name ∈ m.names, isWord name = true) : m.Spellable := by
  obtain ⟨howner, hrest⟩ := List.forall_mem_cons.1 h
  obtain ⟨hname, hty⟩ := List.forall_mem_cons.1 hrest
  exact ⟨howner, hname, hty⟩

/-- The names in the path of a method. -/
def Method.names (m : Method) : List String := [m.owner, m.name]

theorem Method.spells_path {m : Method} (h : ∀ name ∈ m.names, isWord name = true) :
    Spells m.path.toList (pathLexemes m.owner m.name) :=
  ExprTree.spells_path (h _ List.mem_cons_self) (h _ (List.mem_cons_of_mem _ List.mem_cons_self))

namespace Node

/-- The methods that a node names. -/
def methods : Node → List Method
  | .call _ m _ => [m]
  | n => n.addMethods

/-- The kind of an extension node. -/
def extensionKind : Node → List String
  | .extension kind _ => [kind]
  | _ => []

/-- The names that are written at a node: those in types, members and methods, those that variables are
given, the one of a closure and the kind of an extension node. -/
def writtenNames (ns : Names) (n : Node) : List String :=
  n.ownTys.flatMap Ty.names ++ (n.members.flatMap Member.names ++ (n.methods.flatMap Method.names ++
    (n.vars.map ns.name ++ (n.reference.map (·.name) ++ n.extensionKind))))

/-- What is written at a node besides the expressions in it is cut into lexemes. -/
structure Spellable (ns : Names) (n : Node) : Prop where
  tys : ∀ t ∈ n.ownTys, t.Spellable
  members : ∀ m ∈ n.members, m.Spellable
  methods : ∀ m ∈ n.methods, ∀ name ∈ m.names, isWord name = true
  vars : ∀ v ∈ n.vars, isWord (ns.name v) = true
  reference : ∀ c ∈ n.reference, isWord c.name = true
  extensionKind : ∀ kind ∈ n.extensionKind, isWord kind = true
  floats : ∀ x ∈ n.floatHere, x.isFinite = true

theorem spellable_of_names {ns : Names} {n : Node} (h : ∀ name ∈ n.writtenNames ns, isWord name = true)
    (hfloats : ∀ x ∈ n.floatHere, x.isFinite = true) : n.Spellable ns := by
  obtain ⟨htys, h⟩ := List.forall_mem_append.1 h
  obtain ⟨hmembers, h⟩ := List.forall_mem_append.1 h
  obtain ⟨hmethods, h⟩ := List.forall_mem_append.1 h
  obtain ⟨hvars, h⟩ := List.forall_mem_append.1 h
  obtain ⟨hreference, hkind⟩ := List.forall_mem_append.1 h
  exact ⟨fun t ht name hname => htys name (List.mem_flatMap.2 ⟨t, ht, hname⟩),
    fun m hm => Member.spellable_of_names fun name hname => hmembers name (List.mem_flatMap.2 ⟨m, hm, hname⟩),
    fun m hm name hname => hmethods name (List.mem_flatMap.2 ⟨m, hm, hname⟩),
    fun v hv => hvars _ (List.mem_map_of_mem hv), fun c hc => hreference _ (List.mem_map_of_mem hc), hkind,
    hfloats⟩

end Node

/-- The names that are written in a tree, where those of its variables are given. -/
def Expr.writtenNames (ns : Names) : Expr → List String := gather (Node.writtenNames ns)

/-! ## Nodes -/

namespace Printer

section Nodes

variable {ns : Names}

theorem reflows_exprs {es : List Expr} (h : ∀ e ∈ es, (expr ns e).Reflows) :
    ∀ d ∈ exprs ns es, d.Reflows := by
  rw [exprs_eq_map]
  exact List.forall_mem_map.2 h

theorem reflows_object {o : Option Expr} (h : ∀ e ∈ o.toList, (expr ns e).Reflows) :
    (object ns o).Reflows := by
  cases o with
  | none => exact Doc.reflows_text (spells_name (by decide))
  | some e => rw [object]; exact h e (List.mem_singleton_self e)

theorem reflows_construct {c : Construct Expr} (hty : c.ty.Spellable)
    (hmembers : ∀ m ∈ c.members.getD [], m.Spellable) (hargs : ∀ e ∈ c.args, (expr ns e).Reflows) :
    (construct ns c).Reflows := by
  obtain ⟨t, args, ms⟩ := c
  have hrefs : ∀ d ∈ (ms.getD []).map Member.doc, d.Reflows :=
    List.forall_mem_map.2 fun m hm => ⟨_, Member.spelled_doc (hmembers m hm)⟩
  rw [construct]
  exact Doc.reflows_headed (by decide) (List.forall_mem_cons.2 ⟨Doc.reflows_ty hty,
    List.forall_mem_cons.2 ⟨Doc.reflows_list (reflows_exprs hargs), hrefs⟩⟩) 2

theorem reflows_elements {es : List (ElementInit Expr)}
    (hmethods : ∀ m ∈ es.map (·.addMethod), ∀ name ∈ m.names, isWord name = true)
    (hargs : ∀ e ∈ es.flatMap (·.args), (expr ns e).Reflows) : ∀ d ∈ elements ns es, d.Reflows := by
  rw [elements_eq_map]
  refine List.forall_mem_map.2 fun i hi => ?_
  have hpath := Doc.reflows_text (Method.spells_path (hmethods _ (List.mem_map_of_mem hi)))
  have hdocs := reflows_exprs fun e he => hargs e (List.mem_flatMap.2 ⟨i, hi, he⟩)
  exact Doc.reflows_headed (by decide) (List.forall_mem_cons.2 ⟨hpath, hdocs⟩) 2

mutual

theorem reflows_binding : ∀ {b : Binding Expr}, (∀ m ∈ b.members, m.Spellable) →
    (∀ m ∈ b.addMethods, ∀ name ∈ m.names, isWord name = true) → (∀ e ∈ b.exprs, (expr ns e).Reflows) →
    (binding ns b).Reflows
  | .assign m e, hmembers, _, hexprs => by
    have hm := Member.spelled_doc (hmembers m (List.mem_singleton_self m))
    obtain ⟨ls, he⟩ := hexprs e (List.mem_singleton_self e)
    have hequals : Spells "=".toList [.equals] := spells_symbol rfl (by decide) spells_nil
    rw [binding]
    exact ⟨_, Doc.spelled_headed hequals (.cons hm (.cons he .nil)) 1⟩
  | .nested m bs, hmembers, hmethods, hexprs => by
    obtain ⟨hm, hmembers⟩ := List.forall_mem_cons.1 hmembers
    have hdocs := reflows_bindings hmembers hmethods hexprs
    rw [binding]
    exact Doc.reflows_headed (by decide) (List.forall_mem_cons.2 ⟨⟨_, Member.spelled_doc hm⟩, hdocs⟩) 2
  | .elements m es, hmembers, hmethods, hexprs => by
    have hm := Member.spelled_doc (hmembers m (List.mem_singleton_self m))
    have hdocs := reflows_elements hmethods hexprs
    rw [binding]
    exact Doc.reflows_headed (by decide) (List.forall_mem_cons.2 ⟨⟨_, hm⟩, hdocs⟩) 2

theorem reflows_bindings : ∀ {bs : List (Binding Expr)}, (∀ m ∈ Binding.membersOfAll bs, m.Spellable) →
    (∀ m ∈ Binding.addMethodsOfAll bs, ∀ name ∈ m.names, isWord name = true) →
    (∀ e ∈ Binding.exprsOfAll bs, (expr ns e).Reflows) → ∀ d ∈ bindings ns bs, d.Reflows
  | [], _, _, _ => nofun
  | b :: bs, hmembers, hmethods, hexprs => by
    rw [Binding.membersOfAll, List.forall_mem_append] at hmembers
    rw [Binding.addMethodsOfAll, List.forall_mem_append] at hmethods
    rw [Binding.exprsOfAll, List.forall_mem_append] at hexprs
    exact List.forall_mem_cons.2 ⟨reflows_binding hmembers.1 hmethods.1 hexprs.1,
      reflows_bindings hmembers.2 hmethods.2 hexprs.2⟩

end

theorem reflows_value {v : Value} {t : Ty} (h : (Node.constant v t).Spellable ns)
    (htrees : ∀ e ∈ (Node.constant v t).quoted, (expr ns e).Reflows) : (value ns v).Reflows := by
  cases v with
  | null => exact Doc.reflows_text (spells_name (by decide))
  | bool b => cases b <;> exact Doc.reflows_text (spells_name (by decide))
  | int n => exact Doc.reflows_text (spells_int n)
  | float x =>
    have hfinite := h.floats x (List.mem_singleton_self x)
    exact Doc.reflows_text (spells_float (Binary64.readsBack_of_isFinite hfinite))
  | str s => exact Doc.reflows_text (spells_quote s)
  | tree e =>
    rw [value]
    have he := htrees e (List.mem_singleton_self e)
    exact Doc.reflows_headed (by decide) (by simp [he]) 1
  | closure c => exact Doc.reflows_text (spells_word (h.reference c (List.mem_singleton_self c)))

/-- A call is laid out alike in the forms of its own that a marker call has and in the plain one. -/
theorem reflows_callDoc {m : Method} {o : Option Expr} {args : List Expr} {objectDoc : Doc}
    {argDocs : List Doc} (htys : ∀ t ∈ Node.callTys m o args, t.Spellable)
    (hmethod : ∀ name ∈ m.names, isWord name = true) (hobject : objectDoc.Reflows)
    (hargs : ∀ d ∈ argDocs, d.Reflows) : (callDoc m o args objectDoc argDocs).Reflows := by
  unfold callDoc
  split <;> simp only [Node.callTys, *] at htys
  · exact Doc.reflows_annotate (by decide) hargs 1 htys
  · exact Doc.reflows_annotate (by decide) hargs 1 htys
  · exact Doc.reflows_annotate (by decide) (List.forall_mem_singleton.2 hobject) 1 htys
  · have hpath := Doc.reflows_text (Method.spells_path hmethod)
    have hret := Doc.reflows_ty (htys m.ret (List.mem_singleton_self m.ret))
    exact Doc.reflows_headed (by decide) (by simp [hobject, hpath, Doc.reflows_list hargs, hret]) 1

theorem reflows_unary {op : UnaryOp} {x : Expr} {t : Ty} {m : Option Method}
    (htys : ∀ u ∈ (Node.unary op x t m).ownTys, u.Spellable) (hx : (expr ns x).Reflows) :
    (node ns (.unary op x t m)).Reflows := by
  have hword : isWord op.word = true := by cases op <;> decide
  rw [Node.ownTys] at htys
  rw [node]
  split at htys
  · next htakes =>
    rw [if_pos htakes]
    have ht := Doc.reflows_ty (htys t (List.mem_singleton_self t))
    exact Doc.reflows_headed hword (by simp [hx, ht]) 1
  · next htakes =>
    rw [if_neg htakes]
    exact Doc.reflows_annotate hword (by simp [hx]) 1 htys

theorem reflows_constant {v : Value} {t : Ty} (h : (Node.constant v t).Spellable ns)
    (htrees : ∀ e ∈ (Node.constant v t).quoted, (expr ns e).Reflows) :
    (node ns (.constant v t)).Reflows := by
  have hv := reflows_value h htrees
  have htys := h.tys
  rw [Node.ownTys] at htys
  rw [node]
  split
  · exact hv
  · next hbare =>
    rw [if_neg hbare] at htys
    have ht := Doc.reflows_ty (htys t (List.mem_singleton_self t))
    exact Doc.reflows_headed (by decide) (by simp [hv, ht]) 1

/-- The document of a node reflows if those of the expressions in it do. -/
theorem reflows_node {n : Node} (h : n.Spellable ns)
    (hexprs : ∀ e ∈ n.children ++ n.quoted, (expr ns e).Reflows) : (node ns n).Reflows := by
  obtain ⟨hchildren, hquoted⟩ := List.forall_mem_append.1 hexprs
  cases n with
  | unary op x t m => exact reflows_unary h.tys (hchildren x (List.mem_singleton_self x))
  | binary op x y c lifted m t =>
    have hword : isWord op.word = true := by cases op <;> decide
    have hx := hchildren x (by simp [Node.children])
    have hy := hchildren y (by simp [Node.children])
    rw [node]
    exact Doc.reflows_annotate hword (by simp [hx, hy]) 1 h.tys
  | typeIs x t =>
    have hx := hchildren x (List.mem_singleton_self x)
    have ht := Doc.reflows_ty (h.tys t (List.mem_singleton_self t))
    rw [node]
    exact Doc.reflows_headed (by decide) (by simp [hx, ht]) 1
  | conditional x y z t =>
    have hx := hchildren x (by simp [Node.children])
    have hy := hchildren y (by simp [Node.children])
    have hz := hchildren z (by simp [Node.children])
    rw [node]
    exact Doc.reflows_annotate (by decide) (by simp [hx, hy, hz]) 1 h.tys
  | constant v t => exact reflows_constant h hquoted
  | «variable» v =>
    rw [node]
    exact Doc.reflows_text (spells_word (h.vars v (List.mem_singleton_self v)))
  | memberAccess o m =>
    obtain ⟨howner, hname, hty⟩ := h.members m (List.mem_singleton_self m)
    have ho := reflows_object hchildren
    have hpath := Doc.reflows_text (spells_path howner hname)
    have ht := Doc.reflows_ty hty
    rw [node]
    exact Doc.reflows_headed (isWord_kind m.kind) (by simp [ho, ht, Member.path, hpath]) 1
  | call o m args =>
    obtain ⟨ho, hargs⟩ := List.forall_mem_append.1 hchildren
    rw [node_call]
    exact reflows_callDoc h.tys (h.methods m (List.mem_singleton_self m)) (reflows_object ho)
      (reflows_exprs hargs)
  | lambda params body t =>
    obtain ⟨hty, hparams⟩ := List.forall_mem_append.1 h.tys
    have hbody := hchildren body (List.mem_singleton_self body)
    have hdoc : (paramsDoc ns params).Reflows := ⟨_, spelled_paramsDoc fun p hp =>
      ⟨h.vars p hp, hparams _ (List.mem_map_of_mem hp)⟩⟩
    rw [node]
    exact Doc.reflows_annotate (by decide) (by simp [hdoc, hbody]) 2 hty
  | construct c =>
    rw [node]
    exact reflows_construct (h.tys c.ty (List.mem_singleton_self c.ty)) h.members hchildren
  | newArray kind elem items =>
    have ht := Doc.reflows_ty (h.tys elem (List.mem_singleton_self elem))
    have hdocs : ∀ d ∈ .text elem.text :: exprs ns items, d.Reflows :=
      List.forall_mem_cons.2 ⟨ht, reflows_exprs hchildren⟩
    cases kind <;> rw [node] <;> exact Doc.reflows_headed (by decide) hdocs 2
  | invocation target args t =>
    obtain ⟨htarget, hargs⟩ := List.forall_mem_cons.1 hchildren
    rw [node]
    exact Doc.reflows_annotate (by decide) (List.forall_mem_cons.2 ⟨htarget, reflows_exprs hargs⟩) 1
      h.tys
  | memberInit c bs =>
    obtain ⟨hargs, hexprs⟩ := List.forall_mem_append.1 hchildren
    obtain ⟨hmembers, hbound⟩ := List.forall_mem_append.1 h.members
    have hc := reflows_construct (h.tys c.ty (List.mem_singleton_self c.ty)) hmembers hargs
    rw [node]
    exact Doc.reflows_headed (by decide) (List.forall_mem_cons.2
      ⟨hc, reflows_bindings hbound h.methods hexprs⟩) 1
  | listInit c es =>
    obtain ⟨hargs, hexprs⟩ := List.forall_mem_append.1 hchildren
    have hc := reflows_construct (h.tys c.ty (List.mem_singleton_self c.ty)) h.members hargs
    rw [node]
    exact Doc.reflows_headed (by decide) (List.forall_mem_cons.2 ⟨hc, reflows_elements h.methods hexprs⟩) 1
  | extension kind t =>
    have hkind := Doc.reflows_text (spells_word (h.extensionKind kind (List.mem_singleton_self kind)))
    have ht := Doc.reflows_ty (h.tys t (List.mem_singleton_self t))
    rw [node]
    exact Doc.reflows_headed (by decide) (by simp [hkind, ht]) 1

end Nodes

/-! ## Trees -/

/-- The document of a tree reflows if the names written in it are identifiers and its floats finite. -/
theorem expr_reflows {ns : Names} {e : Expr} (hnames : ∀ name ∈ e.writtenNames ns, isWord name = true)
    (hfloats : ∀ x ∈ e.floats, x.isFinite = true) : (expr ns e).Reflows := by
  induction e using Expr.innerInduction with
  | step e ih =>
    have hhere : e.node.Spellable ns := Node.spellable_of_names
      (fun name hname => hnames name (Expr.mem_gather_here hname))
      fun x hx => hfloats x (Expr.mem_gather_here hx)
    have hexprs : ∀ c ∈ e.node.children ++ e.node.quoted, (expr ns c).Reflows := fun c hc =>
      ih c hc (fun name hname => hnames name (Expr.mem_gather_of_inner hc hname))
        fun x hx => hfloats x (Expr.mem_gather_of_inner hc hx)
    obtain ⟨label, n⟩ := e
    rw [expr]
    exact reflows_node hhere hexprs

/-- Line breaking never changes the lexemes. Wherever the document of a tree starts, what is laid out is cut
into the same lexemes as the document on one line, and nothing is reported. Of the tree it is asked that the
names written in it are identifiers, those of its variables as they are given, and that its floats are
finite. -/
theorem lexemes_render (ns : Names) (e : Expr) (hnames : ∀ name ∈ e.writtenNames ns, isWord name = true)
    (hfloats : ∀ x ∈ e.floats, x.isFinite = true) (column : Nat) :
    (tokenize ((expr ns e).render column)).lexemes = (tokenize (expr ns e).flat).lexemes ∧
      (tokenize ((expr ns e).render column)).faults = [] ∧ (tokenize (expr ns e).flat).faults = [] :=
  (expr_reflows hnames hfloats).tokenize column

end Printer

/-- A marked application in a call with a string that holds quotes, a backslash and what looks like a comment,
and with a call that has no arguments. -/
def hardToBreak : String :=
  "(call static Log::write (\"größer \\\"//\\\" \\\\\" (invoke! (lambda ((x Float)) (mul x -2.5e-300)) 1e20) " ++
    "(call static Log::now () Int)) Unit)"

theorem Printer.lexemes_render_on_hardToBreak :
    ∃ e supply out supply', parseTree hardToBreak {} = .ok (e, supply) ∧
      expand 9 e supply = .ok (out, supply') ∧ out.stats.invocationsInlined = 1 ∧
      let d := Printer.expr out.tree.names out.tree
      d.render 20 ≠ d.flat ∧ (tokenize (d.render 20)).lexemes = (tokenize d.flat).lexemes ∧
        (tokenize (d.render 20)).faults = [] ∧ (tokenize d.flat).faults = [] := by
  have hpasses : passes hardToBreak 9 (fun _ _ out =>
      let d := Printer.expr out.tree.names out.tree
      decide (out.stats.invocationsInlined = 1 ∧
        (∀ name ∈ out.tree.writtenNames out.tree.names, isWord name = true) ∧
        (∀ x ∈ out.tree.floats, x.isFinite = true) ∧ d.render 20 ≠ d.flat)) = true := by
    decide +kernel
  obtain ⟨e, supply, out, supply', hparse, hexpand, hcheck⟩ := exists_run_of_passes hpasses
  obtain ⟨hinlined, hnames, hfloats, hbroken⟩ := of_decide_eq_true hcheck
  exact ⟨e, supply, out, supply', hparse, hexpand, hinlined, hbroken,
    Printer.lexemes_render out.tree.names out.tree hnames hfloats 20⟩

end ExprTree
