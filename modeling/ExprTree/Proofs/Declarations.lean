import ExprTree.Proofs.PrintedTree
import ExprTree.Proofs.Rereading

/-!
# Reading printed declarations

The text of a tree starts with the declarations of its free variables and of its closures. This module
shows what lexemes they spell, where a closure is laid out on one line or with a line for each field,
and what is declared when they are read again: variables with the printed names, and closures that are
the same up to identities.

What a reader of declarations does is said by `Enacts`, in the way in which `Takes` says it of readers
that leave scopes and closures alone.
-/

namespace ExprTree

/-! ## The lexemes of declarations -/

/-- The lexemes that a document is cut into. -/
def Doc.lexemes (d : Doc) : List Lexeme := (tokenize d.flat).lexemes.dropLast

theorem Doc.Spelled.lexemes_eq {d : Doc} {ls : List Lexeme} (h : d.Spelled ls) : d.lexemes = ls := by
  rw [Doc.lexemes, h.flat.tokenize.1, List.dropLast_concat]

theorem Doc.Spelled.self {d : Doc} {ls : List Lexeme} (h : d.Spelled ls) : d.Spelled d.lexemes := by
  rwa [h.lexemes_eq]

namespace Printer

/-- The lexemes of the declaration of a free variable. -/
def freeLexemes (ns : Names) (v : Variable) : List Lexeme :=
  .free :: .ident (ns.name v) :: .colon :: v.ty.lexemes

/-- The lexemes of a field. -/
def fieldLexemes (ns : Names) (f : String × Value) : List Lexeme :=
  .ident f.1 :: .equals :: (value ns f.2).lexemes

/-- Items with commas between them, and with one behind the last item if so asked. -/
def separated (trailing : Bool) : List (List Lexeme) → List Lexeme
  | [] => []
  | [ls] => ls ++ if trailing then [.comma] else []
  | ls :: lss => ls ++ .comma :: separated trailing lss

/-- The lexemes of the declaration of a closure. -/
def closureLexemes (ns : Names) (trailing : Bool) (c : Closure Value) : List Lexeme :=
  .closure :: .ident c.name :: .lbrace ::
    (separated trailing (c.fields.map (fieldLexemes ns)) ++ [.rbrace])

theorem separated_false (lss : List (List Lexeme)) : separated false lss = [.comma].intercalate lss := by
  induction lss with
  | nil => rfl
  | cons ls lss ih =>
    cases lss with
    | nil => simp [separated, List.intercalate]
    | cons ls' lss =>
      rw [separated.eq_3 _ _ _ (by simp), ih, intercalate_cons_cons, List.singleton_append]

theorem separated_true (lss : List (List Lexeme)) :
    separated true lss = (lss.map (· ++ [.comma])).flatten := by
  induction lss with
  | nil => rfl
  | cons ls lss ih =>
    cases lss with
    | nil => simp [separated]
    | cons ls' lss =>
      rw [separated.eq_3 _ _ _ (by simp), ih]
      simp

end Printer

namespace Lexer

/-- The text spells the lexemes before every text. -/
def SpellsBefore (text : String) (ls : List Lexeme) : Prop :=
  ∀ cs ls', Spells cs ls' → Spells (text.toList ++ cs) (ls ++ ls')

theorem spellsBefore_join {texts : List String} {lss : List (List Lexeme)}
    (h : List.Forall₂ SpellsBefore texts lss) : SpellsBefore (String.join texts) lss.flatten := by
  induction h with
  | nil => exact fun _ _ hcs => by simpa using hcs
  | cons htext _ ih =>
    intro cs ls hcs
    have hall := htext _ _ (ih cs ls hcs)
    rw [List.flatten_cons, List.append_assoc]
    simpa [String.join_cons] using hall

end Lexer

namespace Printer

open Lexer

variable {ns : Names}

theorem spellsBefore_freeDecl {v : Variable} (hname : isWord (ns.name v) = true)
    (hty : v.ty.isReadable = true) : SpellsBefore (freeDecl ns v) (freeLexemes ns v) := by
  intro cs ls hcs
  have htext : (freeDecl ns v).toList ++ cs =
      "free".toList ++ ' ' :: ((ns.name v).toList ++ ':' :: ' ' :: (v.ty.text.toList ++ '\n' :: cs)) := by
    simp [freeDecl]
  have hkeyword : Spells "free".toList [.free] := spells_name (by decide)
  rw [htext]
  refine hkeyword.append (spells_blank rfl ((spells_word hname).append (spells_colon ?_)
    (edge_cons.2 rfl))) (edge_cons.2 rfl)
  exact (Ty.spells_text (Ty.spellable hty)).append (spells_blank rfl hcs) (edge_cons.2 rfl)

/-- The opening of a declaration stands before every text that starts with a blank. -/
theorem spells_opening {name : String} (hname : isWord name = true) {cs : List Char} {ls : List Lexeme}
    (hcs : Spells cs ls) :
    Spells (("closure " ++ name ++ " \x7b").toList ++ cs) (.closure :: .ident name :: .lbrace :: ls) := by
  have htext : ("closure " ++ name ++ " \x7b").toList ++ cs =
      "closure".toList ++ ' ' :: (name.toList ++ ' ' :: '\x7b' :: cs) := by simp
  have hkeyword : Spells "closure".toList [.closure] := spells_name (by decide)
  rw [htext]
  exact hkeyword.append (spells_blank rfl ((spells_word hname).append
    (spells_blank rfl (spells_symbol rfl (by decide) hcs)) (edge_cons.2 rfl))) (edge_cons.2 rfl)

/-- A field spells its name, the sign and its payload, laid out in any way. -/
theorem spells_field {f : String × Value} (hname : isWord f.1 = true) {text : String}
    (htext : Spells text.toList (value ns f.2).lexemes) :
    Spells (f.1 ++ " = " ++ text).toList (fieldLexemes ns f) := by
  have hsplit : (f.1 ++ " = " ++ text).toList = f.1.toList ++ ' ' :: '=' :: ' ' :: text.toList := by simp
  rw [hsplit]
  exact (spells_word hname).append (spells_blank rfl (spells_symbol rfl (by decide)
    (spells_blank rfl htext))) (edge_cons.2 rfl)

theorem spellsBefore_closureDecl {c : Closure Value} (hname : isWord c.name = true)
    (hfields : ∀ f ∈ c.fields, isWord f.1 = true ∧ (value ns f.2).Spelled (value ns f.2).lexemes) :
    ∃ trailing, SpellsBefore (closureDecl ns c) (closureLexemes ns trailing c) := by
  have hclose : ∀ {cs ls}, Spells cs ls → Spells ('\x7d' :: '\n' :: cs) (.rbrace :: ls) :=
    fun hcs => spells_symbol rfl (by decide) (spells_blank rfl hcs)
  simp only [closureDecl]
  split
  · next hempty =>
    have hnone : c.fields = [] := by simpa using hempty
    refine ⟨false, fun cs ls hcs => ?_⟩
    have hall := spells_opening hname (spells_blank (b := ' ') rfl (hclose hcs))
    rw [closureLexemes, hnone]
    simpa [separated] using hall
  · split
    · refine ⟨false, fun cs ls hcs => ?_⟩
      have hitems : List.Forall₂ (fun t ls => Spells t.toList ls)
          (c.fields.map fun f => f.1 ++ " = " ++ (value ns f.2).flat) (c.fields.map (fieldLexemes ns)) := by
        rw [List.forall₂_map_left_iff, List.forall₂_map_right_iff, List.forall₂_same]
        exact fun f hf => spells_field (hfields f hf).1 (hfields f hf).2.flat
      have hbody := spells_intercalate ", " [.comma]
        (fun cs ls h => spells_symbol (c := ',') rfl (by decide) (spells_blank (b := ' ') rfl h))
        (fun _ => edge_cons.2 rfl) hitems (spells_blank (b := ' ') rfl (hclose hcs)) (edge_cons.2 rfl)
      have hall := spells_opening hname (spells_blank (b := ' ') rfl hbody)
      rw [closureLexemes, separated_false]
      simpa [Function.comp_def] using hall
    · refine ⟨true, fun cs ls hcs => ?_⟩
      have hitems : List.Forall₂ SpellsBefore
          (c.fields.map fun f => fieldLine (f.1, value ns f.2))
          ((c.fields.map (fieldLexemes ns)).map (· ++ [.comma])) := by
        rw [List.map_map, List.forall₂_map_left_iff, List.forall₂_map_right_iff, List.forall₂_same]
        intro f hf cs ls hcs
        have hfield := spells_field (hfields f hf).1 ((hfields f hf).2.render
          (Doc.blanks fieldIndent ++ f.1 ++ " = ").utf8ByteSize)
        have hline := Doc.spells_blanks fieldIndent (hfield.append
          (spells_symbol (c := ',') rfl (by decide) (spells_blank (b := '\n') rfl hcs)) (edge_cons.2 rfl))
        simpa [fieldLine] using hline
      have hall := spells_opening hname (spells_blank (b := '\n') rfl
        (spellsBefore_join hitems _ _ (hclose hcs)))
      rw [closureLexemes, separated_true]
      simpa [Function.comp_def] using hall

end Printer

/-! ## What is in scope and what is declared -/

/-- The owner that a name stands for where closures of the given names are declared. -/
def ownerAmong (names : List String) (name : String) : Owner :=
  if names.contains name then .capture name else .type name

namespace Parser

/-- The variables are in scope under their printed names. -/
def InScope (ns : Names) (vs : List Variable) (scopes : List (String × Variable)) : Prop :=
  List.Forall₂ (fun v b => b.1 = ns.name v ∧ Stands ns v b.2) vs scopes

/-- The closures are declared under their names, the same up to identities. -/
def Tabled (ns : Names) (like : Likening) (cs : List (Closure Value))
    (table : List (String × Closure Value)) : Prop :=
  List.Forall₂ (fun c b => b.1 = c.name ∧
    (Value.closure b.2).recast (.called like) = (Value.closure c).recast (.printed ns like)) cs table

section Tabled

variable {ns : Names} {like : Likening} {vs : List Variable} {scopes : List (String × Variable)}
  {cs : List (Closure Value)} {table : List (String × Closure Value)}

theorem InScope.lookup (h : InScope ns vs scopes)
    (hinj : ∀ v ∈ vs, ∀ w ∈ vs, ns.name v = ns.name w → v = w) {v : Variable} (hv : v ∈ vs) :
    ∃ v', scopes.lookup (ns.name v) = some v' ∧ Stands ns v v' := by
  induction h with
  | nil => cases hv
  | @cons w b vs scopes hb _ ih =>
    obtain ⟨name, v'⟩ := b
    obtain ⟨rfl, hstands⟩ := hb
    rw [List.lookup_cons]
    by_cases heq : ns.name v = ns.name w
    · obtain rfl := hinj v hv w List.mem_cons_self heq
      rw [beq_self_eq_true]
      exact ⟨v', rfl, hstands⟩
    · rw [beq_eq_false_iff_ne.2 heq]
      rcases List.mem_cons.1 hv with rfl | hv
      · exact absurd rfl heq
      · exact ih (fun v hv w hw => hinj v (List.mem_cons_of_mem _ hv) w (List.mem_cons_of_mem _ hw)) hv

theorem lookup_isSome_of_forall₂ (h : List.Forall₂ (fun c b => b.1 = c.name) cs table) (name : String) :
    (table.lookup name).isSome = (cs.map (·.name)).contains name := by
  induction h with
  | nil => rfl
  | @cons c b cs table hb _ ih =>
    obtain ⟨_, c'⟩ := b
    obtain rfl := hb
    rw [List.lookup_cons, List.map_cons, List.contains_cons]
    cases hname : name == c.name with
    | true => rfl
    | false => exact ih

theorem Tabled.names (h : Tabled ns like cs table) :
    List.Forall₂ (fun (c : Closure Value) (b : String × Closure Value) => b.1 = c.name) cs table :=
  h.imp fun _ _ hb => hb.1

theorem Tabled.declared (h : Tabled ns like cs table) (hnodup : (cs.map (·.name)).Nodup)
    {c : Closure Value} (hc : c ∈ cs) : Declared ns like table c := by
  induction h with
  | nil => cases hc
  | @cons d b cs table hb _ ih =>
    obtain ⟨_, c'⟩ := b
    obtain ⟨rfl, hrecast⟩ := hb
    rw [List.map_cons, List.nodup_cons] at hnodup
    unfold Declared
    rw [List.lookup_cons]
    rcases List.mem_cons.1 hc with rfl | hc
    · rw [beq_self_eq_true]
      exact ⟨c', rfl, hrecast⟩
    · have hne : c.name ≠ d.name := fun heq => hnodup.1 (heq ▸ List.mem_map_of_mem hc)
      rw [beq_eq_false_iff_ne.2 hne]
      exact ih hnodup.2 hc

theorem Tabled.ownerIn_eq (h : Tabled ns like cs table) (name : String) :
    ownerIn table name = ownerAmong (cs.map (·.name)) name := by
  rw [ownerIn, ownerAmong, lookup_isSome_of_forall₂ h.names]

end Tabled

end Parser

/-- Every owner and every closure counts as equal to every other one. -/
def Likening.blind : Likening := ⟨fun _ => .type "", fun _ => 0, fun _ => 0⟩

namespace Parser

/-! ## The printed trees of a source -/

/-- A tree from a source of which all written types and all floats are read back. -/
structure Rereadable (e : Expr) : Prop where
  source : FromSource e
  avoids : e.Everywhere fun a => ∀ t ∈ a.node.tys, t.avoidsFn = true
  floats : e.Everywhere fun a => ∀ x ∈ a.node.floats, x.readsBack = true

section Rereadable

variable {e : Expr} {like : Likening} {scopes : List (String × Variable)}
  {cs : List (Closure Value)} {table : List (String × Closure Value)}

theorem Rereadable.distinguishes (h : Rereadable e)
    (hnames : List.Forall₂ (fun (c : Closure Value) (b : String × Closure Value) => b.1 = c.name) cs table)
    (hcs : ∀ c ∈ cs, c ∈ closuresOf e) : Distinguishes e.names table e.names.Has where
  word v hv := isWord_of_isPlainName (h.source.given.isPlainName_name hv)
  inj v w hv hw := h.source.given.name_inj hv hw
  apart v hv := by
    have hnot : (cs.map (·.name)).contains (e.names.name v) = false := by
      rw [List.contains_eq_mem, decide_eq_false_iff_not]
      intro hmem
      obtain ⟨c, hc, hname⟩ := List.mem_map.1 hmem
      exact h.source.given.name_not_reserved hv (hname ▸ List.mem_map_of_mem (hcs c hc))
    rw [← lookup_isSome_of_forall₂ hnames] at hnot
    exact Option.not_isSome_iff_eq_none.1 (by rw [hnot]; exact Bool.false_ne_true)

theorem Rereadable.printable (h : Rereadable e) : e.Everywhere (Printable e.names.Has) := by
  intro a ha
  refine ⟨h.source.legible a ha, h.avoids a ha, h.floats a ha, fun v hv => ?_⟩
  obtain ⟨t, ht, hv⟩ := h.source.closes.uses ⟨a, ha, hv⟩
  exact h.source.has t ht v hv

/-- A printed tree is read again where the free variables are in scope and the closures that it refers
to are declared. -/
theorem Rereadable.rereads (h : Rereadable e) {t : Expr} (ht : t ∈ e.printed)
    (hscopes : InScope e.names e.names.free scopes) (htable : Tabled e.names like cs table)
    (hcs : ∀ c ∈ cs, c ∈ closuresOf e) (hnodup : (cs.map (·.name)).Nodup)
    (hreferences : ∀ r ∈ t.references, r ∈ cs)
    (howners : ∀ m ∈ t.members,
      like.owner (ownerAmong (cs.map (·.name)) m.owner.name) = like.owner m.owner) :
    Rereads e.names like scopes table (expr maxNesting) t := by
  have hns := h.distinguishes htable.names hcs
  refine Parser.rereads hns t scopes maxNesting (h.source.nesting t ht)
    (h.printable.within (h.source.within ht)) ⟨fun v hv => ?_, fun b hb => ?_, fun r hr => ?_, fun m hm => ?_⟩
  · refine hscopes.lookup (fun v hv w hw => ?_) (h.source.free t ht v hv)
    exact hns.inj v w (h.source.free_has v hv) (h.source.free_has w hw)
  · obtain ⟨v, hv, hname, -⟩ := exists_of_mem_right hscopes hb
    exact ⟨v, h.source.free_has v hv, hname⟩
  · exact htable.declared hnodup (hreferences r hr)
  · rw [htable.ownerIn_eq]
    exact howners m hm

/-- A field of a closure is read again where the closures that it refers to are declared. -/
theorem Rereadable.field (h : Rereadable e) {c : Closure Value} (hc : c ∈ closuresOf e)
    {f : String × Value} (hf : f ∈ c.fields) (hscopes : InScope e.names e.names.free scopes)
    (htable : Tabled e.names like cs table) (hcs : ∀ c ∈ cs, c ∈ closuresOf e)
    (hnodup : (cs.map (·.name)).Nodup) (hreferences : ∀ r ∈ c.references, r ∈ cs)
    (howners : ∀ t ∈ c.ownTrees, ∀ m ∈ t.members,
      like.owner (ownerAmong (cs.map (·.name)) m.owner.name) = like.owner m.owner) :
    PayloadRereads e.names like scopes table (expr maxNesting) f.2 where
  float x hx := by
    obtain ⟨⟨l, n⟩, ha, hca⟩ := (h.source.ordered.declared c (List.mem_reverse.2 hc)).reached
    refine h.floats _ ha x ?_
    cases n with
    | constant v ty =>
      refine List.mem_append_right _ (List.mem_flatMap.2 ⟨c, hca, List.mem_filterMap.2 ⟨f, hf, ?_⟩⟩)
      rw [hx]
      rfl
    | _ => cases hca
  closure d hd := by
    have hdc : d ∈ cs := hreferences d (List.mem_flatMap.2 ⟨f, hf, by simp [hd, Value.references]⟩)
    have hde := hcs d hdc
    refine ⟨(h.source.ordered.declared d (List.mem_reverse.2 hde)).name, ?_,
      htable.declared hnodup hdc⟩
    rw [List.lookup_eq_none_iff]
    intro b hb
    obtain ⟨v, hv, hname, -⟩ := exists_of_mem_right hscopes hb
    rw [bne_iff_ne, hname]
    intro heq
    exact h.source.given.name_not_reserved (h.source.free_has v hv)
      (heq ▸ List.mem_map_of_mem (f := fun c : Closure Value => c.name) hde)
  tree t ht := by
    have hown : t ∈ c.ownTrees := Closure.mem_ownTrees.2 ⟨f.1, by rw [← ht]; exact hf⟩
    refine h.rereads (List.mem_append_left _ (List.mem_flatMap.2 ⟨c, hc, hown⟩)) hscopes htable hcs
      hnodup (fun r hr => ?_) (howners t hown)
    exact hreferences r (List.mem_flatMap.2 ⟨f, hf, by simpa [ht, Value.references] using hr⟩)

/-! The texts of printed trees and fields spell lexemes, since they are read again where the recast
closures are declared and all owners count as equal. -/

theorem tabled_blind (e : Expr) : Tabled e.names .blind (closuresOf e) ((closuresOf e).map fun c =>
    (c.name, ⟨0, c.name, Value.recastFields (.printed e.names .blind) c.fields⟩)) := by
  rw [Tabled, List.forall₂_map_right_iff, List.forall₂_same]
  exact fun c _ => ⟨rfl, Value.recast_recast (.printed e.names .blind) (.called .blind) (.closure c)⟩

theorem inScope_printed (e : Expr) : InScope e.names e.names.free (e.names.free.map fun v =>
    (e.names.name v, ⟨0, e.names.name v, v.ty⟩)) := by
  rw [InScope, List.forall₂_map_right_iff, List.forall₂_same]
  exact fun v _ => ⟨rfl, rfl, rfl⟩

theorem Rereadable.spelled (h : Rereadable e) {t : Expr} (ht : t ∈ e.printed) :
    ∃ l ls, (Printer.expr e.names t).Spelled (l :: ls) ∧ l.opensExpr = true := by
  obtain ⟨l, ls, hspelled, hopens, -⟩ := h.rereads ht (inScope_printed e) (tabled_blind e)
    (fun _ hc => hc) h.source.names (h.source.closes.of_scanned ht).references fun _ _ => rfl
  exact ⟨l, ls, hspelled, hopens⟩

theorem Rereadable.spelled_field (h : Rereadable e) {c : Closure Value} (hc : c ∈ closuresOf e)
    {f : String × Value} (hf : f ∈ c.fields) :
    (Printer.value e.names f.2).Spelled (Printer.value e.names f.2).lexemes := by
  obtain ⟨ls, hspelled, -⟩ := takes_value (h.field hc hf (inScope_printed e) (tabled_blind e)
    (fun _ hc => hc) h.source.names (h.source.closes.closures c hc) fun _ _ _ _ => rfl)
  exact hspelled.self

theorem Rereadable.spells_closureDecl (h : Rereadable e) {c : Closure Value} (hc : c ∈ closuresOf e) :
    ∃ trailing, Lexer.SpellsBefore (Printer.closureDecl e.names c)
      (Printer.closureLexemes e.names trailing c) := by
  have hdeclarable := h.source.ordered.declared c (List.mem_reverse.2 hc)
  exact Printer.spellsBefore_closureDecl hdeclarable.name fun f hf =>
    ⟨hdeclarable.fieldWords f hf, h.spelled_field hc hf⟩

end Rereadable

/-! ## Closures -/

section Fields

variable {scopes : List (String × Variable)} {closures : List (String × Closure Value)}
  {R : String × Value → Value → Prop} {closure : String}

/-- A field is read up to the comma behind it, or up to the brace that closes the declaration. -/
theorem takes_closureField {acc : List (String × Value)} {f : String × Value} {ls : List Lexeme}
    (hnew : acc.any (·.1 == f.1) = false)
    (hvalue : Takes scopes closures (value (expr maxNesting)) ls Anything (R f)) (comma : Bool) :
    Takes scopes closures (closureField closure acc)
      (.ident f.1 :: .equals :: (ls ++ if comma then [.comma] else []))
      (fun l => comma = true ∨ l = .rbrace) fun acc' => ∃ v, acc' = (f.1, v) :: acc ∧ R f v := by
  refine takes_expectIdent fun _ => takes_expect fun _ => hvalue.andThen fun v hv => ?_
  simp only [hnew, Bool.false_eq_true, reduceIte]
  cases comma with
  | true =>
    refine takes_eat (takes_at?_any fun _ => ?_)
    simp only [Bool.not_true, Bool.false_and, Bool.false_eq_true, reduceIte]
    exact takes_pure ⟨v, rfl, hv⟩
  | false =>
    simp only [Bool.false_eq_true, false_or, reduceIte]
    refine takes_eat_other ?_ (takes_at? (b := true) ?_ ?_)
    · rintro _ rfl
      exact Lexeme.noConfusion
    · rintro _ rfl
      rfl
    · simp only [Bool.not_true, Bool.and_false, Bool.false_eq_true, reduceIte]
      exact takes_pure ⟨v, rfl, hv⟩

theorem separated_cons (trailing : Bool) (ls : List Lexeme) (lss : List (List Lexeme)) :
    ∃ comma, Printer.separated trailing (ls :: lss) =
      (ls ++ if comma then [.comma] else []) ++ Printer.separated trailing lss ∧
      (comma = true ∨ lss = []) := by
  cases lss with
  | nil => exact ⟨trailing, by simp [Printer.separated], .inr rfl⟩
  | cons ls' lss =>
    refine ⟨true, ?_, .inl rfl⟩
    rw [Printer.separated.eq_3 _ _ _ (by simp)]
    simp

/-- Fields are read one after the other; their names differ. -/
theorem takes_fields {ns : Names} (trailing : Bool) {fields : List (String × Value)}
    (hvalues : ∀ f ∈ fields, Takes scopes closures (value (expr maxNesting))
      (Printer.value ns f.2).lexemes Anything (R f)) :
    ∀ (done acc : List (String × Value)),
      List.Forall₂ (fun f f' => f'.1 = f.1 ∧ R f f'.2) done acc.reverse →
      ((done ++ fields).map (·.1)).Nodup →
      Takes scopes closures (iterate moreFields (fieldStep closure) acc)
        (Printer.separated trailing (fields.map (Printer.fieldLexemes ns))) (· = .rbrace) fun acc' =>
          List.Forall₂ (fun f f' => f'.1 = f.1 ∧ R f f'.2) (done ++ fields) acc'.reverse := by
  induction fields with
  | nil =>
    intro done acc hacc _
    rw [List.append_nil]
    refine takes_iterate_stop ?_ hacc
    rintro _ rfl
    rfl
  | cons f fields ih =>
    intro done acc hacc hnodup
    have hnew : acc.any (·.1 == f.1) = false := by
      have hnames : acc.reverse.map (·.1) = done.map (·.1) := map_eq_of_forall₂ (hacc.imp fun _ _ h => h.1)
      rw [List.map_append, List.map_cons, List.nodup_append] at hnodup
      rw [List.any_eq_false]
      intro f' hf' heq
      have hmem : f'.1 ∈ done.map (·.1) := hnames ▸ List.mem_map_of_mem (List.mem_reverse.2 hf')
      exact hnodup.2.2 _ hmem _ List.mem_cons_self (beq_iff_eq.1 heq)
    obtain ⟨comma, hsplit, hlast⟩ := separated_cons trailing (Printer.fieldLexemes ns f)
      (fields.map (Printer.fieldLexemes ns))
    rw [List.map_cons, hsplit]
    refine takes_iterate_go (fun l => comma = true ∨ l = .rbrace) rfl
      ((takes_closureField hnew (hvalues f List.mem_cons_self) comma).thenPure ?_) ?_
    · rintro _ ⟨v, rfl, hv⟩
      refine ⟨?_, rfl⟩
      have hrest := ih (fun f hf => hvalues f (List.mem_cons_of_mem _ hf)) (done ++ [f])
        ((f.1, v) :: acc) (by
          rw [List.reverse_cons]
          exact List.rel_append hacc (.cons ⟨rfl, hv⟩ .nil)) (by simpa using hnodup)
      rwa [List.append_assoc, List.singleton_append] at hrest
    · rintro _ rfl
      refine hlast.imp_right fun hnil => ?_
      rw [hnil]
      rfl

end Fields

/-! ## Readers of declarations -/

variable {α β : Type}

/-- Where `ls` and then a lexeme that satisfies `next` lie ahead, the reader takes `ls` without a
report, and what is then in scope and declared satisfies `Q`. -/
def Enacts (scopes : List (String × Variable)) (closures : List (String × Closure Value))
    (x : Parser α) (ls : List Lexeme) (next : Lexeme → Prop)
    (Q : List (String × Variable) → List (String × Closure Value) → Prop) : Prop :=
  ∀ s : ParseState, s.scopes = scopes → s.closures = closures → ∀ l rest, next l →
    s.tokens.map (·.lexeme) = ls ++ l :: rest →
    ∃ a tokens supply scopes' closures', x s = (a, { s with
      tokens := tokens, supply := supply, scopes := scopes', closures := closures' }) ∧
      tokens.map (·.lexeme) = l :: rest ∧ Q scopes' closures'

section Enacts

variable {scopes : List (String × Variable)} {closures : List (String × Closure Value)}
  {ls ls' : List Lexeme} {next next' : Lexeme → Prop} {P : α → Prop}
  {Q : List (String × Variable) → List (String × Closure Value) → Prop}

theorem Enacts.imp {x : Parser α} {Q' : List (String × Variable) → List (String × Closure Value) → Prop}
    (h : Enacts scopes closures x ls next Q)
    (hQ : ∀ scopes' closures', Q scopes' closures' → Q' scopes' closures') :
    Enacts scopes closures x ls next Q' := by
  intro s hscopes hclosures l rest hl hs
  obtain ⟨a, tokens, supply, scopes', closures', hrun, htokens, hq⟩ := h s hscopes hclosures l rest hl hs
  exact ⟨a, tokens, supply, scopes', closures', hrun, htokens, hQ scopes' closures' hq⟩

/-- The parts of a declaration are read, and then it is enacted. -/
theorem Takes.enacts {x : Parser α} {f : α → Parser β} (hx : Takes scopes closures x ls next P)
    (hf : ∀ a, P a → ∀ s : ParseState, s.scopes = scopes → s.closures = closures →
      ∃ b supply scopes' closures', f a s = (b, { s with
        supply := supply, scopes := scopes', closures := closures' }) ∧ Q scopes' closures') :
    Enacts scopes closures (x >>= f) ls next Q := by
  intro s hscopes hclosures l rest hl hs
  obtain ⟨a, tokens, supply, hrun, htokens, ha⟩ := hx s hscopes hclosures l rest hl hs
  obtain ⟨b, supply', scopes', closures', hrun', hQ⟩ :=
    hf a ha { s with tokens := tokens, supply := supply } hscopes hclosures
  refine ⟨b, tokens, supply', scopes', closures', ?_, htokens, hQ⟩
  show f (x s).1 (x s).2 = _
  rw [hrun, hrun']

theorem enacts_declarations_nil (hstop : ∀ l, next l → moreDecls l = false)
    (h : Q scopes closures) (acc : List Unit) :
    Enacts scopes closures (iterate moreDecls declStep acc) [] next Q := by
  intro s hscopes hclosures l rest hl hs
  have hmore : moreDecls s.lexeme = false := by
    rw [lexeme_of_ahead hs]
    exact hstop l hl
  refine ⟨acc, s.tokens, s.supply, s.scopes, s.closures, ?_, hs, by rwa [hscopes, hclosures]⟩
  rw [iterate, hmore, if_neg Bool.false_ne_true]

/-- A declaration, and then the others. -/
theorem enacts_declarations_cons (between : Lexeme → Prop) {l₀ : Lexeme}
    (hmore : moreDecls l₀ = true)
    (hdecl : Enacts scopes closures decl (l₀ :: ls) between fun scopes' closures' =>
      ∀ acc, Enacts scopes' closures' (iterate moreDecls declStep acc) ls' next' Q)
    (hnext : ∀ l, next' l → between (ls'.head?.getD l)) (acc : List Unit) :
    Enacts scopes closures (iterate moreDecls declStep acc) (l₀ :: ls ++ ls') next' Q := by
  intro s hscopes hclosures l rest hl hs
  obtain ⟨rest', hsplit⟩ := exists_ahead ls' l rest
  rw [List.append_assoc, hsplit] at hs
  have hmore : moreDecls s.lexeme = true := by
    rw [lexeme_of_ahead hs]
    exact hmore
  obtain ⟨u, tokens, supply, scopes', closures', hrun, htokens, hrest⟩ :=
    hdecl s hscopes hclosures _ rest' (hnext l hl) hs
  have hshorter := length_lt_of_taken hs htokens
  obtain ⟨b, tokens', supply', scopes'', closures'', hrun', htokens', hQ⟩ := hrest (u :: acc)
    { s with tokens := tokens, supply := supply, scopes := scopes', closures := closures' } rfl rfl l
    rest hl (htokens.trans hsplit.symm)
  refine ⟨b, tokens', supply', scopes'', closures'', ?_, htokens', hQ⟩
  have hstep : declStep acc s = ((u :: acc, true), { s with
      tokens := tokens, supply := supply, scopes := scopes', closures := closures' }) := by
    show ((((decl s).1 :: acc), true), (decl s).2) = _
    rw [hrun]
  rw [iterate, if_pos hmore, hstep]
  simp only [reduceIte, if_pos hshorter]
  exact hrun'

end Enacts

end Parser

end ExprTree
