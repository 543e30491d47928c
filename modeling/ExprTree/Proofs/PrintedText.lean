import Mathlib.Data.List.Forall2
import ExprTree.Proofs.Spelling

/-!
# The lexemes of printed texts

A printed tree is made of documents, and documents of pieces of text: names, literals, references
and types. This module says which lexemes each of them spells. A document spells the same lexemes on
one line and laid out over several (`Doc.spells_flat`, `Doc.spells_render`), since breaking a line
only exchanges blanks.

A type is *spellable* if all names in it are identifiers, and *readable* if moreover none of them is the
name of a built-in type; these are the types that a reader can give back.
-/

namespace ExprTree

open Lexer

/-! ## Types -/

namespace Ty

mutual

/-- Are all names in the type identifiers that name no built-in type? -/
def isReadable : Ty → Bool
  | .unit | .bool | .int | .float | .str | .object => true
  | .named name => isWord name && (builtin? name).isNone
  | .array t | .expr t => t.isReadable
  | .func params ret => areReadable params && ret.isReadable

/-- Are all types readable? -/
def areReadable : List Ty → Bool
  | [] => true
  | t :: ts => t.isReadable && areReadable ts

end

mutual

/-- The names in a type, those of built-in types apart. -/
def names : Ty → List String
  | .unit | .bool | .int | .float | .str | .object => []
  | .named name => [name]
  | .array t | .expr t => t.names
  | .func params ret => namesOfAll params ++ ret.names

/-- The names in types. -/
def namesOfAll : List Ty → List String
  | [] => []
  | t :: ts => t.names ++ namesOfAll ts

end

mutual

theorem isReadable_iff : ∀ {t : Ty},
    t.isReadable = true ↔ ∀ name ∈ t.names, isWord name = true ∧ builtin? name = none
  | .unit | .bool | .int | .float | .str | .object => by simp [isReadable, names]
  | .named name => by simp [isReadable, names]
  | .array t | .expr t => by rw [isReadable, names, isReadable_iff]
  | .func params ret => by
    rw [isReadable, names, Bool.and_eq_true, areReadable_iff, isReadable_iff, List.forall_mem_append]

theorem areReadable_iff : ∀ {ts : List Ty},
    areReadable ts = true ↔ ∀ name ∈ namesOfAll ts, isWord name = true ∧ builtin? name = none
  | [] => by simp [areReadable, namesOfAll]
  | t :: ts => by
    rw [areReadable, namesOfAll, Bool.and_eq_true, isReadable_iff, areReadable_iff,
      List.forall_mem_append]

end

/-- All names in the type are identifiers. -/
def Spellable (t : Ty) : Prop := ∀ name ∈ t.names, isWord name = true

theorem spellable {t : Ty} (h : t.isReadable = true) : t.Spellable :=
  fun name hname => (isReadable_iff.1 h name hname).1

mutual

/-- The lexemes of a type. -/
def lexemes : Ty → List Lexeme
  | .unit => [.ident "Unit"]
  | .bool => [.ident "Bool"]
  | .int => [.ident "Int"]
  | .float => [.ident "Float"]
  | .str => [.ident "Str"]
  | .object => [.ident "Object"]
  | .named name => [.ident name]
  | .array t => .lbracket :: (t.lexemes ++ [.rbracket])
  | .func params ret =>
    .ident "Fn" :: .lparen :: (lexemesOfParams params ++ .rparen :: .arrow :: ret.lexemes)
  | .expr t => .ident "Expr" :: .less :: (t.lexemes ++ [.greater])

/-- The lexemes of a parameter list. -/
def lexemesOfParams : List Ty → List Lexeme
  | [] => []
  | [t] => t.lexemes
  | t :: ts => t.lexemes ++ .comma :: lexemesOfParams ts

end

mutual

theorem spells_text : ∀ {t : Ty}, t.Spellable → Spells t.text.toList t.lexemes
  | .unit, _ | .bool, _ | .int, _ | .float, _ | .str, _ | .object, _ => spells_word (by decide)
  | .named name, h => spells_word (h name (List.mem_singleton_self name))
  | .array t, h => by
    have htext : (Ty.array t).text.toList = '[' :: (t.text.toList ++ [']']) := by simp [text]
    rw [htext, lexemes]
    exact spells_symbol rfl (by decide) ((spells_text (t := t) h).append
      (spells_symbol rfl (by decide) spells_nil) (edge_cons.2 rfl))
  | .func params ret, h => by
    obtain ⟨hparams, hret⟩ := List.forall_mem_append.1 h
    have htext : (Ty.func params ret).text.toList = "Fn".toList ++ '(' ::
        ((paramsText params).toList ++ ')' :: ' ' :: '-' :: '>' :: ' ' :: ret.text.toList) := by
      simp [text]
    rw [htext, lexemes]
    have hword : Spells "Fn".toList [.ident "Fn"] := spells_word (by decide)
    refine hword.append (spells_symbol rfl (by decide) ((spells_paramsText hparams).append
      (spells_symbol rfl (by decide) ?_) (edge_cons.2 rfl))) (edge_cons.2 rfl)
    exact spells_blank rfl (spells_arrow (spells_blank rfl (spells_text hret)))
  | .expr t, h => by
    have htext : (Ty.expr t).text.toList = "Expr".toList ++ '<' :: (t.text.toList ++ ['>']) := by
      simp [text]
    rw [htext, lexemes]
    have hword : Spells "Expr".toList [.ident "Expr"] := spells_word (by decide)
    exact hword.append (spells_symbol rfl (by decide) ((spells_text (t := t) h).append
      (spells_symbol rfl (by decide) spells_nil) (edge_cons.2 rfl))) (edge_cons.2 rfl)

theorem spells_paramsText : ∀ {ts : List Ty}, (∀ name ∈ namesOfAll ts, isWord name = true) →
    Spells (paramsText ts).toList (lexemesOfParams ts)
  | [], _ => spells_nil
  | [t], h => by
    rw [paramsText, lexemesOfParams]
    exact spells_text (List.forall_mem_append.1 h).1
  | t :: t' :: ts, h => by
    obtain ⟨hfirst, hrest⟩ := List.forall_mem_append.1 h
    have htext : (paramsText (t :: t' :: ts)).toList =
        t.text.toList ++ ',' :: ' ' :: (paramsText (t' :: ts)).toList := by
      simp [paramsText]
    rw [htext, lexemesOfParams]
    · exact (spells_text hfirst).append (spells_symbol rfl (by decide)
        (spells_blank rfl (spells_paramsText hrest))) (edge_cons.2 rfl)
    · simp

end

end Ty

/-! ## Lists of texts -/

theorem intercalate_cons_cons {α : Type} (sep xs ys : List α) (zss : List (List α)) :
    sep.intercalate (xs :: ys :: zss) = xs ++ (sep ++ sep.intercalate (ys :: zss)) := by
  simp [List.intercalate]

theorem intercalate_nil {α : Type} (xss : List (List α)) : [].intercalate xss = xss.flatten := by
  induction xss with
  | nil => rfl
  | cons xs xss ih =>
    cases xss with
    | nil => simp [List.intercalate]
    | cons ys zss =>
      rw [intercalate_cons_cons, List.nil_append, ih]
      rfl

/-- Texts with a separator between them. -/
theorem spells_intercalate (sep : String) (lsep : List Lexeme)
    (hsep : ∀ cs ls, Spells cs ls → Spells (sep.toList ++ cs) (lsep ++ ls))
    (hsepEdge : ∀ cs, Edge (sep.toList ++ cs)) {texts : List String} {lss : List (List Lexeme)}
    (h : List.Forall₂ (fun t ls => Spells t.toList ls) texts lss) {cs : List Char}
    {ls : List Lexeme} (hcs : Spells cs ls) (hedge : Edge cs) :
    Spells ((sep.intercalate texts).toList ++ cs) (lsep.intercalate lss ++ ls) := by
  rw [String.toList_intercalate]
  induction h with
  | nil => exact hcs
  | @cons t l texts lss ht hrest ih =>
    cases hrest with
    | nil => simpa [List.intercalate] using ht.append hcs hedge
    | @cons t' l' texts lss ht' hrest =>
      rw [List.map_cons, List.map_cons, intercalate_cons_cons, intercalate_cons_cons,
        List.append_assoc, List.append_assoc, List.append_assoc, List.append_assoc]
      exact ht.append (hsep _ _ ih) (hsepEdge _)

/-! ## References and parameters -/

/-- The lexemes of `Owner::name`. -/
def pathLexemes (owner name : String) : List Lexeme := [.ident owner, .colonColon, .ident name]

theorem spells_path {owner name : String} (howner : isWord owner = true)
    (hname : isWord name = true) :
    Spells (owner ++ "::" ++ name).toList (pathLexemes owner name) := by
  have htext : (owner ++ "::" ++ name).toList = owner.toList ++ ':' :: ':' :: name.toList := by simp
  rw [htext]
  exact (spells_word howner).append (spells_colonColon (spells_word hname)) (edge_cons.2 rfl)

/-- Are the names of the member identifiers and is its type readable? -/
def Member.isReadable (m : Member) : Bool := isWord m.owner.name && isWord m.name && m.ty.isReadable

/-- The lexemes of a member in initializers. -/
def Member.lexemes (m : Member) : List Lexeme :=
  .lparen :: .ident m.kind.word :: (pathLexemes m.owner.name m.name ++ m.ty.lexemes ++ [.rparen])

theorem isWord_kind (kind : MemberKind) : isWord kind.word = true := by
  cases kind <;> decide

/-- The names of the member and those in its type are identifiers. -/
structure Member.Spellable (m : Member) : Prop where
  owner : isWord m.owner.name = true
  name : isWord m.name = true
  ty : m.ty.Spellable

theorem Member.isReadable_iff {m : Member} : m.isReadable = true ↔
    isWord m.owner.name = true ∧ isWord m.name = true ∧ m.ty.isReadable = true := by
  rw [Member.isReadable, Bool.and_eq_true, Bool.and_eq_true, and_assoc]

theorem Member.spellable {m : Member} (h : m.isReadable = true) : m.Spellable := by
  obtain ⟨howner, hname, hty⟩ := Member.isReadable_iff.1 h
  exact ⟨howner, hname, Ty.spellable hty⟩

/-! ## Documents -/

namespace Doc

/-- The document spells the lexemes, on one line and laid out from any column on. -/
structure Spelled (d : Doc) (ls : List Lexeme) : Prop where
  flat : Spells d.flat.toList ls
  render : ∀ column, Spells (d.render column).toList ls

theorem spelled_text {s : String} {ls : List Lexeme} (h : Spells s.toList ls) :
    Spelled (.text s) ls := ⟨h, fun _ => h⟩

theorem spelled_ty {t : Ty} (h : t.Spellable) : Spelled (.text t.text) t.lexemes :=
  spelled_text (Ty.spells_text h)

/-- The lexemes of a declared type. -/
def declaredLexemes : Option Ty → List Lexeme
  | none => []
  | some t => .colon :: t.lexemes

theorem spells_declaredText {declared : Option Ty} (h : ∀ t ∈ declared, t.Spellable)
    {cs : List Char} {ls : List Lexeme} (hcs : Spells cs ls) (hedge : Edge cs) :
    Spells ((declaredText declared).toList ++ cs) (declaredLexemes declared ++ ls) ∧
      Edge ((declaredText declared).toList ++ cs) := by
  cases declared with
  | none => exact ⟨hcs, hedge⟩
  | some t =>
    have htext : (declaredText (some t)).toList = ' ' :: ':' :: ' ' :: t.text.toList := by
      simp [declaredText]
    rw [htext]
    refine ⟨spells_blank rfl ?_, edge_cons.2 rfl⟩
    exact spells_colon ((Ty.spells_text (h t rfl)).append hcs hedge)

/-- Items on one line spell what they spell one after the other. -/
theorem spells_flatItems {items : List Doc} {lss : List (List Lexeme)}
    (h : List.Forall₂ Spelled items lss) {cs : List Char} {ls : List Lexeme} (hcs : Spells cs ls)
    (hedge : Edge cs) : Spells ((flatItems items).toList ++ cs) (lss.flatten ++ ls) := by
  induction h with
  | nil => exact hcs
  | @cons d l items lss hd hitems ih =>
    cases items with
    | nil =>
      cases hitems
      simp only [List.flatten_cons, List.flatten_nil, List.append_nil]
      exact hd.flat.append hcs hedge
    | cons d' items =>
      have htext : (flatItems (d :: d' :: items)).toList =
          d.flat.toList ++ ' ' :: (flatItems (d' :: items)).toList := by
        simp [flatItems]
      rw [htext, List.flatten_cons, List.append_assoc, List.append_assoc, List.cons_append]
      exact hd.flat.append (spells_blank rfl ih) (edge_cons.2 rfl)

theorem spells_blanks (n : Nat) {cs : List Char} {ls : List Lexeme} (h : Spells cs ls) :
    Spells ((blanks n).toList ++ cs) ls := by
  have htext : (blanks n).toList = List.replicate n ' ' := by simp [blanks]
  rw [htext]
  induction n with
  | zero => exact h
  | succ n ih => exact spells_blank rfl (ih (by simp [blanks]))

/-- Items of a broken form spell what they spell one after the other; from the second one on, each
starts with a blank or a new line. -/
theorem spells_renderItems {items : List Doc} {lss : List (List Lexeme)}
    (h : List.Forall₂ Spelled items lss) {cs : List Char} {ls : List Lexeme} (hcs : Spells cs ls)
    (hedge : Edge cs) (index inline column : Nat) :
    Spells ((renderItems items index inline column).toList ++ cs) (lss.flatten ++ ls) ∧
      (0 < index → Edge ((renderItems items index inline column).toList ++ cs)) := by
  induction h generalizing index with
  | nil => exact ⟨hcs, fun _ => hedge⟩
  | @cons d l items lss hd _ ih =>
    obtain ⟨hrest, hedge'⟩ := ih (index + 1)
    have hedge' := hedge' (Nat.succ_pos index)
    rw [List.flatten_cons, List.append_assoc]
    simp only [renderItems, String.toList_append, List.append_assoc]
    by_cases hfirst : index = 0
    · subst hfirst
      refine ⟨?_, fun hpos => absurd hpos (Nat.lt_irrefl 0)⟩
      exact (hd.render (column + 1)).append hrest hedge'
    · have hitem := (hd.render (column + indentWidth)).append hrest hedge'
      have hindex : (index == 0) = false := beq_eq_false_iff_ne.2 hfirst
      by_cases hinline : index < inline
      · have htext : (" " ++ d.render (column + indentWidth)).toList =
            ' ' :: (d.render (column + indentWidth)).toList := by simp
        simp only [hindex, Bool.false_eq_true, reduceIte, hinline, htext, List.cons_append]
        exact ⟨spells_blank rfl hitem, fun _ => edge_cons.2 rfl⟩
      · have htext : ("\n" ++ blanks (column + indentWidth) ++ d.render (column + indentWidth)).toList =
            '\n' :: ((blanks (column + indentWidth)).toList ++
              (d.render (column + indentWidth)).toList) := by simp
        simp only [hindex, Bool.false_eq_true, reduceIte, hinline, htext, List.cons_append,
          List.append_assoc]
        exact ⟨spells_blank rfl (spells_blanks _ hitem), fun _ => edge_cons.2 rfl⟩

/-- A form spells its items between parentheses, with the declared type at the end. -/
theorem spelled_form {items : List Doc} {lss : List (List Lexeme)} (inline : Nat)
    (declared : Option Ty) (h : List.Forall₂ Spelled items lss)
    (hdeclared : ∀ t ∈ declared, t.Spellable) :
    Spelled (.form items inline declared)
      (.lparen :: (lss.flatten ++ declaredLexemes declared ++ [.rparen])) := by
  have hclose : Spells [')'] [.rparen] := spells_symbol rfl (by decide) spells_nil
  obtain ⟨hend, hedge⟩ := spells_declaredText hdeclared hclose (edge_cons.2 rfl)
  have hflat : Spells (flat (.form items inline declared)).toList
      (.lparen :: (lss.flatten ++ declaredLexemes declared ++ [.rparen])) := by
    have htext : (flat (.form items inline declared)).toList =
        '(' :: ((flatItems items).toList ++ ((declaredText declared).toList ++ [')'])) := by
      simp [flat]
    rw [htext, List.append_assoc]
    exact spells_symbol rfl (by decide) (spells_flatItems h hend hedge)
  refine ⟨hflat, fun column => ?_⟩
  rw [render]
  split
  · exact hflat
  · have htext : ("(" ++ renderItems items 0 inline column ++ declaredText declared ++ ")").toList =
        '(' :: ((renderItems items 0 inline column).toList ++
          ((declaredText declared).toList ++ [')'])) := by simp
    rw [htext, List.append_assoc]
    exact spells_symbol rfl (by decide) (spells_renderItems h hend hedge 0 inline column).1

theorem spelled_list {items : List Doc} {lss : List (List Lexeme)}
    (h : List.Forall₂ Spelled items lss) :
    Spelled (list items) (.lparen :: (lss.flatten ++ [.rparen])) := by
  have hform := spelled_form 1 none h (by simp)
  rwa [declaredLexemes, List.append_nil] at hform

theorem spelled_headed {head : String} {l : Lexeme} (hhead : Spells head.toList [l])
    {rest : List Doc} {lss : List (List Lexeme)} (h : List.Forall₂ Spelled rest lss) (inline : Nat) :
    Spelled (headed head rest inline) (.lparen :: l :: (lss.flatten ++ [.rparen])) := by
  have hform := spelled_form inline none (.cons (spelled_text hhead) h) (by simp)
  rwa [declaredLexemes, List.append_nil, List.flatten_cons] at hform

/-- The type that is written at the end of a form: none if its parts imply the right one. -/
def written (actual implied : Ty) : Option Ty := if actual = implied then none else some actual

theorem spelled_annotate {head : String} {l : Lexeme} (hhead : Spells head.toList [l])
    {rest : List Doc} {lss : List (List Lexeme)} (h : List.Forall₂ Spelled rest lss) (inline : Nat)
    {actual implied : Ty} (hty : ∀ t ∈ written actual implied, t.Spellable) :
    Spelled ((headed head rest inline).annotate actual implied)
      (.lparen :: l :: (lss.flatten ++ declaredLexemes (written actual implied) ++ [.rparen])) := by
  have hdoc : (headed head rest inline).annotate actual implied =
      .form (.text head :: rest) inline (written actual implied) := by
    by_cases heq : actual = implied <;> simp [headed, annotate, written, heq]
  rw [hdoc]
  exact spelled_form inline _ (.cons (spelled_text hhead) h) hty

end Doc

theorem Member.spelled_doc {m : Member} (h : m.Spellable) : m.doc.Spelled m.lexemes := by
  obtain ⟨howner, hname, hty⟩ := h
  have htext : ("(" ++ m.kind.word ++ " " ++ m.path ++ " " ++ m.ty.text ++ ")").toList =
      '(' :: (m.kind.word.toList ++ ' ' :: ((m.owner.name ++ "::" ++ m.name).toList ++
        ' ' :: (m.ty.text.toList ++ [')']))) := by
    simp [Member.path]
  refine Doc.spelled_text ?_
  rw [htext, Member.lexemes, List.append_assoc]
  refine spells_symbol rfl (by decide) ((spells_word (isWord_kind m.kind)).append
    (spells_blank rfl ((spells_path howner hname).append (spells_blank rfl ?_) (edge_cons.2 rfl)))
    (edge_cons.2 rfl))
  exact (Ty.spells_text hty).append (spells_symbol rfl (by decide) spells_nil) (edge_cons.2 rfl)

/-- The lexemes of a parameter. -/
def paramLexemes (ns : Names) (p : Variable) : List Lexeme :=
  .lparen :: .ident (ns.name p) :: (p.ty.lexemes ++ [.rparen])

theorem spelled_paramsDoc {ns : Names} {params : List Variable}
    (h : ∀ p ∈ params, isWord (ns.name p) = true ∧ p.ty.Spellable) :
    (paramsDoc ns params).Spelled (.lparen :: (params.flatMap (paramLexemes ns) ++ [.rparen])) := by
  have hitems : ∀ cs ls, Spells cs ls → Edge cs →
      Spells ((" ".intercalate (params.map fun p => "(" ++ ns.name p ++ " " ++ p.ty.text ++ ")")).toList
        ++ cs) (params.flatMap (paramLexemes ns) ++ ls) := by
    intro cs ls hcs hedge
    have hparams : List.Forall₂ (fun t ls => Spells t.toList ls)
        (params.map fun p => "(" ++ ns.name p ++ " " ++ p.ty.text ++ ")")
        (params.map (paramLexemes ns)) := by
      rw [List.forall₂_map_left_iff, List.forall₂_map_right_iff, List.forall₂_same]
      intro p hp
      obtain ⟨hname, hty⟩ := h p hp
      have htext : ("(" ++ ns.name p ++ " " ++ p.ty.text ++ ")").toList =
          '(' :: ((ns.name p).toList ++ ' ' :: (p.ty.text.toList ++ [')'])) := by simp
      rw [htext, paramLexemes]
      exact spells_symbol rfl (by decide) ((spells_word hname).append (spells_blank rfl
        ((Ty.spells_text hty).append (spells_symbol rfl (by decide) spells_nil) (edge_cons.2 rfl)))
        (edge_cons.2 rfl))
    have hspells := spells_intercalate " " []
      (fun _ _ h => spells_blank rfl h) (fun _ => edge_cons.2 rfl) hparams hcs hedge
    rwa [intercalate_nil, ← List.flatMap_def] at hspells
  refine Doc.spelled_text ?_
  have hclose : Spells [')'] [.rparen] := spells_symbol rfl (by decide) spells_nil
  have hall := spells_symbol (c := '(') rfl (by decide) (hitems [')'] _ hclose (edge_cons.2 rfl))
  simpa using hall

/-- A call is printed from the documents of its object and its arguments. -/
theorem Printer.node_call (ns : Names) (o : Option Expr) (m : Method) (args : List Expr) :
    Printer.node ns (.call o m args) =
      Printer.callDoc m o args (Printer.object ns o) (Printer.exprs ns args) := by
  rw [Printer.node]

end ExprTree
