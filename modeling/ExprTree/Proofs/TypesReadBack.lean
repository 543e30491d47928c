import ExprTree.Proofs.Acceptance
import ExprTree.Proofs.RecognizedSources
import ExprTree.Proofs.WellScoped

/-!
# Types are read back as printed

The text of a type is cut into the lexemes of the type (`Ty.spells_text`), and these are a phrase of
the grammar that means the type (`tyAt_lexemes`). What follows matters only where a type ends in `Fn` or
`Expr` as a plain name, which `(` or `<` would turn into the start of a longer type. Inside a type
neither stands behind another type: there it is `]`, `)`, `,` or `>`.

So a constant that is declared with the text of a type has that type (`Ty.text_reads_back`). Of the names
in the type it is asked that each is cut into one identifier, and that none is the name of a built-in
type.
-/

namespace ExprTree

open Lexer Grammar

/-- An identifier is what is cut into one, with nothing left over. -/
theorem isWord_iff_tokenize {name : String} :
    isWord name = true ↔ (tokenize name).lexemes = [.ident name, .eof] := by
  refine ⟨fun h => (spells_word h).tokenize.1, fun h => ?_⟩
  have hmem : Lexeme.ident name ∈ (tokenize name).lexemes := h ▸ List.mem_cons_self
  obtain ⟨t, ht, hlexeme⟩ := List.mem_map.1 hmem
  exact (run_tokens _).1 t ht name hlexeme

/-! ## The phrase of a type -/

/-- The word at hand turns no plain name before it into the start of a longer type. -/
def EndsName (p : Point) : Prop := p.head ≠ .lparen ∧ p.head ≠ .less

mutual

/-- The lexemes of a type are a phrase that means the type. -/
theorem tyAt_lexemes : ∀ {t : Ty} {p : Point}, t.isReadable = true → EndsName p →
    TyAt ⟨t.lexemes ++ p.ahead, p.supply⟩ t p
  | .unit, _, _, _ | .bool, _, _, _ | .int, _, _, _ | .float, _, _, _ | .str, _, _, _
  | .object, _, _, _ => .builtin rfl (.mk _ _)
  | .named name, p, hreadable, hend => by
    rw [Ty.isReadable, Bool.and_eq_true, Option.isNone_iff_eq_none] at hreadable
    exact .named hreadable.2 (.mk _ _) (fun _ => hend.1) fun _ => hend.2
  | .array t, p, hreadable, _ => by
    rw [Ty.lexemes, List.cons_append, List.append_assoc]
    exact .array (.mk _ _) (tyAt_lexemes (p := p.before .rbracket) hreadable ⟨nofun, nofun⟩) (.mk _ _)
  | .func params ret, p, hreadable, hend => by
    rw [Ty.isReadable, Bool.and_eq_true] at hreadable
    rw [Ty.lexemes, List.cons_append, List.cons_append, List.append_assoc]
    exact .func (.mk _ _) (.mk _ _)
      (commaList_lexemes (p := ⟨.rparen :: .arrow :: (ret.lexemes ++ p.ahead), p.supply⟩) hreadable.1 rfl)
      (.mk _ _) (.mk _ _) (tyAt_lexemes hreadable.2 hend)
  | .expr t, p, hreadable, _ => by
    rw [Ty.lexemes, List.cons_append, List.cons_append, List.append_assoc]
    exact .expr (.mk _ _) (.mk _ _)
      (tyAt_lexemes (p := p.before .greater) hreadable ⟨nofun, nofun⟩) (.mk _ _)

/-- The lexemes of parameter types, with a comma between any two, up to the closing parenthesis. -/
theorem commaList_lexemes : ∀ {ts : List Ty} {p : Point}, Ty.areReadable ts = true → p.head = .rparen →
    CommaList TyAt ⟨Ty.lexemesOfParams ts ++ p.ahead, p.supply⟩ ts p
  | [], _, _, _ => .nil
  | [t], p, hreadable, hclose => by
    rw [Ty.areReadable, Bool.and_eq_true] at hreadable
    rw [Ty.lexemesOfParams]
    exact .last (tyAt_lexemes hreadable.1 ⟨by rw [hclose]; nofun, by rw [hclose]; nofun⟩)
  | t :: t' :: ts, p, hreadable, hclose => by
    rw [Ty.areReadable, Bool.and_eq_true] at hreadable
    rw [Ty.lexemesOfParams.eq_3 _ _ (by simp), List.append_assoc, List.cons_append]
    exact .cons (tyAt_lexemes (p := ⟨.comma :: (Ty.lexemesOfParams (t' :: ts) ++ p.ahead), p.supply⟩)
      hreadable.1 ⟨nofun, nofun⟩) (.mk _ _) (commaList_lexemes hreadable.2 hclose)

end

/-! ## Constants of a declared type -/

/-- A null constant that is declared with the text of a type. -/
def Ty.nullConstant (t : Ty) : String := "(const null " ++ t.text ++ ")"

theorem spells_nullConstant {t : Ty} (h : t.Spellable) : Spells t.nullConstant.toList
    ([.lparen, .ident "const", .null] ++ (t.lexemes ++ [.rparen])) := by
  have htext : t.nullConstant.toList =
      '(' :: ("const".toList ++ ' ' :: ("null".toList ++ ' ' :: (t.text.toList ++ [')']))) := by
    simp [Ty.nullConstant]
  have hnull : Spells "null".toList [.null] := spells_name (by decide)
  rw [htext]
  exact spells_symbol rfl (by decide) ((spells_word (by decide)).append (spells_blank rfl
    (hnull.append (spells_blank rfl ((Ty.spells_text h).append (spells_symbol rfl (by decide) spells_nil)
      (edge_cons.2 rfl))) (edge_cons.2 rfl))) (edge_cons.2 rfl))

/-- The node of a constant draws one identity. -/
theorem fileAt_nullConstant {t : Ty} (h : t.isReadable = true) (supply : Supply) :
    FileAt ⟨[.lparen, .ident "const", .null] ++ (t.lexemes ++ [.rparen]) ++ [.eof], supply⟩
      ((Node.constant .null t).alloc.run supply).1 ((Node.constant .null t).alloc.run supply).2 := by
  have htype : TyAt ⟨t.lexemes ++ [.rparen, .eof], supply⟩ t ⟨[.rparen, .eof], supply⟩ :=
    tyAt_lexemes (p := ⟨[.rparen, .eof], supply⟩) h ⟨nofun, nofun⟩
  rw [List.append_assoc, List.append_assoc]
  exact .mk .nil ⟨_, _, .form (.mk _ _) (.plain (.constant (.mk _ _) (.literal .null (.mk _ _)) htype))
    (.mk _ _), .mk _ _⟩

/-- Types are read back as printed. A constant that is declared with the text of a type is accepted and has
exactly that type, if each name in the type is cut into one identifier and is not the name of a built-in type.
`Fn` and `Expr` may stand anywhere as plain names. -/
theorem Ty.text_reads_back (t : Ty)
    (hnames : ∀ name ∈ t.names, (tokenize name).lexemes = [.ident name, .eof] ∧ Ty.builtin? name = none)
    (supply : Supply) : ∃ e supply', parseTree ("(const null " ++ t.text ++ ")") supply = .ok (e, supply') ∧
      e.node = .constant .null t ∧ e.ty = t := by
  have hreadable : t.isReadable = true :=
    Ty.isReadable_iff.2 fun name hname => (hnames name hname).imp_left isWord_iff_tokenize.2
  obtain ⟨hlexemes, hfaults⟩ := (spells_nullConstant (Ty.spellable hreadable)).tokenize
  have hends : (ParseState.point { tokens := (tokenize t.nullConstant).tokens, supply }).Ends := run_ends _
  have hfile : FileAt (ParseState.point { tokens := (tokenize t.nullConstant).tokens, supply })
      ((Node.constant .null t).alloc.run supply).1 ((Node.constant .null t).alloc.run supply).2 := by
    have hpoint : ParseState.point { tokens := (tokenize t.nullConstant).tokens, supply } =
        ⟨[.lparen, .ident "const", .null] ++ (t.lexemes ++ [.rparen]) ++ [.eof], supply⟩ :=
      congrArg (Point.mk · supply) hlexemes
    rw [hpoint]
    exact fileAt_nullConstant hreadable supply
  obtain ⟨s, hrun, hsize, hsupply⟩ := (Parser.file_iff_fileAt hends rfl rfl).2 hfile
  exact ⟨_, _, parseTree_eq_ok_iff.2 ⟨hfaults, s, hrun, hsize, hsupply⟩, rfl, rfl⟩

/-- A type in which `Fn` and `Expr` are plain names and also constructors. -/
def plainFnAndExpr : Ty :=
  .func [.named "Fn", .array (.named "Expr"), .expr (.func [] (.named "A!"))] (.array (.expr (.named "Expr")))

theorem Ty.text_reads_back_on_plainFnAndExpr :
    plainFnAndExpr.text = "Fn(Fn, [Expr], Expr<Fn() -> A!>) -> [Expr<Expr>]" ∧
    (∀ name ∈ plainFnAndExpr.names,
      (tokenize name).lexemes = [.ident name, .eof] ∧ Ty.builtin? name = none) ∧
    ∃ e supply', parseTree ("(const null " ++ plainFnAndExpr.text ++ ")") {} = .ok (e, supply') ∧
      e.node = .constant .null plainFnAndExpr ∧ e.ty = plainFnAndExpr := by
  have hnames : ∀ name ∈ plainFnAndExpr.names,
      (tokenize name).lexemes = [.ident name, .eof] ∧ Ty.builtin? name = none := by decide +kernel
  exact ⟨by decide, hnames, Ty.text_reads_back plainFnAndExpr hnames {}⟩

end ExprTree
