import ExprTree.Surface.Diagnostic
import ExprTree.Tree.Describe

/-!
# Tokens

The words of the tree language: six keywords, the symbols, literals and identifiers. `describe` is
how a token is called in messages.
-/

namespace ExprTree

/-- A word of the tree language. -/
inductive Lexeme where
  | closure
  | free
  | static
  | true
  | false
  | null
  | lparen
  | rparen
  | lbrace
  | rbrace
  | lbracket
  | rbracket
  | comma
  | colon
  | colonColon
  | equals
  | arrow
  | less
  | greater
  | integer (n : Int64)
  | float (x : Binary64)
  | str (s : String)
  /-- A name, form heads such as `lambda` or `invoke!` included. -/
  | ident (name : String)
  | eof
  deriving DecidableEq, Inhabited

namespace Lexeme

/-- The keyword that a word is, if it is one. -/
def keyword? : String → Option Lexeme
  | "closure" => some .closure
  | "free" => some .free
  | "static" => some .static
  | "true" => some .true
  | "false" => some .false
  | "null" => some .null
  | _ => none

/-- What a word is called in messages. -/
def describe : Lexeme → String
  | .closure => "'closure'"
  | .free => "'free'"
  | .static => "'static'"
  | .true => "'true'"
  | .false => "'false'"
  | .null => "'null'"
  | .lparen => "'('"
  | .rparen => "')'"
  | .lbrace => "'\x7b'"
  | .rbrace => "'\x7d'"
  | .lbracket => "'['"
  | .rbracket => "']'"
  | .comma => "','"
  | .colon => "':'"
  | .colonColon => "'::'"
  | .equals => "'='"
  | .arrow => "'->'"
  | .less => "'<'"
  | .greater => "'>'"
  | .integer n => "integer " ++ intText n
  | .float x => "float " ++ x.text
  | .str _ => "string literal"
  | .ident name => "identifier '" ++ name ++ "'"
  | .eof => "end of file"

end Lexeme

/-- A word and where it stands. -/
structure Token where
  lexeme : Lexeme
  span : Span
  deriving DecidableEq, Inhabited

end ExprTree
