import ExprTree.Expansion.Inline
import ExprTree.Fingerprint.Encoding

/-!
# The JSON report on an expansion

Objects are written over several lines, indented by two blanks, with their fields in order.
-/

namespace ExprTree

namespace Json

/-- A character inside a JSON string. Control characters are escaped, and nothing else but quotes
and backslashes. -/
def char (c : Char) : List Char :=
  match c with
  | '"' => ['\\', '"']
  | '\\' => ['\\', '\\']
  | '\n' => ['\\', 'n']
  | '\r' => ['\\', 'r']
  | '\t' => ['\\', 't']
  | '\x08' => ['\\', 'b']
  | '\x0c' => ['\\', 'f']
  | c =>
    if c.toNat < 0x20 then
      ['\\', 'u', '0', '0', hexDigit (c.toNat / 16), hexDigit (c.toNat % 16)]
    else [c]

/-- A JSON string. -/
def string (s : String) : String := "\"" ++ String.ofList (s.toList.flatMap char) ++ "\""

/-- A JSON object at a level of nesting, its fields given as texts. -/
def object (level : Nat) (fields : List (String × String)) : String :=
  let indent (n : Nat) := String.ofList (List.replicate (2 * n) ' ')
  let lines := fields.map fun (key, value) => indent (level + 1) ++ string key ++ ": " ++ value
  "\x7b\n" ++ ",\n".intercalate lines ++ "\n" ++ indent level ++ "\x7d"

end Json

/-- The report on an expansion. -/
structure Report where
  input : String
  sourceHash : Digest
  expandedHash : Digest
  stats : Stats
  residue : Residue
  tree : String

/-- The counters of an expansion as fields. -/
def Stats.fields (s : Stats) : List (String × Nat) :=
  [("invocations_inlined", s.invocationsInlined), ("captures_resolved", s.capturesResolved),
    ("sentinels_unwrapped", s.markersUnwrapped)]

/-- The counts of a residue as fields. -/
def Residue.fields (r : Residue) : List (String × Nat) :=
  [("invocations", r.invocations), ("invoke_calls", r.invokeCalls),
    ("expandable_calls", r.expandableCalls), ("captured_trees", r.capturedTrees)]

/-- A residue on one line. -/
def Residue.text (r : Residue) : String :=
  "Residue \x7b " ++ ", ".intercalate (r.fields.map fun (name, n) => name ++ ": " ++ toString n)
    ++ " \x7d"

/-- The report as JSON, with a line feed at its end. -/
def Report.json (r : Report) : String :=
  let counts (fields : List (String × Nat)) :=
    Json.object 1 (fields.map fun (k, n) => (k, toString n))
  Json.object 0
    [("input", Json.string r.input), ("source_hash", Json.string r.sourceHash.hex),
      ("expanded_hash", Json.string r.expandedHash.hex), ("stats", counts r.stats.fields),
      ("residue", counts r.residue.fields), ("tree", Json.string r.tree)] ++ "\n"

end ExprTree
