import ExprTree.Fingerprint.Encoding
import ExprTree.Surface.Parser.File
import ExprTree.Surface.Printer

/-!
# Reading back what was printed

`Expr.readBack` prints a tree, reads the text again and compares: first the fingerprints, then the
texts that the two trees print as.
-/

namespace ExprTree

/-- What becomes of a tree that is printed and read again. -/
inductive ReadBack where
  /-- The text is not accepted; this is the first report. -/
  | refused (message : String)
  | otherFingerprint
  | otherText
  | same
  deriving DecidableEq, Inhabited

/-- Prints a tree and reads it again. -/
def Expr.readBack (e : Expr) : ReadBack :=
  let text := formatTree e
  match parseTree text {} with
  | .error faults => .refused ((faults.head?.map (·.message)).getD "")
  | .ok (e', _) =>
    if e'.fingerprint != e.fingerprint then .otherFingerprint
    else if formatTree e' != text then .otherText
    else .same

end ExprTree
