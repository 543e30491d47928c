/-!
# Spans and diagnostics

A span is a range of byte offsets in a source text. A diagnostic reports one fault of a source, with
the span it is found at, notes, and possibly a hint how to mend it.
-/

namespace ExprTree

/-- A range of byte offsets. -/
structure Span where
  start : Nat
  stop : Nat
  deriving DecidableEq, Inhabited

/-- The least span around two spans. -/
def Span.join (a b : Span) : Span := ⟨min a.start b.start, max a.stop b.stop⟩

/-- A fault found in a source text. -/
structure Diagnostic where
  message : String
  span : Span
  notes : List String := []
  help : Option String := none
  deriving DecidableEq, Inhabited

end ExprTree
