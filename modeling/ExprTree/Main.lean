import ExprTree.Command.Run

/-!
# The program

Runs a command line on the files of the system.
-/

namespace ExprTree

/-- The text of the cause of a failed file operation. -/
def causeText : IO.Error → String
  | .noFileOrDirectory _ code _ => "No such file or directory (os error " ++ toString code ++ ")"
  | .inappropriateType _ code details => details ++ " (os error " ++ toString code ++ ")"
  | .permissionDenied _ code details => details ++ " (os error " ++ toString code ++ ")"
  | error => toString error

/-- Runs a file operation and keeps the cause if it fails. -/
def attempt {α : Type} (step : IO α) : BaseIO (Except String α) := do
  match ← step.toBaseIO with
  | .ok a => return .ok a
  | .error error => return .error (causeText error)

instance : FileAccess BaseIO where
  read path := attempt (IO.FS.readFile path)
  write path text := attempt (IO.FS.writeFile path text)
  pathExists path := do
    match ← IO.currentDir.toBaseIO with
    | .ok dir => (dir / path).pathExists
    | .error _ => return false

/-- How the program is used. -/
def usage : String :=
  "usage: treexpand rewrite <file> [-o <file>] [--max-depth <n>] [--stats] [--json]\n"
    ++ "                         [--config <file>]\n"
    ++ "       treexpand check <file> [--config <file>]\n"
    ++ "       treexpand hash <file> [--full]\n"
    ++ "       treexpand fmt <file>... [--check]"

end ExprTree

/-- Runs the program. -/
def main (args : List String) : IO UInt32 := do
  let outcome ← (ExprTree.Command.run args : BaseIO ExprTree.Outcome)
  if outcome.code == ExprTree.Command.usageCode then IO.eprintln ExprTree.usage
  for line in outcome.console.errors do IO.eprintln line
  IO.print outcome.console.output
  return UInt32.ofNat outcome.code
