import ExprTree.Command.Arguments
import ExprTree.Command.Path
import ExprTree.Command.Report
import ExprTree.Surface.Parser.File
import ExprTree.Surface.Printer

/-!
# Running a command

A command reads and writes files through `FileAccess`, writes to the console, and ends with an exit
code. The same commands run on real files and on a `Disk` in memory.
-/

namespace ExprTree

/-- Access to files. A failure is the text of its cause. -/
class FileAccess (m : Type → Type) where
  read : String → m (Except String String)
  write : String → String → m (Except String Unit)
  pathExists : String → m Bool

/-- What a command has written to the console: text on the output, lines on the error output. -/
structure Console where
  output : String := ""
  errors : List String := []

/-- What a command ends with. -/
structure Outcome where
  code : Nat
  console : Console

/-- A step of a command; a failure is its exit code. -/
abbrev CommandStep (m : Type → Type) := ExceptT Nat (StateT Console m)

namespace Command

variable {m : Type → Type} [Monad m] [FileAccess m]

/-- Writes a line on the error output. -/
def errorLine (line : String) : CommandStep m Unit :=
  modify fun c => { c with errors := c.errors ++ [line] }

/-- Writes text on the output. -/
def print (text : String) : CommandStep m Unit :=
  modify fun c => { c with output := c.output ++ text }

/-- Ends the command as failed. -/
def fail {α : Type} : CommandStep m α := throw 1

/-- A step on files. -/
def files {α : Type} (step : m α) : CommandStep m α := ExceptT.lift (StateT.lift step)

/-! ## Options -/

/-- The name of the options file. -/
def optionsFile : String := "treexpand.toml"

/-- The options file nearest to a directory, in it or above it. -/
def nearestOptions? (dir : String) : CommandStep m (Option String) :=
  (Path.ancestors dir).map (Path.join · optionsFile) |>.findM? fun path =>
    files (FileAccess.pathExists path)

/-- Reads an options file; the command ends if that fails. -/
def readOptions (path : String) : CommandStep m Options := do
  match ← files (FileAccess.read path) with
  | .error cause =>
    errorLine ("error: cannot read '" ++ path ++ "': " ++ cause)
    fail
  | .ok text =>
    match Options.ofText text with
    | .ok options => return options
    | .error error =>
      errorLine ("error: " ++ error.message)
      errorLine ("  note: in " ++ path)
      fail

/-- The options for an input: from the given file, or the one nearest to the input, or the
defaults. -/
def loadOptions (input : String) (given : Option String) : CommandStep m Options := do
  let path ← match given with
    | some path => pure (some path)
    | none => nearestOptions? ((Path.parent? input).getD ".")
  match path with
  | some path => readOptions path
  | none => return {}

/-! ## Trees -/

/-- Reads a tree, its text and the supply behind it; reports why if that fails. -/
def loadTree? (path : String) : CommandStep m (Option (String × Expr × Supply)) := do
  match ← files (FileAccess.read path) with
  | .error cause =>
    errorLine ("error: cannot read '" ++ path ++ "': " ++ cause)
    return none
  | .ok source =>
    match parseTree source {} with
    | .ok (e, supply) => return some (source, e, supply)
    | .error _ =>
      errorLine ("error: parse errors in '" ++ path ++ "'")
      return none

/-- Reads a tree and expands it; the command ends if either fails. -/
def loadAndExpand (path : String) (options : Options) : CommandStep m (Expr × Expanded) := do
  match ← loadTree? path with
  | none => fail
  | some (_, e, supply) =>
    match expand options.maxDepth e supply with
    | .ok (expanded, _) => return (e, expanded)
    | .error failure =>
      errorLine ("error: " ++ path ++ ": " ++ failure.message)
      if !failure.isFatal then
        errorLine "  help: the tree is well formed but cannot be expanded as written"
      fail

/-! ## Subcommands -/

/-- The counters of an expansion on one line. -/
def statsLine (input : String) (s : Stats) : String :=
  "Expanded " ++ input ++ ": " ++ toString s.invocationsInlined ++ " invocation(s) inlined, "
    ++ toString s.capturesResolved ++ " capture(s) resolved, " ++ toString s.markersUnwrapped
    ++ " marker(s) unwrapped"

/-- Expands a tree and writes the result, or a report on it. -/
def expandFile (input : String) (output : Option String) (maxDepth : Option Nat) (stats json : Bool)
    (config : Option String) : CommandStep m Unit := do
  let options ← loadOptions input config
  let options := { options with maxDepth := maxDepth.getD options.maxDepth }
  let (e, expanded) ← loadAndExpand input options
  let text := formatTree expanded.tree
  let text := if json then
      Report.json { input, sourceHash := e.fingerprint, expandedHash := expanded.tree.fingerprint,
                    stats := expanded.stats, residue := expanded.tree.residue, tree := text }
    else text
  if stats then errorLine (statsLine input expanded.stats)
  match output with
  | none => print text
  | some path =>
    match ← files (FileAccess.write path text) with
    | .ok () => errorLine ("Wrote: " ++ path)
    | .error cause =>
      errorLine ("error: cannot write '" ++ path ++ "': " ++ cause)
      fail

/-- Expands a tree and tells how many nodes it has before and after. -/
def check (input : String) (config : Option String) : CommandStep m Unit := do
  let options ← loadOptions input config
  let (e, expanded) ← loadAndExpand input options
  let left := expanded.tree.residue
  if !left.isEmpty then
    errorLine ("warning: " ++ input ++ " still holds expansion targets after rewriting: "
      ++ left.text)
  let nodes := toString e.countNodes ++ " nodes"
  if e.residue.isEmpty then errorLine ("OK: " ++ input ++ " (" ++ nodes ++ ", nothing to expand)")
  else
    errorLine ("OK: " ++ input ++ " (" ++ nodes ++ " -> " ++ toString expanded.tree.countNodes
      ++ " nodes)")

/-- Shows the fingerprints of a tree and of its expansion. -/
def hash (input : String) (full : Bool) : CommandStep m Unit := do
  let options ← loadOptions input none
  let (e, expanded) ← loadAndExpand input options
  let shown (d : Digest) := if full then d.hex else d.display
  print ("  " ++ shown e.fingerprint ++ " source\n")
  print ("  " ++ shown expanded.tree.fingerprint ++ " expanded\n")
  errorLine ("File: " ++ input)

/-- Formats one file, or only checks it; the answer tells whether that went well. -/
def fmtFile (checkOnly : Bool) (path : String) : CommandStep m Bool := do
  match ← loadTree? path with
  | none =>
    errorLine ("error: cannot format '" ++ path ++ "'")
    return false
  | some (source, e, _) =>
    let text := formatTree e
    if text == source then
      errorLine ((if checkOnly then "OK: " else "Already formatted: ") ++ path)
      return true
    else if checkOnly then
      errorLine ("would reformat: " ++ path)
      return false
    else
      match ← files (FileAccess.write path text) with
      | .ok () =>
        errorLine ("Formatted: " ++ path)
        return true
      | .error cause =>
        errorLine ("error: cannot write '" ++ path ++ "': " ++ cause)
        return false

/-- Formats files, or only checks them; it fails if one of them does. -/
def fmt (inputs : List String) (checkOnly : Bool) : CommandStep m Unit := do
  let results ← inputs.mapM (fmtFile checkOnly)
  if !results.all id then fail

/-- The line that `--version` prints. -/
def versionLine : String := "treexpand 0.1.0\n"

/-- Does what the arguments ask for. -/
def perform : Arguments → CommandStep m Unit
  | .expand input output maxDepth stats json config =>
    expandFile input output maxDepth stats json config
  | .check input config => check input config
  | .hash input full => hash input full
  | .fmt inputs checkOnly => fmt inputs checkOnly
  | .version => print versionLine

/-- The exit code of a command line that is no proper use of the program. -/
def usageCode : Nat := 2

/-- Runs a command line. -/
def run (args : List String) : m Outcome := do
  match Arguments.ofList? args with
  | none => return { code := usageCode, console := {} }
  | some arguments =>
    let (result, console) ← (perform arguments).run.run {}
    match result with
    | .ok () => return { code := 0, console }
    | .error code => return { code, console }

end Command

end ExprTree
