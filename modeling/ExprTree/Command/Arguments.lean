import ExprTree.Options

/-!
# Arguments of the command line

The command line has four subcommands, each with flags and options of its own, which may stand in
any order among the files. `Arguments.ofList?` reads a list of arguments. A long option takes its
value from the next argument or behind `=`, a short one also directly behind its letter; no option
or flag may be given twice, and no value or file name may be empty; behind `--` everything is a
file.
-/

namespace ExprTree

/-- What is to be done. -/
inductive Arguments where
  /-- Expand a tree and write the result, or a report on it. -/
  | expand (input : String) (output : Option String) (maxDepth : Option Nat) (stats json : Bool)
      (config : Option String)
  /-- Expand a tree without writing it. -/
  | check (input : String) (config : Option String)
  /-- Show the fingerprints of a tree. -/
  | hash (input : String) (full : Bool)
  /-- Print trees in canonical form. -/
  | fmt (inputs : List String) (check : Bool)
  /-- Show the version. -/
  | version
  deriving DecidableEq, Inhabited

namespace Arguments

/-- The flags and options that a subcommand knows. -/
structure Spec where
  flags : List String
  options : List String
  /-- The letters that stand for options. -/
  letters : List (Char × String) := []

/-- What was given to a subcommand. -/
structure Given where
  flags : List String := []
  options : List (String × String) := []
  files : List String := []

namespace Given

/-- Adds a flag, unless it was given before. -/
def addFlag? (g : Given) (name : String) : Option Given :=
  if g.flags.contains name then none else some { g with flags := name :: g.flags }

/-- Adds an option, unless it was given before or its value is empty. -/
def addOption? (g : Given) (name value : String) : Option Given :=
  if (g.options.lookup name).isSome || value.isEmpty then none
  else some { g with options := (name, value) :: g.options }

/-- Adds a file, unless its name is empty. -/
def addFile? (g : Given) (file : String) : Option Given :=
  if file.isEmpty then none else some { g with files := g.files ++ [file] }

/-- Was a flag given? -/
def hasFlag (g : Given) (name : String) : Bool := g.flags.contains name

/-- The value given for an option. -/
def option? (g : Given) (name : String) : Option String := g.options.lookup name

end Given

/-- Can an argument be the value of an option that stands before it? -/
def isValue (arg : String) : Bool :=
  match arg.toList with
  | '-' :: _ :: _ => false
  | _ => true

/-- An argument as given: a file, the end of the options, or an option with the value behind it. -/
inductive Item where
  | file (name : String)
  | endOfOptions
  | long (name : String) (value : Option String)
  | letter (letter : Char) (value : Option String)

/-- Takes an argument apart. -/
def Item.ofArg (arg : String) : Item :=
  match arg.toList with
  | ['-', '-'] => .endOfOptions
  | '-' :: '-' :: cs =>
    let name := cs.takeWhile (· != '=')
    let value := if cs.contains '=' then some (String.ofList (cs.drop (name.length + 1))) else none
    .long (String.ofList name) value
  | '-' :: c :: cs =>
    let value := match cs with
      | [] => none
      | '=' :: v => some (String.ofList v)
      | v => some (String.ofList v)
    .letter c value
  | _ => .file arg

/-- Reads the arguments of a subcommand; `none` if they are no proper use of it. `pending` is an
option that waits for its value. -/
def given? (spec : Spec) : (pending : Option String) → Given → List String → Option Given
  | none, g, [] => some g
  | some _, _, [] => none
  | some name, g, value :: rest => do
    guard (isValue value)
    given? spec none (← g.addOption? name value) rest
  | none, g, arg :: rest =>
    let option (name : String) : Option String → Option Given
      | some value => do given? spec none (← g.addOption? name value) rest
      | none => given? spec (some name) g rest
    match Item.ofArg arg with
    | .file name => do given? spec none (← g.addFile? name) rest
    | .endOfOptions => rest.foldlM Given.addFile? g
    | .long name value =>
      if spec.options.contains name then option name value
      else do
        guard (spec.flags.contains name && value.isNone)
        given? spec none (← g.addFlag? name) rest
    | .letter c value => do option (← spec.letters.lookup c) value

/-- The nesting limit given by an option: a number from 1 to the greatest of 32 bits. -/
def depth? : Option String → Option (Option Nat)
  | none => some none
  | some value =>
    match word32? value.toList with
    | some (n + 1) => some (some (n + 1))
    | _ => none

/-- What expanding a tree takes. -/
def expandSpec : Spec where
  flags := ["stats", "json"]
  options := ["output", "max-depth", "config"]
  letters := [('o', "output")]

/-- What checking a tree takes. -/
def checkSpec : Spec where
  flags := []
  options := ["config"]

/-- What showing fingerprints takes. -/
def hashSpec : Spec where
  flags := ["full"]
  options := []

/-- What formatting takes. -/
def fmtSpec : Spec where
  flags := ["check"]
  options := []

/-- The one file of a subcommand that takes one. -/
def Given.file? (g : Given) : Option String :=
  match g.files with
  | [file] => some file
  | _ => none

/-- Reads the arguments of a subcommand. -/
def ofSubcommand? (name : String) (args : List String) : Option Arguments :=
  match name with
  | "rewrite" => do
    let g ← given? expandSpec none {} args
    let input ← g.file?
    let maxDepth ← depth? (g.option? "max-depth")
    return .expand input (g.option? "output") maxDepth (g.hasFlag "stats") (g.hasFlag "json")
      (g.option? "config")
  | "check" => do
    let g ← given? checkSpec none {} args
    return .check (← g.file?) (g.option? "config")
  | "hash" => do
    let g ← given? hashSpec none {} args
    return .hash (← g.file?) (g.hasFlag "full")
  | "fmt" => do
    let g ← given? fmtSpec none {} args
    guard !g.files.isEmpty
    return .fmt g.files (g.hasFlag "check")
  | _ => none

/-- Reads a command line; `none` if it is no proper use of the program. -/
def ofList? : List String → Option Arguments
  | [] => none
  | first :: args =>
    match Item.ofArg first with
    | .long "version" none => some .version
    | .letter 'V' _ => some .version
    | _ => ofSubcommand? first args

end Arguments

end ExprTree
