/-!
# File paths

Paths are texts whose components are separated by `/`. These functions follow the text of a path and
do not look at files.
-/

namespace ExprTree

namespace Path

/-- Does a path start at the root? -/
def isAbsolute (path : String) : Bool := path.toList.head? == some '/'

/-- Does a path end in a separator? -/
def endsInSeparator (path : String) : Bool := path.toList.getLast? == some '/'

/-- The pieces between the separators of a path, the root aside. -/
def pieces (path : String) : List String :=
  let ps := path.splitOn "/"
  if isAbsolute path then ps.drop 1 else ps

/-- Drops empty pieces and dots from the end; the first piece may be a dot if the path is
relative. -/
def trimEnd (absolute : Bool) (ps : List String) : List String :=
  let skipped (p : String) : Bool := p.isEmpty || p == "."
  match absolute, ps with
  | false, "." :: rest => "." :: (rest.reverse.dropWhile skipped).reverse
  | _, ps => (ps.reverse.dropWhile skipped).reverse

/-- The path without its last component; a path without components has no parent. -/
def parent? (path : String) : Option String :=
  let absolute := isAbsolute path
  match trimEnd absolute (pieces path) with
  | [] => none
  | ps =>
    let kept := "/".intercalate (trimEnd absolute ps.dropLast)
    some (if absolute then "/" ++ kept else kept)

/-- A file in a directory. -/
def join (dir file : String) : String :=
  if dir.isEmpty then file
  else if endsInSeparator dir then dir ++ file
  else dir ++ "/" ++ file

/-- A directory and at most `n` directories above it, from the inside out. -/
def ancestorsUpTo : (n : Nat) → (dir : String) → List String
  | 0, dir => [dir]
  | n + 1, dir =>
    match parent? dir with
    | some up => dir :: ancestorsUpTo n up
    | none => [dir]

/-- A directory and all directories above it, from the inside out. -/
def ancestors (dir : String) : List String := ancestorsUpTo (pieces dir).length dir

end Path

end ExprTree
