import ExprTree.Command.Run

/-!
# Files in memory

A `Disk` is a file system with a root, the usual directories at the root, the devices under `/dev`
and a working directory. Files are held by their place, the names on the way to them from the root;
the directories are those on the way to something. A path is followed name by name, from the root or
from the working directory, so every directory on the way must exist.
-/

namespace ExprTree

/-- The names on the way from the root to a file or directory. -/
abbrev Place := List String

/-- A device, which stands where a file could. -/
inductive Device where
  /-- Is empty and takes every text. -/
  | null
  /-- Takes no text. -/
  | full
  /-- Stands for the output of the program. -/
  | output
  deriving DecidableEq, Inhabited

/-- The device at a place. -/
def Device.ofPlace? : Place → Option Device
  | ["dev", "null"] => some .null
  | ["dev", "full"] => some .full
  | ["dev", "stdout"] => some .output
  | _ => none

/-- Files by their place. -/
structure Disk where
  /-- The working directory. -/
  home : Place := ["tmp", "work"]
  files : List (Place × String)
  /-- What has been written to the output as a device. -/
  printed : String := ""

namespace Disk

/-! ## Failures

The causes of failures are worded as the operating system does. -/

/-- Nothing stands at a place. -/
def notFound : String := "No such file or directory (os error 2)"

/-- A file stands where a directory is needed. -/
def notADirectory : String := "Not a directory (os error 20)"

/-- A directory stands where a file is needed. -/
def isADirectory : String := "Is a directory (os error 21)"

/-- A device takes no more. -/
def noSpace : String := "No space left on device (os error 28)"

/-- A path or a name in it has too many bytes. -/
def nameTooLong : String := "File name too long (os error 36)"

/-! ## Places -/

/-- The directories at the root. -/
def rootNames : List String :=
  ["bin", "boot", "dev", "etc", "home", "lib", "media", "mnt", "opt", "proc", "root", "run", "sbin",
    "srv", "sys", "tmp", "usr", "var"]

/-- The names along a path. -/
def names (path : String) : List String := (path.splitOn "/").filter (!·.isEmpty)

/-- A disk with the given files in its working directory. -/
def ofList (files : List (String × String)) : Disk :=
  let d : Disk := { files := [] }
  { d with files := files.map fun (path, text) =>
      (d.home ++ (names path).filter (· != "."), text) }

/-- The text of the file at a place; a device reads as empty. -/
def file? (d : Disk) (place : Place) : Option String :=
  if (Device.ofPlace? place).isSome then some "" else d.files.lookup place

/-- Is there a directory at a place? -/
def isDir (d : Disk) (place : Place) : Bool :=
  (d.home :: rootNames.map ([·])).any place.isPrefixOf
    || d.files.any fun f => place.length < f.1.length && place.isPrefixOf f.1

/-- The most bytes that a name may have. -/
def maxNameBytes : Nat := 255

/-- The most bytes that a path may have. -/
def maxPathBytes : Nat := 4095

/-- Goes from a place along names to the place that the last one names, which need not exist. The
directory above the root is the root. -/
def follow (d : Disk) (place : Place) : List String → Except String Place
  | [] => .ok place
  | name :: rest =>
    if (d.file? place).isSome then .error notADirectory
    else if !d.isDir place then .error notFound
    else if maxNameBytes < name.utf8ByteSize then .error nameTooLong
    else if name == "." then d.follow place rest
    else if name == ".." then d.follow place.dropLast rest
    else d.follow (place ++ [name]) rest

/-- The place that the names along a path lead to, from the root or the working directory. -/
def locateNames (d : Disk) (path : String) (names : List String) : Except String Place :=
  if path.isEmpty then .error notFound
  else if maxPathBytes < path.utf8ByteSize then .error nameTooLong
  else d.follow (if Path.isAbsolute path then [] else d.home) names

/-- The place that a path names. What stands before a separator at the end must be a directory. -/
def locate (d : Disk) (path : String) : Except String Place :=
  d.locateNames path (if Path.endsInSeparator path then names path ++ ["."] else names path)

/-! ## Reading and writing -/

/-- Reads a file. -/
def read (d : Disk) (path : String) : Except String String := do
  let place ← d.locate path
  match d.file? place with
  | some text => return text
  | none => .error (if d.isDir place then isADirectory else notFound)

/-- Writes to a device. -/
def writeDevice (d : Disk) (text : String) : Device → Except String Disk
  | .null => .ok d
  | .full => .error noSpace
  | .output => .ok { d with printed := d.printed ++ text }

/-- The disk with a text at a place, in place of a file that stands there. -/
def put (d : Disk) (place : Place) (text : String) : Disk :=
  if (d.files.lookup place).isSome then
    { d with files := d.files.map fun f => if f.1 == place then (place, text) else f }
  else { d with files := d.files ++ [(place, text)] }

/-- Writes a file, which need not exist; its directory must. A path that ends in a separator is
taken for a directory, whether there is one or not. -/
def write (d : Disk) (path text : String) : Except String Disk := do
  let place ← d.locateNames path (names path)
  if d.isDir place || Path.endsInSeparator path then .error isADirectory
  else
    match Device.ofPlace? place with
    | some device => d.writeDevice text device
    | none => if d.isDir place.dropLast then return d.put place text else .error notFound

/-- Does a path name a file or a directory? -/
def pathExists (d : Disk) (path : String) : Bool :=
  match d.locate path with
  | .ok place => (d.file? place).isSome || d.isDir place
  | .error _ => false

/-- The files in the working directory of `after` that are new or differ from `before`, with their
paths. -/
def changes (before after : Disk) : List (String × String) :=
  (after.files.filter fun f => after.home.isPrefixOf f.1 && before.file? f.1 != some f.2).map
    fun f => ("/".intercalate (f.1.drop after.home.length), f.2)

end Disk

instance : FileAccess (StateM Disk) where
  read path := return (← get).read path
  write path text := do
    match (← get).write path text with
    | .ok d =>
      set d
      return .ok ()
    | .error cause => return .error cause
  pathExists path := return (← get).pathExists path

/-- Runs a command line on a disk. What it writes to the output as a device comes out there. -/
def Disk.run (d : Disk) (args : List String) : Outcome × Disk :=
  let (outcome, after) := (Command.run args : StateM Disk _).run { d with printed := "" }
  let output := after.printed ++ outcome.console.output
  ({ outcome with console := { outcome.console with output } }, after)

end ExprTree
