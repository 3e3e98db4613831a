/-
# ClassChart.Disk — files and directories as a value

A `Disk` is a tree of directories and files together with the directory that relative paths start
from. Reading looks a path up, writing gives a new disk. Paths are texts with `/` between their parts;
`.` stands for the directory itself and `..` for the one around it.
-/
namespace ClassChart

/-! ## Entries -/

/-- What a name in a directory stands for. -/
inductive Entry where
  | file (bytes : ByteArray)
  | directory (entries : List (String × Entry))
deriving Inhabited

namespace Entry

/-- Whether the entry is a directory. -/
def isDirectory : Entry → Bool
  | file _ => false
  | directory _ => true

/-- The entries of a directory; a file has none. -/
def entries : Entry → List (String × Entry)
  | file _ => []
  | directory entries => entries

/-- The entry with the given name. -/
def child? (e : Entry) (name : String) : Option Entry :=
  (e.entries.find? fun child => child.1 == name).map (·.2)

/-- The entries of a directory by the order of their names. -/
def listing (e : Entry) : List (String × Entry) := e.entries.mergeSort fun a b => !(b.1 < a.1)

end Entry

/-- Why a path cannot be read or written. -/
inductive SystemError where
  | notFound
  | notDirectory
  | isDirectory
  | invalidText
  /-- Any other error, in the words of the operating system. -/
  | other (message : String)
deriving DecidableEq, Repr

/-- The wording of the operating system. -/
def SystemError.message : SystemError → String
  | notFound => "No such file or directory (os error 2)"
  | notDirectory => "Not a directory (os error 20)"
  | isDirectory => "Is a directory (os error 21)"
  | invalidText => "stream did not contain valid UTF-8"
  | other message => message

/-! ## Paths -/

namespace Path

/-- The parts of a path between its slashes. -/
def parts (path : String) : List String := (path.toList.splitOn '/').map String.ofList

/-- Whether the path starts from the root of the disk. -/
def isAbsolute (path : String) : Bool := path.toList.head? == some '/'

/-- Whether the path ends in a slash. -/
def isSlashed (path : String) : Bool := path.toList.getLast? == some '/'

/-- Whether the part stays in the same directory. -/
def isIdle (part : String) : Bool := part == "" || part == "."

/-- A part behind a path. An empty part leaves a slash at the end. -/
def join (path part : String) : String :=
  if isSlashed path then path ++ part else path ++ "/" ++ part

/-- What two paths have in common when they are spelled alike: idle parts do not count, except that a
relative path may start with a `.`. -/
structure Spelling where
  absolute : Bool
  dotted : Bool
  names : List String
deriving DecidableEq, Repr

/-- The spelling of a path. -/
def spelling (path : String) : Spelling :=
  let all := parts path
  ⟨isAbsolute path, all.head? == some ".", all.filter (!isIdle ·)⟩

end Path

/-! ## Disks -/

/-- A tree of files, and the directory that relative paths start from. -/
structure Disk where
  root : Entry
  /-- The names from the root down to the working directory. -/
  working : List String
deriving Inhabited

namespace Disk

open ClassChart.Path

/-- A disk with nothing but a working directory and what it holds. -/
def ofWorking (working : List String) (entries : List (String × Entry)) : Disk :=
  ⟨working.foldr (fun name inner => .directory [(name, inner)]) (.directory entries), working⟩

/-- Follows the parts of a path from a place, given with the directories around it. -/
def follow (here : Entry) (around : List Entry) : List String → Except SystemError Entry
  | [] => .ok here
  | part :: rest =>
    if !here.isDirectory then .error .notDirectory
    else if isIdle part then follow here around rest
    else if part = ".." then
      match around with
      | [] => follow here [] rest
      | outer :: more => follow outer more rest
    else
      match here.child? part with
      | some child => follow child (here :: around) rest
      | none => .error .notFound

/-- The parts of a path from the root. -/
def fromRoot (d : Disk) (path : String) : List String :=
  if isAbsolute path then parts path else d.working ++ parts path

/-- What a path leads to. -/
def lookup (d : Disk) (path : String) : Except SystemError Entry :=
  if path = "" then .error .notFound else follow d.root [] (d.fromRoot path)

/-- Whether a path leads somewhere. -/
def exists? (d : Disk) (path : String) : Bool := (d.lookup path).toOption.isSome

/-- Whether a path leads to a file. -/
def isFile (d : Disk) (path : String) : Bool :=
  (d.lookup path).toOption.any fun e => !e.isDirectory

/-- The text of a file. -/
def readText (d : Disk) (path : String) : Except SystemError String := do
  match ← d.lookup path with
  | .directory _ => .error .isDirectory
  | .file bytes =>
    match String.fromUTF8? bytes with
    | some text => .ok text
    | none => .error .invalidText

/-! ## Changes -/

/-- The names that a sequence of parts comes down to. -/
def names (parts : List String) : List String :=
  parts.foldl (fun names part =>
    if isIdle part then names else if part = ".." then names.dropLast else names ++ [part]) []

/-- Changes the entry of a name, or adds one at the end. -/
def setEntry (name : String) (change : Option Entry → Entry) :
    List (String × Entry) → List (String × Entry)
  | [] => [(name, change none)]
  | (other, e) :: rest =>
    if other = name then (other, change (some e)) :: rest
    else (other, e) :: setEntry name change rest

/-- Puts an entry below a directory, with the directories on the way to it. -/
def Entry.put (new : Entry) : List String → Entry → Entry
  | [], old =>
    match new, old with
    | .directory _, .directory entries => .directory entries
    | _, _ => new
  | name :: rest, old =>
    .directory (setEntry name (fun e => put new rest (e.getD (.directory []))) old.entries)

/-- Puts an entry at a path and makes the directories that lead to it. A directory that is there
already stays. -/
def put (d : Disk) (path : String) (new : Entry) : Disk :=
  { d with root := Entry.put new (names (d.fromRoot path)) d.root }

/-- Writes a file. The directory around it must be there. A path that ends in a slash, or that leads
to a directory, is no place for a file. -/
def write (d : Disk) (path : String) (bytes : ByteArray) : Except SystemError Disk :=
  if path = "" then .error .notFound
  else
    let all := d.fromRoot path
    let slashed := all.getLast? = some ""
    let trimmed := (all.reverse.dropWhile (· == "")).reverse
    match follow d.root [] trimmed.dropLast with
    | .error error => .error error
    | .ok around =>
      if !around.isDirectory then .error .notDirectory
      else if slashed ∨ (follow d.root [] trimmed).toOption.any (·.isDirectory) then
        .error .isDirectory
      else .ok (d.put path (.file bytes))

end Disk

end ClassChart
