/-
# ClassChart.Disk.Search — the paths that match a pattern

The components of a pattern are followed one after another. A component without wildcards is looked up
as it is; one with wildcards is matched against the entries of the directory, in the order of their
names; `**` stands for everything below the directory, a directory before what it holds.
-/
import ClassChart.Disk
import ClassChart.Disk.Pattern

namespace ClassChart

/-- A path and what it leads to. -/
structure Place where
  path : String
  entry : Entry

namespace Place

/-- The path of an entry of the directory. Entries of the working directory stand for themselves. -/
def pathOf (p : Place) (name : String) : String :=
  if Path.spelling p.path = Path.spelling "." then name else Path.join p.path name

/-- The entries of the directory. -/
def children (p : Place) : List (String × Place) :=
  p.entry.listing.map fun (name, e) => (name, ⟨p.pathOf name, e⟩)

/-- Everything below an entry of at most the given height, each under its name and path. -/
def belowWithin : Nat → Place → List (String × Place)
  | 0, _ => []
  | height + 1, p => p.children.flatMap fun (name, c) => (name, c) :: belowWithin height c

end Place

mutual

/-- The number of entries on the longest way down. -/
def Entry.height : Entry → Nat
  | .file _ => 0
  | .directory entries => 1 + Entry.heightAll entries

/-- The greatest height among entries. -/
def Entry.heightAll : List (String × Entry) → Nat
  | [] => 0
  | (_, e) :: rest => max e.height (Entry.heightAll rest)

end

namespace Place

/-- Everything below the place, each under its name and path. -/
def below (p : Place) : List (String × Place) := belowWithin p.entry.height p

/-- Follows a component without wildcards. The two special ones lead on from every directory, any
other must be there. -/
def step (d : Disk) (p : Place) (part : String) : List Place :=
  let path := p.pathOf part
  if (part = "." ∨ part = "..") ∧ !p.entry.isDirectory then []
  else match d.lookup path with
    | .ok e => [⟨path, e⟩]
    | .error _ => []

/-- The two special entries of a directory, which only a pattern with a leading dot can match. -/
def specials (d : Disk) (p : Place) (pattern : Pattern) : List Place :=
  if p.entry.isDirectory && pattern.head? == some (.char '.') then
    ["..", "."].flatMap fun part =>
      if pattern.isMatch part then
        match d.lookup (Path.join p.path part) with
        | .ok e => [⟨Path.join p.path part, e⟩]
        | .error _ => []
      else []
  else []

/-- The entries whose name matches. -/
def matching (pattern : Pattern) (entries : List (String × Place)) : List Place :=
  (entries.filter fun (name, _) => pattern.isMatch name).map (·.2)

/-- The places that the components lead to from a place. -/
def expand (d : Disk) : List Pattern → Place → List Place
  | [], p => [p]
  | pattern :: rest, p =>
    match pattern.literal? with
    | some part => (p.step d part).flatMap (expand d rest)
    | none =>
      if pattern.isRecursive then
        match rest with
        | [] => (p.below.map (·.2)).filter (·.entry.isDirectory)
        | next :: more => (matching next p.below).flatMap (expand d more)
      else
        (p.specials d pattern).flatMap (expand d rest)
          ++ (matching pattern p.children).flatMap (expand d rest)

end Place

/-- Drops a component `**` that another one follows. -/
def collapseRecursive : List Pattern → List Pattern
  | p :: q :: rest =>
    if p.isRecursive && q.isRecursive then collapseRecursive (q :: rest)
    else p :: collapseRecursive (q :: rest)
  | short => short

/-- The components of a pattern behind its leading slash. A slash at the end adds none. -/
def patternComponents (text : String) : List String :=
  let relative := if Path.isAbsolute text then String.ofList (text.toList.drop 1) else text
  if relative = "" then [""]
  else
    let all := Path.parts relative
    if all.getLast? = some "" then all.dropLast else all

/-- The places that match a pattern, in order. The pattern must be right as a whole and in each of its
components. -/
def Disk.search (d : Disk) (text : String) : Except PatternError (List Place) := do
  let _ ← Pattern.ofText text
  let components ← (patternComponents text).mapM Pattern.ofText
  let start := if Path.isAbsolute text then "/" else "."
  let found := match d.lookup start with
    | .ok e => Place.expand d (collapseRecursive components) ⟨start, e⟩
    | .error _ => []
  pure (if Path.isSlashed text then found.filter (·.entry.isDirectory) else found)

end ClassChart
