/-
# ClassChart.Command.FileSystem — what a run asks of a file system

A run sees files through a few questions: which paths lead to files, what a pattern matches, what a file
holds. It changes them through one request, to write a text to a path. Everything may go wrong: a match or
a file may be unreadable, and a request to write may fail and even then leave something behind. A `Disk`
answers all of this as a value.
-/
import ClassChart.Disk.Search

namespace ClassChart

/-! ## Finding files -/

/-- A place that a search came to and could not read, with the reason that the system gives. -/
structure MatchError where
  path : String
  reason : String
deriving DecidableEq, Repr

/-- The error in words. -/
def MatchError.message (e : MatchError) : String :=
  "attempting to read `" ++ e.path ++ "` resulted in an error: " ++ e.reason

/-- What finding the inputs asks of a file system. -/
class FileSource (σ : Type) where
  /-- Whether a path leads to a file. -/
  isFile : σ → String → Bool
  /-- What a pattern matches, in order. A match that cannot be read is found as an error. -/
  search : σ → String → Except PatternError (List (Except MatchError String))
  /-- The test that a pattern is for paths. -/
  test : σ → String → Except PatternError (String → Bool)

/-- On a disk that is a value, everything that a search finds can be read. -/
instance : FileSource Disk where
  isFile := Disk.isFile
  search d text := (d.search text).map fun places => places.map fun place => .ok place.path
  test _ text := (Pattern.ofText text).map Pattern.isMatch

/-! ## Reading and writing -/

/-- What a run asks of a file system besides. -/
class FileSystem (σ : Type) extends FileSource σ where
  /-- Whether a path leads somewhere. -/
  exists? : σ → String → Bool
  /-- The text of a file. -/
  readText : σ → String → Except SystemError String
  /-- Writes a text to a path, and gives what is there afterwards also if that fails. -/
  write : σ → String → String → Except SystemError Unit × σ

/-- A disk that cannot be written to stays as it is. -/
instance : FileSystem Disk where
  exists? := Disk.exists?
  readText := Disk.readText
  write d path text :=
    match d.write path text.toUTF8 with
    | .ok written => (.ok (), written)
    | .error error => (.error error, d)

end ClassChart
