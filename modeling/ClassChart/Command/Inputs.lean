/-
# ClassChart.Command.Inputs — which files are read

An input that names a file is taken as it stands, even if it holds wildcards; any other is a pattern.
The files keep the order of the inputs, and a file that is reached twice under the same spelling is read
once. Files that match an exclusion are left out, but still count as matches of their pattern.
-/
import ClassChart.Command.FileSystem
import ClassChart.Warning

namespace ClassChart

/-! ## Errors -/

/-- Why there is nothing to read. -/
inductive InputError where
  | badPattern (pattern : String) (error : PatternError)
  | unreadable (error : MatchError)
  | noFiles
deriving DecidableEq, Repr

/-- The error in words. -/
def InputError.message : InputError → String
  | badPattern pattern error => "Invalid glob pattern `" ++ pattern ++ "`: " ++ error.message
  | unreadable error => "Cannot read matched path: " ++ error.message
  | noFiles => "No input files found"

/-! ## Resolving -/

namespace Inputs

variable {σ : Type} [FileSource σ]

/-- Reads an exclusion, remembering its text in an error. -/
def compile (s : σ) (pattern : String) : Except InputError (String → Bool) :=
  (FileSource.test s pattern).mapError (.badPattern pattern)

/-- The matches of a pattern, all of which must be readable. -/
def readMatches (s : σ) (pattern : String) : Except InputError (List String) :=
  match FileSource.search s pattern with
  | .error error => .error (.badPattern pattern error)
  | .ok entries => entries.mapM fun entry => entry.mapError .unreadable

/-- The files that an input stands for, and whether it was a pattern without any. -/
def candidates (s : σ) (input : String) : Except InputError (List String × List Warning) :=
  if FileSource.isFile s input then .ok ([input], [])
  else match readMatches s input with
    | .error error => .error error
    | .ok paths =>
      let files := paths.filter (FileSource.isFile s)
      .ok (files, if files.isEmpty then [.noMatch input] else [])

/-- The candidates of all inputs up to the first bad one, with the warnings on the way. -/
def gather (s : σ) : List String → Except InputError (List String) × List Warning
  | [] => (.ok [], [])
  | input :: rest =>
    match candidates s input with
    | .error error => (.error error, [])
    | .ok (files, warnings) =>
      let (later, more) := gather s rest
      (later.map (files ++ ·), warnings ++ more)

/-- The paths without those whose spelling occurred before. -/
def distinct (seen : List Path.Spelling) : List String → List String
  | [] => []
  | path :: rest =>
    if seen.contains (Path.spelling path) then distinct seen rest
    else path :: distinct (Path.spelling path :: seen) rest

/-- The files to read, in order, with the warnings on the way. Exclusions are read first. -/
def resolve (s : σ) (inputs exclude : List String) :
    Except InputError (List String) × List Warning :=
  match exclude.mapM (compile s) with
  | .error error => (.error error, [])
  | .ok tests =>
    let (found, warnings) := gather s inputs
    let result := found.bind fun paths =>
      let kept := distinct [] (paths.filter fun path => !tests.any (· path))
      if kept.isEmpty then .error .noFiles else .ok kept
    (result, warnings)

end Inputs

end ClassChart
