/-
# ClassChart.Report — errors as they are shown

A `Report` is what is shown of one error: a line, a code, an advice and labelled places of a named
source. A failed text gives one report per diagnostic; a failed batch those of its units in order and
then a summary; any other error gives one.
-/
import ClassChart.Batch

namespace ClassChart

/-- A labelled place: offset, length, remark. -/
structure ReportLabel where
  offset : Nat
  length : Nat
  text : String
  primary : Bool
deriving DecidableEq, Repr

/-- What is shown of an error. -/
structure Report where
  display : String
  code : Option String
  help : Option String
  /-- The name of the source that the labels refer to. -/
  source : Option String
  labels : List ReportLabel
deriving DecidableEq, Repr

/-- The name of a source that has none. -/
def unnamedSource : String := "<input>"

/-- A label as it is shown. -/
def Label.report (l : Label) : ReportLabel := ⟨l.span.start, l.span.length, l.message, l.primary⟩

/-- A diagnostic as it is shown, for a source of the given name. -/
def Diagnostic.report (d : Diagnostic) (source : String) : Report :=
  { display := d.message
    code := d.code.map (·.id)
    help := d.help
    source := some source
    labels := d.labels.map Label.report }

/-- The reports of a text that failed. -/
def ParseError.reports (e : ParseError) (source : String) : List Report :=
  e.diagnostics.map (·.report source)

/-- The reports of a single text that failed, which has no name. -/
def TextFailure.reports (f : TextFailure) : List Report := f.error.reports unnamedSource

namespace BatchFailure

/-- The failure in one line. -/
def message (f : BatchFailure) : String :=
  toString f.failures.length ++ " of " ++ toString f.total ++ " units failed to parse"

/-- The summary of a failed batch. -/
def summary (f : BatchFailure) : Report :=
  { display := f.message
    code := some "classmap::batch"
    help := some (if f.failures.any (·.isInternal)
      then "this is a bug in classmap, not in the input; please report it"
      else "run without --strict to write the model of the units that parsed")
    source := none
    labels := [] }

/-- The reports of a failed batch. -/
def reports (f : BatchFailure) : List Report :=
  f.failures.flatMap (fun u => u.error.reports u.name) ++ [f.summary]

end BatchFailure

end ClassChart
