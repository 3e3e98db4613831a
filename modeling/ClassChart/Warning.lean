/-
# ClassChart.Warning — what is remarked on without failing

Warnings are values: each operation returns those it gives rise to, in order, next to its result.
-/
import ClassChart.Model
import ClassChart.Token

namespace ClassChart

/-- Something that was passed over. -/
inductive Warning where
  /-- A parameter lost its default. -/
  | droppedDefault (parameter value : String) (kind : TokenKind)
  /-- An entity was left out because its key belongs to one of the other kind. -/
  | kindConflict (key : EntityKey)
  /-- An input pattern matched no file. -/
  | noMatch (input : String)
  /-- A unit was left out because it failed. -/
  | skippedUnit (reason file : String) (line column : Nat)
deriving DecidableEq, Repr

/-- The warning in words, its values behind the message. -/
def Warning.text : Warning → String
  | droppedDefault parameter value kind =>
    "Dropping unsupported parameter default parameter=" ++ parameter ++ " value=" ++ value
      ++ " kind=" ++ kind.describe
  | kindConflict key =>
    "Dropping declaration whose kind conflicts with an earlier one entity=" ++ key.render
  | noMatch input => "Input matched no files input=" ++ input
  | skippedUnit reason file line column =>
    "Skipping unit: " ++ reason ++ " file=" ++ file ++ " line=" ++ toString line
      ++ " column=" ++ toString column

/-- The warning as a log record. -/
def Warning.render (w : Warning) : String := "WARN " ++ w.text

end ClassChart
