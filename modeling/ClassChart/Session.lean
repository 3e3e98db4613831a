/-
# ClassChart.Session — building a model step by step

A session holds one model, empty at first. A step adds to it, replaces it, merges it, or looks at it;
a step that fails leaves it as it was.
-/
import ClassChart.Batch
import ClassChart.Model.TextBox

namespace ClassChart

/-- A step of a session. -/
inductive Step where
  | parse (source : String)
  | units (units : List SourceUnit)
  | append (model : Model)
  | load (model : Model)
  | clear
  | merge
  | render
  | dump
  | signatures
  | find (key : EntityKey)
  | classes
  | enums
deriving DecidableEq, Repr

/-- What a step answers. -/
inductive Reply where
  | nothing
  | added (count : Nat)
  | addedUnits (count : Nat) (failures : List UnitFailure)
  | model (model : Model)
  | text (text : String)
  | signatures (signatures : List Signature)
  | entity (entity? : Option Entity)
  | keys (keys : List EntityKey)
  | textFailed (failure : TextFailure)
  | batchFailed (failure : BatchFailure)
deriving DecidableEq, Repr

/-- The model after a step, the answer, and the warnings on the way. -/
structure StepResult where
  model : Model
  reply : Reply
  warnings : List Warning
deriving DecidableEq, Repr

/-- Carries out a step. -/
def Step.run (settings : Settings) (m : Model) : Step → StepResult
  | parse source =>
    match extractText settings source with
    | .ok (more, warnings) => ⟨m ++ more, .added more.length, warnings⟩
    | .error failure => ⟨m, .textFailed failure, []⟩
  | units list =>
    let output := extractUnits settings list
    match output.lenient with
    | .ok (more, failures) => ⟨m ++ more, .addedUnits more.length failures, output.warnings⟩
    | .error failure => ⟨m, .batchFailed failure, output.warnings⟩
  | append more => ⟨m ++ more, .added more.length, []⟩
  | load other => ⟨other, .nothing, []⟩
  | clear => ⟨[], .nothing, []⟩
  | merge =>
    let (merged, warnings) := m.merge
    ⟨merged, .model merged, warnings⟩
  | render => ⟨m, .text (m.renderText settings.padding), []⟩
  | dump => ⟨m, .model m, []⟩
  | signatures => ⟨m, .signatures m.signatures, []⟩
  | find key => ⟨m, .entity (m.find? key), []⟩
  | classes => ⟨m, .keys (m.classes.map (·.key)), []⟩
  | enums => ⟨m, .keys (m.enums.map (·.key)), []⟩

end ClassChart
