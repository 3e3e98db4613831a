/-
# ClassChart.Batch — many units at once

The units of a batch are parsed one by one, each on its own, and their models are joined in input
order. A unit that fails does not disturb the others; it is kept with its text and its diagnostics.
-/
import ClassChart.Extract
import ClassChart.Model.Merge
import ClassChart.Settings

namespace ClassChart

/-! ## Units -/

/-- A source text with the name it is reported under, usually a path. -/
structure SourceUnit where
  name : String
  text : String
deriving DecidableEq, Repr

/-- A unit made of a text, without the byte order mark at its start. -/
def SourceUnit.ofText (name text : String) : SourceUnit := ⟨name, stripMark text⟩

/-- A unit that failed. -/
structure UnitFailure where
  name : String
  source : String
  error : ParseError
deriving DecidableEq, Repr

namespace UnitFailure

/-- The position of the first diagnostic, if it marks a place. -/
def location? (f : UnitFailure) : Option Location :=
  (f.error.diagnostics.head?.bind (·.primarySpan?)).map (·.location f.source.toList)

/-- Whether the unit failed through no fault of its text. -/
def isInternal (f : UnitFailure) : Bool :=
  f.error.diagnostics.any fun d => d.code == some .missingNode

/-- The failure in one line: name, position, first problem. -/
def render (f : UnitFailure) : String :=
  match f.location? with
  | some location => f.name ++ ":" ++ location.render ++ ": " ++ f.error.headline
  | none => f.name ++ ": " ++ f.error.headline

/-- The warning that the unit was left out. -/
def skipped (f : UnitFailure) : Warning :=
  let location := f.location?.getD ⟨0, 0⟩
  .skippedUnit f.error.headline f.name location.line location.column

end UnitFailure

/-! ## Failures of a whole run -/

/-- A batch with failed units: those units, and the number of all. -/
structure BatchFailure where
  failures : List UnitFailure
  total : Nat
deriving DecidableEq, Repr

/-! ## Extraction -/

/-- What a batch gave. -/
structure BatchOutput where
  model : Model
  failures : List UnitFailure
  total : Nat
  warnings : List Warning
deriving DecidableEq, Repr

/-- Merges a model if the settings say so. -/
def Settings.mergeIfEnabled (s : Settings) (m : Model) : Model × List Warning :=
  if s.merge then m.merge else (m, [])

/-- Parses one unit of a batch. -/
def SourceUnit.extract (settings : Settings) (unit : SourceUnit) :
    Except UnitFailure (Model × List Warning) :=
  match parse settings.defaultValues unit.text with
  | .ok result => .ok result
  | .error error => .error ⟨unit.name, unit.text, error⟩

/-- The results that succeeded. -/
def successes (results : List (Except ε α)) : List α :=
  results.filterMap fun
    | .ok value => some value
    | .error _ => none

/-- The errors of those that did not. -/
def errors (results : List (Except ε α)) : List ε :=
  results.filterMap fun
    | .ok _ => none
    | .error error => some error

/-- What the results of a batch come to: the models are joined in order, and the whole is merged once if
the settings say so. -/
def BatchOutput.ofResults (settings : Settings) (total : Nat)
    (results : List (Except UnitFailure (Model × List Warning))) : BatchOutput :=
  let parsed := successes results
  let (model, conflicts) := settings.mergeIfEnabled (parsed.flatMap (·.1))
  { model := model
    failures := errors results
    total := total
    warnings := parsed.flatMap (·.2) ++ conflicts }

/-- Parses all units and puts together what they give. -/
def extractUnits (settings : Settings) (units : List SourceUnit) : BatchOutput :=
  .ofResults settings units.length (units.map (·.extract settings))

namespace BatchOutput

/-- Whether every unit was parsed. -/
def isComplete (o : BatchOutput) : Bool := o.failures.isEmpty

/-- The model with the units that failed on their text. A failure that is no fault of the text is
never passed over. -/
def lenient (o : BatchOutput) : Except BatchFailure (Model × List UnitFailure) :=
  let internal := o.failures.filter (·.isInternal)
  if internal.isEmpty then .ok (o.model, o.failures) else .error ⟨internal, o.total⟩

/-- The model, if no unit failed. -/
def strict (o : BatchOutput) : Except BatchFailure Model :=
  if o.isComplete then .ok o.model else .error ⟨o.failures, o.total⟩

end BatchOutput

/-! ## Workers -/

/-- The workers that parse the units of a batch: a pool of any size can be asked for, and there is one that
is always there. A pool may not be available, and then there is a reason. -/
structure WorkerPool where
  /-- Makes a pool of so many workers. -/
  create : Nat → Except String Unit
  /-- Has a function applied to all elements, by a pool of its own with so many workers or by the one that
  is always there, and collects the results. -/
  collect : {α β : Type} → Option Nat → (α → β) → List α → List β

namespace WorkerPool

/-- One worker that does one thing after the other. -/
def sequential : WorkerPool := ⟨fun _ => .ok (), fun _ f xs => xs.map f⟩

/-- Pools of every size can be made. -/
def Creates (pool : WorkerPool) : Prop := ∀ count, pool.create count = .ok ()

/-- Results are collected in the order of the elements that they belong to. -/
def KeepsOrder (pool : WorkerPool) : Prop :=
  ∀ {α β : Type} (count? : Option Nat) (f : α → β) (xs : List α), pool.collect count? f xs = xs.map f

end WorkerPool

/-- Has all units parsed by workers, on a pool of their own if the settings ask for one, and puts together
what they give. -/
def extractUnitsOn (pool : WorkerPool) (settings : Settings) (units : List SourceUnit) :
    Except String BatchOutput := do
  let results ← match settings.workerCount? with
    | some count => do
      pool.create count
      pure (pool.collect (some count) (SourceUnit.extract settings) units)
    | none => pure (pool.collect none (SourceUnit.extract settings) units)
  pure (.ofResults settings units.length results)

/-! ## Single units -/

/-- A single text that failed, with the text its positions refer to. -/
structure TextFailure where
  error : ParseError
  source : String
deriving DecidableEq, Repr

/-- The model of a single text, merged if the settings say so. -/
def extractText (settings : Settings) (source : String) :
    Except TextFailure (Model × List Warning) :=
  match parse settings.defaultValues source with
  | .error error => .error ⟨error, stripMark source⟩
  | .ok (model, warnings) =>
    let (merged, conflicts) := settings.mergeIfEnabled model
    .ok (merged, warnings ++ conflicts)

end ClassChart
