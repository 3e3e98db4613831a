/-
# ClassChart.Settings — how models are extracted and drawn

Settings are read from structured values of any type that is a `SettingsSource`. Every part may be left
out and then has its standard value; keys without a meaning do not matter; a value of the wrong type
makes the settings unreadable.
-/
import ClassChart.Json
import ClassChart.Policy
import ClassChart.Toml

namespace ClassChart

/-- The settings of a run. -/
structure Settings where
  /-- Whether entities with the same key are merged. -/
  merge : Bool
  /-- The treatment of unsupported parameter defaults. -/
  defaultValues : DefaultPolicy
  /-- The size of the worker pool, if one is set. -/
  workers? : Option Nat
  /-- The blanks between the border of a box and its text. -/
  padding : Nat
deriving DecidableEq, Repr

namespace Settings

/-- The settings that hold where nothing is said. -/
def standard : Settings := ⟨true, .drop, none, 1⟩

/-- The number of workers, where zero counts as not set. -/
def workerCount? (s : Settings) : Option Nat := s.workers?.filter (0 < ·)

/-- The same settings with merging on or off. -/
def withMerge (s : Settings) (merge : Bool) : Settings := { s with merge := merge }

/-- The same settings with another treatment of defaults. -/
def withDefaultValues (s : Settings) (policy : DefaultPolicy) : Settings :=
  { s with defaultValues := policy }

end Settings

/-! ## Reading -/

/-- The questions that settings ask of a value. -/
class SettingsSource (α : Type) where
  /-- The fields of a record by their names, `none` for one that is missing. -/
  record? : List String → α → Option (List (Option α))
  /-- A truth value. -/
  bool? : α → Option Bool
  /-- An integer. -/
  integer? : α → Option Int
  /-- A word out of several. -/
  name? : α → Option String
  /-- Whether the value says that there is none. -/
  isNull : α → Bool

namespace Settings

open SettingsSource

/-- Reads a part, or takes the standard value where it is missing. -/
def partOr (standard : β) (read : α → Option β) : Option α → Option β
  | none => some standard
  | some value => read value

variable {α : Type} [SettingsSource α]

/-- Reads a natural number that fits 64 bits. -/
def word? (value : α) : Option Nat := integer? value >>= Json.wordOf?

/-- Reads the number of workers, which may be missing. -/
def workersPart? : Option α → Option (Option Nat)
  | none => some none
  | some value => if isNull value then some none else (word? value).map some

/-- Reads the part on extraction: merging, defaults, workers. -/
def extractPart? (value : α) : Option (Bool × DefaultPolicy × Option Nat) := do
  match ← record? ["merge", "default_values", "workers"] value with
  | [merge?, policy?, workers?] =>
    pure (← partOr standard.merge bool? merge?,
      ← partOr standard.defaultValues (name? · >>= DefaultPolicy.ofWord?) policy?,
      ← workersPart? workers?)
  | _ => none

/-- Reads the part on drawing: the padding. -/
def renderPart? (value : α) : Option Nat := do
  match ← record? ["padding"] value with
  | [padding?] => partOr standard.padding word? padding?
  | _ => none

/-- Reads settings. -/
def read? (value : α) : Option Settings := do
  match ← record? ["extract", "render"] value with
  | [extract?, render?] =>
    let (merge, policy, workers?) ←
      partOr (standard.merge, standard.defaultValues, standard.workers?) extractPart? extract?
    let padding ← partOr standard.padding renderPart? render?
    pure ⟨merge, policy, workers?, padding⟩
  | _ => none

end Settings

/-! ## Sources -/

instance : SettingsSource Json where
  record? fields value := value.record? fields 0
  bool? := Json.bool?
  integer? := Json.integer?
  name? := Json.name? Json.isNull
  isNull := Json.isNull

instance : SettingsSource Toml.Value where
  record? := Toml.Value.record?
  bool? := Toml.Value.bool?
  integer? := Toml.Value.integer?
  name? := Toml.Value.name?
  isNull _ := false

namespace Settings

/-- Reads settings from a structured value. -/
def ofJson? : Json → Option Settings := read?

/-- Reads settings from the text of a settings file. -/
def ofText? (text : String) : Option Settings := Toml.read? text >>= read?

end Settings

end ClassChart
