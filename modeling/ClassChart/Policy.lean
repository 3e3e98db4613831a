/-
# ClassChart.Policy — what to do with parameter defaults that a model cannot show

A model shows integer and string literals as parameter defaults. Anything else (`1.5`, `'c'`, `true`)
is dropped with a warning, or fails the unit, or is kept as it stands.
-/
namespace ClassChart

/-- The treatment of unsupported parameter defaults. -/
inductive DefaultPolicy where
  | drop
  | reject
  | keep
deriving DecidableEq, Repr

namespace DefaultPolicy

/-- The word for the policy. -/
def word : DefaultPolicy → String
  | drop => "drop"
  | reject => "reject"
  | keep => "keep"

/-- The policy with the given word. -/
def ofWord? (text : String) : Option DefaultPolicy :=
  [drop, reject, keep].find? fun p => p.word == text

/-- The message for a text that is no policy. -/
def unsupported : String := "Unsupported default value policy"

end DefaultPolicy

end ClassChart
