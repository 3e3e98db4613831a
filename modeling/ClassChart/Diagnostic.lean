/-
# ClassChart.Diagnostic — what is reported about a source unit that cannot be read

A `Diagnostic` is one problem of a unit: a code, a message, labelled places of the source and an
advice. A `ParseError` is what a failed unit is answered with, its diagnostics in source order. Every
diagnostic makes its unit fail; there are no softer ones.
-/
import ClassChart.Text.Span

namespace ClassChart

/-! ## Codes -/

/-- The kinds of problem, by phase: reading tokens, reading declarations, building the model. -/
inductive ErrorCode where
  | unterminatedString
  | unexpectedCharacter
  | invalidEscape
  | unterminatedComment
  | unterminatedCharacter
  | unexpectedToken
  | incompleteInput
  | expectedTypeDeclaration
  | missingNode
  | unsupportedDefault
deriving DecidableEq, Repr

namespace ErrorCode

/-- The published identifier of the code. -/
def id : ErrorCode → String
  | unterminatedString => "E001"
  | unexpectedCharacter => "E002"
  | invalidEscape => "E003"
  | unterminatedComment => "E004"
  | unterminatedCharacter => "E005"
  | unexpectedToken => "E100"
  | incompleteInput => "E101"
  | expectedTypeDeclaration => "E102"
  | missingNode => "E300"
  | unsupportedDefault => "E301"

/-- What the code stands for, in a few words. -/
def description : ErrorCode → String
  | unterminatedString => "unterminated string literal"
  | unexpectedCharacter => "unexpected character"
  | invalidEscape => "invalid escape sequence"
  | unterminatedComment => "unterminated block comment"
  | unterminatedCharacter => "unterminated character literal"
  | unexpectedToken => "unexpected token"
  | incompleteInput => "incomplete input"
  | expectedTypeDeclaration => "expected type declaration"
  | missingNode => "missing required node"
  | unsupportedDefault => "unsupported default value"

end ErrorCode

/-! ## Diagnostics -/

/-- A place of the source with a remark. The primary label marks the problem itself, a secondary one
a place that explains it. -/
structure Label where
  span : Span
  message : String
  primary : Bool
deriving DecidableEq, Repr

/-- One problem of a source unit. -/
structure Diagnostic where
  message : String
  code : Option ErrorCode := none
  labels : List Label := []
  help : Option String := none
deriving DecidableEq, Repr

namespace Diagnostic

/-- The span of the first primary label. -/
def primarySpan? (d : Diagnostic) : Option Span := (d.labels.find? (·.primary)).map (·.span)

/-- The problem in one line: `error[CODE]: message`, or `error: message` without a code. -/
def headline (d : Diagnostic) : String :=
  match d.code with
  | some code => "error[" ++ code.id ++ "]: " ++ d.message
  | none => "error: " ++ d.message

end Diagnostic

/-! ## Failed units -/

/-- The diagnostics of a unit that failed. -/
structure ParseError where
  diagnostics : List Diagnostic
deriving DecidableEq, Repr

namespace ParseError

/-- The first problem in one line, with the number of further ones. -/
def headline (e : ParseError) : String :=
  match e.diagnostics with
  | [] => ""
  | [d] => d.headline
  | d :: more => d.headline ++ " (+" ++ toString more.length ++ " more)"

/-- The failure with a single problem. -/
def single (d : Diagnostic) : ParseError := ⟨[d]⟩

end ParseError

end ClassChart
