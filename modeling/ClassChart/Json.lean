/-
# ClassChart.Json — structured values and their text

`Json` is the value that models and settings are exchanged in. Objects keep the order of their keys.
The text form is the indented one: two spaces a level, one element a line, and empty arrays and
objects closed at once.
-/
namespace ClassChart

/-- A structured value. A number is an integer, or a decimal `mantissa * 10 ^ (- exponent)`, which
nothing here accepts but which can be written. -/
inductive Json where
  | null
  | bool (value : Bool)
  | integer (value : Int)
  | decimal (mantissa : Int) (exponent : Nat)
  | string (value : String)
  | array (elements : List Json)
  | object (members : List (String × Json))
deriving Repr, Inhabited

namespace Json

/-! ## Making values -/

/-- A natural number. -/
def ofNat (n : Nat) : Json := .integer n

/-- An optional text, `null` where there is none. -/
def ofString? : Option String → Json
  | some text => .string text
  | none => .null

/-! ## Reading values -/

/-- A text. -/
def string? : Json → Option String
  | .string text => some text
  | _ => none

/-- A truth value. -/
def bool? : Json → Option Bool
  | .bool value => some value
  | _ => none

/-- An integer. -/
def integer? : Json → Option Int
  | .integer value => some value
  | _ => none

/-- The first natural number that does not fit 64 bits. -/
def wordLimit : Int := 18446744073709551616

/-- The integer as a natural number that fits 64 bits. -/
def wordOf? (value : Int) : Option Nat :=
  if 0 ≤ value ∧ value < wordLimit then some value.toNat else none

/-- The elements of an array. -/
def elements? : Json → Option (List Json)
  | .array elements => some elements
  | _ => none

/-- A value that may be missing or `null`, and is otherwise read by `read`. The outer option says
whether reading succeeded. -/
def optional? (read : Json → Option α) : Option Json → Option (Option α)
  | none => some none
  | some .null => some none
  | some value => (read value).map some

/-- Whether the value is `null`. -/
def isNull : Json → Bool
  | .null => true
  | _ => false

/-- Whether the value is `null` or an object without members. -/
def isVoid : Json → Bool
  | .null => true
  | .object [] => true
  | _ => false

/-- A word, written as itself or as the only key of an object whose value counts as nothing. -/
def name? (isNothing : Json → Bool) : Json → Option String
  | .string word => some word
  | .object [(word, value)] => if isNothing value then some word else none
  | _ => none

/-! ## Records -/

/-- The members of a record by the names of its fields: `none` for a field that is missing. -/
abbrev Record := List (Option Json)

/-- The value of a key, `none` inside if it is missing. A repeated key is no good. -/
def member? (members : List (String × Json)) (name : String) : Option (Option Json) :=
  match members.filter fun m => m.1 == name with
  | [] => some none
  | [m] => some (some m.2)
  | _ => none

/-- Reads a record with the given fields: an object, whose other keys do not matter, or an array with
the fields in their order, at least `least` of them. -/
def record? (fields : List String) (least : Nat) : Json → Option Record
  | .object members => fields.mapM (member? members)
  | .array elements =>
    if least ≤ elements.length ∧ elements.length ≤ fields.length then
      some (elements.map some ++ List.replicate (fields.length - elements.length) none)
    else none
  | _ => none

/-! ## Text -/

/-- The lower-case hexadecimal digit of a number below 16. -/
def hexDigit (n : Nat) : Char := if n < 10 then Char.ofNat (48 + n) else Char.ofNat (87 + n)

/-- A character inside a quoted text. -/
def escapeChar (c : Char) : List Char :=
  if c = '"' then ['\\', '"']
  else if c = '\\' then ['\\', '\\']
  else if c = '\n' then ['\\', 'n']
  else if c = '\r' then ['\\', 'r']
  else if c = '\t' then ['\\', 't']
  else if c = '\x08' then ['\\', 'b']
  else if c = '\x0c' then ['\\', 'f']
  else if c.toNat < 0x20 then ['\\', 'u', '0', '0', hexDigit (c.toNat / 16), hexDigit (c.toNat % 16)]
  else [c]

/-- A text in quotes. -/
def quote (text : String) : String :=
  "\"" ++ String.ofList (text.toList.flatMap escapeChar) ++ "\""

/-- The indentation of a level. -/
def indent (level : Nat) : String := String.ofList (List.replicate (2 * level) ' ')

/-- A decimal number as digits and exponent. -/
def decimalText (mantissa : Int) (exponent : Nat) : String :=
  toString mantissa ++ "e-" ++ toString exponent

mutual

/-- The indented text of a value that stands at the given level. -/
def pretty (level : Nat) : Json → String
  | .null => "null"
  | .bool value => if value then "true" else "false"
  | .integer value => toString value
  | .decimal mantissa exponent => decimalText mantissa exponent
  | .string text => quote text
  | .array [] => "[]"
  | .array (e :: es) =>
    "[\n" ++ indent (level + 1) ++ pretty (level + 1) e ++ prettyElements (level + 1) es
      ++ "\n" ++ indent level ++ "]"
  | .object [] => "\x7b\x7d"
  | .object ((key, value) :: ms) =>
    "\x7b\n" ++ indent (level + 1) ++ quote key ++ ": " ++ pretty (level + 1) value
      ++ prettyMembers (level + 1) ms ++ "\n" ++ indent level ++ "\x7d"

/-- The elements of an array after the first. -/
def prettyElements (level : Nat) : List Json → String
  | [] => ""
  | e :: es => ",\n" ++ indent level ++ pretty level e ++ prettyElements level es

/-- The members of an object after the first. -/
def prettyMembers (level : Nat) : List (String × Json) → String
  | [] => ""
  | (key, value) :: ms =>
    ",\n" ++ indent level ++ quote key ++ ": " ++ pretty level value ++ prettyMembers level ms

end

/-- The indented text of a value. -/
def render (value : Json) : String := pretty 0 value

end Json

end ClassChart
