/-
# ClassChart.Toml.Value — the values of settings files

Numbers are kept as they are written, however large. Whether one can be held in a machine number is
asked only where a value is read (`Value.isReadable`): a value that nobody looks at may be of any size.
-/
namespace ClassChart.Toml

/-! ## Numbers -/

/-- A decimal number without its sign: `digits * 10 ^ exponent`. -/
structure Decimal where
  digits : Nat
  exponent : Int
deriving DecidableEq, Repr

namespace Decimal

/-- The first number that no finite float of 64 bits stands for: half a step beyond the greatest of
them, and a half is rounded up there. -/
def limit : Nat := Nat.pow 2 1024 - Nat.pow 2 970

/-- Whether a finite float of 64 bits stands for the number, zero included. A number is at least
`10 ^ 309` or below one in the cases that are settled without a power of the exponent. -/
def isFinite (d : Decimal) : Bool :=
  match d.exponent with
  | .ofNat n => d.digits == 0 || (n < 309 && d.digits * Nat.pow 10 n < limit)
  | .negSucc n => d.digits.log2 ≤ n || d.digits < limit * Nat.pow 10 (n + 1)

end Decimal

/-- Whether the integer fits 128 bits, with a sign or without. -/
def fitsInteger (n : Int) : Bool := -(Nat.pow 2 127 : Int) ≤ n && n < (Nat.pow 2 128 : Int)

/-! ## Values -/

/-- A value of a settings file. Of a float the size is kept, which the words `inf` and `nan` have not. -/
inductive Value where
  | bool (value : Bool)
  | integer (value : Int)
  | float (size : Decimal)
  | special
  | string (value : String)
  | date (text : String)
  | array (elements : List Value)
  | table (members : List (String × Value))
deriving Repr, Inhabited

mutual

/-- Whether every number in the value can be held: integers in 128 bits, floats in 64. -/
def Value.isReadable : Value → Bool
  | .integer value => fitsInteger value
  | .float size => size.isFinite
  | .array elements => areReadable elements
  | .table members => membersReadable members
  | _ => true

/-- Whether every number in the elements can be held. -/
def areReadable : List Value → Bool
  | [] => true
  | value :: rest => value.isReadable && areReadable rest

/-- Whether every number in the members can be held. -/
def membersReadable : List (String × Value) → Bool
  | [] => true
  | (_, value) :: rest => value.isReadable && membersReadable rest

end

namespace Value

/-- A truth value. -/
def bool? : Value → Option Bool
  | .bool value => some value
  | _ => none

/-- An integer. -/
def integer? : Value → Option Int
  | .integer value => some value
  | _ => none

/-- A word, written as itself or as the only key of a table with an empty table or array. -/
def name? : Value → Option String
  | .string word => some word
  | .table [(word, .table [])] => some word
  | .table [(word, .array [])] => some word
  | _ => none

/-- The fields of a record, `none` for one that is missing. A table gives them by name, and the rest of
it must be readable; an array gives them in their order, and the rest of it is passed over; a date is
a record that says nothing. -/
def record? (fields : List String) : Value → Option (List (Option Value))
  | .table members =>
    if members.all fun (name, value) => fields.contains name || value.isReadable then
      some (fields.map fun field => members.lookup field)
    else none
  | .array elements =>
    some ((elements.map some ++ List.replicate fields.length none).take fields.length)
  | .date _ => some (fields.map fun _ => none)
  | _ => none

end Value

end ClassChart.Toml
