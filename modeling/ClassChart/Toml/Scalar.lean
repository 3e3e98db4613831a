/-
# ClassChart.Toml.Scalar — strings, numbers and dates of settings files

The readers of this module take a value from the head of a text and give it with the rest. Of a float
its size is read without rounding; a date is checked against the calendar and kept as text.
-/
import ClassChart.Toml.Value

namespace ClassChart.Toml

/-- A reader of values from the head of a text. -/
abbrev Read (α : Type) := List Char → Option (α × List Char)

/-! ## Characters -/

/-- Whether a text or a comment may hold the character as it is: no control character but the tab. -/
def isPlain (c : Char) : Bool := c == '\t' || (0x20 ≤ c.toNat && c.toNat ≠ 0x7F)

/-- Whether the character is a blank within a line. -/
def isSpace (c : Char) : Bool := c == ' ' || c == '\t'

/-- What is left behind blanks. -/
def skipSpace (text : List Char) : List Char := text.dropWhile isSpace

/-- What is left behind a line break, if there is one. -/
def lineBreak? : List Char → Option (List Char)
  | '\n' :: rest => some rest
  | '\r' :: '\n' :: rest => some rest
  | _ => none

/-- The value of a hexadecimal digit. -/
def hexValue? (c : Char) : Option Nat :=
  if c.isDigit then some (c.toNat - 48)
  else if 'a' ≤ c ∧ c ≤ 'f' then some (c.toNat - 87)
  else if 'A' ≤ c ∧ c ≤ 'F' then some (c.toNat - 55)
  else none

/-- The character whose code is written in the next `count` hexadecimal digits. -/
def codePoint? (count : Nat) (text : List Char) : Option (Char × List Char) := do
  let digits ← (text.take count).mapM hexValue?
  let code := digits.foldl (fun value digit => 16 * value + digit) 0
  if digits.length = count ∧ (code < 0xD800 ∨ (0xE000 ≤ code ∧ code < 0x110000)) then
    some (Char.ofNat code, text.drop count)
  else none

/-- What follows a backslash. -/
def escape? : List Char → Option (Char × List Char)
  | 'b' :: rest => some ('\x08', rest)
  | 't' :: rest => some ('\t', rest)
  | 'n' :: rest => some ('\n', rest)
  | 'f' :: rest => some ('\x0c', rest)
  | 'r' :: rest => some ('\r', rest)
  | 'e' :: rest => some ('\x1b', rest)
  | '"' :: rest => some ('"', rest)
  | '\\' :: rest => some ('\\', rest)
  | 'x' :: rest => codePoint? 2 rest
  | 'u' :: rest => codePoint? 4 rest
  | 'U' :: rest => codePoint? 8 rest
  | _ => none

/-! ## Strings -/

/-- The rest of a text in double quotes. -/
def basic : Nat → Read (List Char)
  | 0, _ => none
  | fuel + 1, text =>
    match text with
    | '"' :: rest => some ([], rest)
    | '\\' :: rest => do
      let (c, rest) ← escape? rest
      let (cs, rest) ← basic fuel rest
      pure (c :: cs, rest)
    | c :: rest =>
      if isPlain c then (basic fuel rest).map fun (cs, rest) => (c :: cs, rest) else none
    | [] => none

/-- The rest of a text in single quotes. -/
def literal : List Char → Option (List Char × List Char)
  | '\x27' :: rest => some ([], rest)
  | c :: rest => if isPlain c then (literal rest).map fun (cs, rest) => (c :: cs, rest) else none
  | [] => none

/-- What is left behind blanks and line breaks. -/
def skipBlank : List Char → List Char
  | '\n' :: rest => skipBlank rest
  | '\r' :: '\n' :: rest => skipBlank rest
  | c :: rest => if isSpace c then skipBlank rest else c :: rest
  | [] => []

/-- A run of `mark`s that may end a text of several lines: the marks that belong to the text and what
follows, if the run is long enough to end it. Up to two marks may stand before the closing three. -/
def closing? (mark : Char) (text : List Char) : Option (List Char × List Char) :=
  let run := (text.takeWhile (· == mark)).length
  if 3 ≤ run then
    let kept := min (run - 3) 2
    some (List.replicate kept mark, text.drop (kept + 3))
  else none

/-- The rest of a text of several lines; escapes count when the mark is a double quote. -/
def multiline (mark : Char) : Nat → Read (List Char)
  | 0, _ => none
  | fuel + 1, text =>
    match closing? mark text with
    | some result => some result
    | none =>
      match text with
      | [] => none
      | c :: rest =>
        if c = '\\' ∧ mark = '"' then
          match lineBreak? (skipSpace rest) with
          | some later => multiline mark fuel (skipBlank later)
          | none => do
            let (e, rest) ← escape? rest
            let (cs, rest) ← multiline mark fuel rest
            pure (e :: cs, rest)
        else
          match lineBreak? text with
          | some later => (multiline mark fuel later).map fun (cs, rest) => ('\n' :: cs, rest)
          | none =>
            if isPlain c then (multiline mark fuel rest).map fun (cs, rest) => (c :: cs, rest)
            else none

/-- A quoted text on one line. -/
def quoted? : Read (List Char)
  | '"' :: rest => basic (rest.length + 1) rest
  | '\x27' :: rest => literal rest
  | _ => none

/-- A text of several lines. A line break right behind the opening marks does not belong to it. -/
def multiline? : Read (List Char)
  | '"' :: '"' :: '"' :: rest =>
    multiline '"' (rest.length + 1) ((lineBreak? rest).getD rest)
  | '\x27' :: '\x27' :: '\x27' :: rest =>
    multiline '\x27' (rest.length + 1) ((lineBreak? rest).getD rest)
  | _ => none

/-! ## Numbers -/

/-- Whether the text is a run of digits of the given class, with single underscores only between
digits. -/
def isDigits (isDigit : Char → Bool) (text : List Char) : Bool :=
  let groups := text.splitOn '_'
  groups.all fun group => !group.isEmpty && group.all isDigit

/-- The text without a sign. -/
def unsigned : List Char → List Char
  | '+' :: rest => rest
  | '-' :: rest => rest
  | text => text

/-- Whether the text is a decimal number without sign and without leading zeros. -/
def isPlainDecimal (text : List Char) : Bool :=
  isDigits Char.isDigit text && (text.length == 1 || text.head? != some '0')

/-- The number written in the digits of a base. -/
def digitsValue (base : Nat) (text : List Char) : Nat :=
  (text.filterMap hexValue?).foldl (fun value digit => base * value + digit) 0

/-- The decimal number in the text, with its sign. -/
def signedValue (text : List Char) : Int :=
  let value := digitsValue 10 (unsigned text)
  if text.head? = some '-' then -(value : Int) else value

/-- An integer. -/
def integer? (text : List Char) : Option Int :=
  match text with
  | '0' :: 'x' :: rest =>
    if isDigits (hexValue? · |>.isSome) rest then some (digitsValue 16 rest) else none
  | '0' :: 'o' :: rest =>
    if isDigits (fun c => '0' ≤ c && c ≤ '7') rest then some (digitsValue 8 rest) else none
  | '0' :: 'b' :: rest =>
    if isDigits (fun c => c == '0' || c == '1') rest then some (digitsValue 2 rest) else none
  | _ => if isPlainDecimal (unsigned text) then some (signedValue text) else none

/-- The run of digits and underscores at the head of the text. -/
def digitRun (text : List Char) : List Char := text.takeWhile fun c => c.isDigit || c == '_'

/-- The exponent of a float with its mark, zero where there is none. -/
def exponent? : List Char → Option Int
  | [] => some 0
  | mark :: rest =>
    if (mark == 'e' || mark == 'E') && isDigits Char.isDigit (unsigned rest) then
      some (signedValue rest)
    else none

/-- The size of a float: a whole part with a fraction, an exponent or both. -/
def decimal? (text : List Char) : Option Decimal :=
  let body := unsigned text
  let whole := digitRun body
  if isPlainDecimal whole then
    match body.drop whole.length with
    | [] => none
    | '.' :: tail =>
      let fraction := digitRun tail
      if isDigits Char.isDigit fraction then
        (exponent? (tail.drop fraction.length)).map fun exponent =>
          ⟨digitsValue 10 (whole ++ fraction), exponent - (fraction.filter Char.isDigit).length⟩
      else none
    | tail => (exponent? tail).map fun exponent => ⟨digitsValue 10 whole, exponent⟩
  else none

/-- Whether the text is a float that is no number of any size. -/
def isSpecial (text : List Char) : Bool :=
  let body := unsigned text
  body == "inf".toList || body == "nan".toList

/-! ## Dates -/

/-- A number of exactly `count` digits, and what follows. -/
def fixed? (count : Nat) (text : List Char) : Option (Nat × List Char) :=
  let digits := text.take count
  if digits.length = count ∧ digits.all Char.isDigit then some (digitsValue 10 digits, text.drop count)
  else none

/-- The number of days of a month. -/
def daysOf (year month : Nat) : Nat :=
  if month = 2 then if year % 4 = 0 ∧ (year % 100 ≠ 0 ∨ year % 400 = 0) then 29 else 28
  else if month = 4 ∨ month = 6 ∨ month = 9 ∨ month = 11 then 30 else 31

/-- Passes one given character. -/
def pass? (mark : Char) : List Char → Option (List Char)
  | c :: rest => if c = mark then some rest else none
  | [] => none

/-- A date `YYYY-MM-DD`, and what follows. -/
def date? (text : List Char) : Option (List Char) := do
  let (year, text) ← fixed? 4 text
  let text ← pass? '-' text
  let (month, text) ← fixed? 2 text
  let text ← pass? '-' text
  let (day, text) ← fixed? 2 text
  if 1 ≤ month ∧ month ≤ 12 ∧ 1 ≤ day ∧ day ≤ daysOf year month then some text else none

/-- A time `HH:MM`, with seconds and their fraction where given, and what follows. -/
def time? (text : List Char) : Option (List Char) := do
  let (hour, text) ← fixed? 2 text
  let text ← pass? ':' text
  let (minute, text) ← fixed? 2 text
  if 24 ≤ hour ∨ 60 ≤ minute then none
  else
    match text with
    | ':' :: text => do
      let (second, text) ← fixed? 2 text
      if 60 < second then none
      else match text with
        | '.' :: text =>
          let fraction := (text.takeWhile Char.isDigit).length
          if fraction = 0 then none else some (text.drop fraction)
        | _ => some text
    | _ => some text

/-- The offset of a time, where given: nothing may follow it. -/
def isOffset (text : List Char) : Bool :=
  match text with
  | [] => true
  | ['Z'] => true
  | ['z'] => true
  | sign :: rest =>
    (sign == '+' || sign == '-') &&
      ((do
        let (hour, rest) ← fixed? 2 rest
        let rest ← pass? ':' rest
        let (minute, rest) ← fixed? 2 rest
        if hour < 24 ∧ minute < 60 ∧ rest = [] then some () else none) : Option Unit).isSome

/-- Whether the text is a date, a time, or both. -/
def isDate (text : List Char) : Bool :=
  match date? text with
  | some [] => true
  | some (mark :: rest) =>
    (mark == 'T' || mark == 't' || mark == ' ') && (time? rest).any isOffset
  | none => (time? text).any (·.isEmpty)

/-! ## Bare scalars -/

/-- Whether a bare scalar may hold the character. -/
def isBare (c : Char) : Bool :=
  c.isAlphanum || c == '_' || c == '+' || c == '-' || c == '.' || c == ':'

/-- The extent of a bare scalar. A blank belongs to it only between a date and a time. -/
def bareExtent (text : List Char) : Nat :=
  let first := (text.takeWhile isBare).length
  let rest := text.drop first
  match date? (text.take first), rest with
  | some [], ' ' :: d :: later =>
    if d.isDigit then first + 2 + (later.takeWhile isBare).length else first
  | _, _ => first

/-- The value of a bare scalar: a truth value, a number or a date. -/
def scalar? (text : List Char) : Option Value :=
  if text == "true".toList then some (.bool true)
  else if text == "false".toList then some (.bool false)
  else if isSpecial text then some .special
  else if isDate text then some (.date (String.ofList text))
  else match integer? text with
    | some value => some (.integer value)
    | none => (decimal? text).map .float

/-- A bare scalar. -/
def bare? : Read Value := fun text =>
  let count := bareExtent text
  (scalar? (text.take count)).map fun value => (value, text.drop count)

end ClassChart.Toml
