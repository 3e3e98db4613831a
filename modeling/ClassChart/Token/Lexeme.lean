/-
# ClassChart.Token.Lexeme — what stands at the head of a text

The head of a non-empty text is either trivia (blanks, comments, lines that begin with `#`), or a
token, or a place where no token can be read. Each class of lexeme has a reader of its own that
counts the characters it takes; the order in which they are tried settles which class a text
belongs to.
-/
import ClassChart.Text.Blank
import ClassChart.Text.Letter
import ClassChart.Text.Numeral
import ClassChart.Token
import ClassChart.Token.Literal

namespace ClassChart

open Text Literal

/-- What stands at the head of a text. The counts are of characters and always positive. -/
inductive Lexeme where
  | trivia (count : Nat)
  | token (kind : TokenKind) (count : Nat)
  | broken (fault : Fault)
deriving DecidableEq, Repr

namespace Lexeme

/-! ## Characters of names -/

/-- Whether a name may begin with `c`. -/
def startsName (c : Char) : Bool := isLetter c || c == '_'

/-- Whether a name may go on with `c`. -/
def continuesName (c : Char) : Bool := isLetter c || isNumeral c || c == '_'

/-- Whether the text begins with a character of the class. -/
def headIs (p : Char → Bool) (text : List Char) : Bool := text.head?.any p

/-! ## Trivia -/

/-- The number of characters up to the end of the line, the line feed left out. -/
def restOfLine (text : List Char) : Nat := (text.takeWhile (· ≠ '\n')).length

/-- The number of characters up to and including the first `*/`. -/
def commentEnd? : List Char → Option Nat
  | [] => none
  | c :: rest =>
    if c = '*' ∧ rest.head? = some '/' then some 2 else (commentEnd? rest).map (· + 1)

/-- Trivia at the head of the text. A block comment that is never closed is a fault. -/
def trivia? (text : List Char) : Option Lexeme :=
  match text with
  | '/' :: '/' :: rest => some (.trivia (2 + restOfLine rest))
  | '/' :: '*' :: rest =>
    match commentEnd? rest with
    | some count => some (.trivia (2 + count))
    | none => some (.broken ⟨.unterminatedComment, 0, 2⟩)
  | '#' :: rest => some (.trivia (1 + restOfLine rest))
  | _ =>
    match (text.takeWhile isBlank).length with
    | 0 => none
    | count => some (.trivia count)

/-! ## Numbers -/

/-- Whether `c` is the sign of a number. -/
def isSign (c : Char) : Bool := c == '+' || c == '-'

/-- The number of characters of a sign at the head of the text. -/
def signLength (text : List Char) : Nat := if headIs isSign text then 1 else 0

/-- The digits of a plain integer: a single zero, or a run that does not begin with one. -/
def plainDigits (text : List Char) : Nat :=
  match text with
  | '0' :: _ => 1
  | _ => (text.takeWhile Char.isDigit).length

/-- `[+-]?(0|[1-9][0-9]*)`, not followed by a character of a name or a point. -/
def integer? (text : List Char) : Option Nat :=
  let sign := signLength text
  let digits := plainDigits (text.drop sign)
  if digits = 0 then none
  else if headIs (fun c => continuesName c || c == '.') (text.drop (sign + digits)) then none
  else some (sign + digits)

/-- Whether `c` belongs to a number after its first digit. -/
def continuesNumber (c : Char) : Bool := c.isAlphanum || c == '_' || c == '.'

/-- The characters of a number after its first digit. A sign belongs to it only between an exponent
mark and a digit; `afterMark` says that the character before was such a mark. -/
def numberTail (afterMark : Bool) : List Char → Nat
  | [] => 0
  | c :: rest =>
    if continuesNumber c then 1 + numberTail (c == 'e' || c == 'E') rest
    else if afterMark && isSign c && headIs Char.isDigit rest then 1 + numberTail false rest
    else 0

/-- Every other form of number: `1.5`, `0x1F`, `2f`, `1_000`, `007`, `1e-5`. -/
def number? (text : List Char) : Option Nat :=
  let sign := signLength text
  match text.drop sign with
  | c :: rest => if c.isDigit then some (sign + 1 + numberTail false rest) else none
  | [] => none

/-! ## Words, marks and symbols -/

/-- The characters of a word after its first. A point belongs to it only before the start of a
further name, so `System.Collections` is one word. -/
def wordTail : List Char → Nat
  | [] => 0
  | c :: rest =>
    if continuesName c || (c == '.' && headIs startsName rest) then 1 + wordTail rest else 0

/-- A name, or several joined by points. -/
def word? : List Char → Option Nat
  | [] => none
  | c :: rest => if startsName c then some (1 + wordTail rest) else none

/-- The characters that are punctuation marks on their own. -/
def marks : List Char :=
  ['\x7b', '\x7d', '(', ')', '[', ']', '<', '>', ',', ';', ':', '=', '?']

/-- A punctuation mark. -/
def mark? : List Char → Option Nat
  | '=' :: '>' :: _ => some 2
  | c :: _ => if marks.contains c then some 1 else none
  | [] => none

/-! ## Tokens -/

/-- A literal that was read is a token of its kind, and its fault is the fault of the text. -/
def ofLiteral (kind : TokenKind) : Except Fault Nat → Lexeme
  | .ok count => .token kind count
  | .error fault => .broken fault

/-- The token at the head of the text `c :: rest`. A character that begins nothing else is a symbol,
unless it is a control character. -/
def readToken (c : Char) (rest : List Char) : Lexeme :=
  let text := c :: rest
  match string? text with
  | some read => ofLiteral .stringLiteral read
  | none =>
  match character? text with
  | some read => ofLiteral .charLiteral read
  | none =>
  match integer? text with
  | some count => .token .integerLiteral count
  | none =>
  match number? text with
  | some count => .token .numberLiteral count
  | none =>
  match word? text with
  | some count => .token (.ofWord (String.ofList (text.take count))) count
  | none =>
  match mark? text with
  | some count => .token .punctuation count
  | none => if isControl c then .broken ⟨.unexpectedCharacter, 0, 0⟩ else .token .symbol 1

/-- What stands at the head of the text `c :: rest`. -/
def ofText (c : Char) (rest : List Char) : Lexeme :=
  match trivia? (c :: rest) with
  | some lexeme => lexeme
  | none => readToken c rest

end Lexeme

end ClassChart
