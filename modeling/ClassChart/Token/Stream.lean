/-
# ClassChart.Token.Stream — the tokens of a source text

`tokenize` reads lexeme after lexeme. It goes on after a fault, so that every lexical problem of a
unit is reported at once: a broken literal costs the rest of its line, an open comment the rest of
the text, a stray character itself. Trivia leaves nothing behind.
-/
import ClassChart.Token.Lexeme

namespace ClassChart

open Text Literal

/-! ## Faults as diagnostics -/

/-- The advice for a lexical problem. -/
def lexicalHelp? : ErrorCode → Option String
  | .unterminatedString => some "add a closing `\"`"
  | .invalidEscape => some ("valid escapes: `\\'`, `\\\"`, `\\\\`, `\\0`, `\\a`, `\\b`, `\\f`, " ++
      "`\\n`, `\\r`, `\\t`, `\\v`, `\\xH`, `\\uHHHH`, `\\UHHHHHHHH`")
  | .unterminatedComment => some "add a closing `*/`"
  | .unterminatedCharacter => some "a character literal holds exactly one character: `'x'`"
  | _ => none

/-- The byte offset that lies `count` characters into a text which starts at offset `base`. -/
def offsetAfter (base : Nat) (text : List Char) (count : Nat) : Nat :=
  base + byteLength (text.take count)

/-- The report of a fault in the text that starts at offset `base`. It marks the bytes from the start
of the offending construct to where reading stopped, and at least one. -/
def Literal.Fault.diagnostic (fault : Fault) (base : Nat) (text : List Char) : Diagnostic :=
  let start := offsetAfter base text fault.start
  let stop := offsetAfter base text fault.stop
  { message := fault.code.description
    code := some fault.code
    labels := [⟨⟨start, max stop (start + 1)⟩, fault.code.description, true⟩]
    help := lexicalHelp? fault.code }

/-- How many characters of `rest` are given up after a fault in the text `c :: rest`. -/
def Literal.Fault.skipped (fault : Fault) (rest : List Char) : Nat :=
  match fault.code with
  | .unterminatedComment => rest.length
  | .unexpectedCharacter => 0
  | _ => (fault.stop - 1) + Lexeme.restOfLine (rest.drop (fault.stop - 1))

/-! ## The reading loop -/

/-- What reading a text gave: the tokens and the problems, each in source order. -/
structure Scan where
  tokens : List Token
  problems : List Diagnostic
deriving DecidableEq, Repr

namespace Scan

/-- Puts a token in front. -/
def addToken (t : Token) (s : Scan) : Scan := { s with tokens := t :: s.tokens }

/-- Puts a problem in front. -/
def addProblem (d : Diagnostic) (s : Scan) : Scan := { s with problems := d :: s.problems }

/-- The tokens, if there is no problem. -/
def result (s : Scan) : Except ParseError (List Token) :=
  if s.problems.isEmpty then .ok s.tokens else .error ⟨s.problems⟩

end Scan

/-- Reads a text that starts at byte offset `base`. -/
def scan (base : Nat) (text : List Char) : Scan :=
  match text with
  | [] => ⟨[], []⟩
  | c :: rest =>
    match Lexeme.ofText c rest with
    | .trivia count => scan (offsetAfter base (c :: rest) count) (rest.drop (count - 1))
    | .token kind count =>
      let stop := offsetAfter base (c :: rest) count
      let lexeme := String.ofList ((c :: rest).take count)
      (scan stop (rest.drop (count - 1))).addToken ((Terminal.ofText kind lexeme).token ⟨base, stop⟩)
    | .broken fault =>
      let skipped := fault.skipped rest
      (scan (offsetAfter base (c :: rest) (skipped + 1)) (rest.drop skipped)).addProblem
        (fault.diagnostic base (c :: rest))
termination_by text.length

/-- The tokens of a source text in source order, or every lexical problem of it. -/
def tokenize (source : String) : Except ParseError (List Token) := (scan 0 source.toList).result

end ClassChart
