/-
# ClassChart.Grammar.Region — regions kept as raw text

Bodies and initializers are not read as declarations. Their extent is found by counting brackets, and
the source text from the first to the last of their tokens becomes a single leaf.
-/
import ClassChart.Grammar.Reader

namespace ClassChart.Grammar

/-- The leaf for the region from `first` to `last`: the source text between them. -/
def regionLeaf (source : List Char) (kind : TokenKind) (first last : Token) : Tree :=
  let span := first.span.union last.span
  .leaf ⟨kind, String.ofList (span.slice source), span⟩

/-! ## Bodies -/

/-- The brace that closes a body in which `depth` inner braces are open, and what follows it. -/
def bodyEnd? (depth : Nat) : List Token → Option (Token × List Token)
  | [] => none
  | t :: rest =>
    if t.isMark "\x7b" then bodyEnd? (depth + 1) rest
    else if t.isMark "\x7d" then
      match depth with
      | 0 => some (t, rest)
      | outer + 1 => bodyEnd? outer rest
    else bodyEnd? depth rest

/-- `body := "{" … "}"`, the shortest run of tokens with balanced braces. -/
def body (source : List Char) (expected : Option Expectation) : Reader
  | [] => .plain ⟨[], expected, none⟩
  | opening :: rest =>
    if opening.isMark "\x7b" then
      match bodyEnd? 0 rest with
      | some (closing, after) => .ok [regionLeaf source .body opening closing] after
      | none => .final ⟨[], some .bodyEnd, some rest⟩
    else .plain ⟨opening :: rest, expected, none⟩

/-! ## Values -/

/-- Whether the token opens a bracket of any kind. -/
def opensBracket (t : Token) : Bool := t.isMark "(" || t.isMark "[" || t.isMark "\x7b"

/-- Whether the token closes a bracket of any kind. -/
def closesBracket (t : Token) : Bool := t.isMark ")" || t.isMark "]" || t.isMark "\x7d"

/-- The semicolon that ends a value in which `depth` brackets are open, and what follows it. A
closing bracket without an opening one counts for nothing. -/
def valueEnd? (depth : Nat) : List Token → Option (Token × List Token)
  | [] => none
  | t :: rest =>
    if opensBracket t then valueEnd? (depth + 1) rest
    else if closesBracket t then valueEnd? (depth - 1) rest
    else if t.isMark ";" && depth == 0 then some (t, rest)
    else valueEnd? depth rest

/-- `value_literal := … ";"`, a run that does not begin with a semicolon and ends with the first one
outside brackets. -/
def valueLiteral (source : List Char) : Reader
  | [] => .plain ⟨[], some .value, none⟩
  | first :: rest =>
    if first.isMark ";" then .plain ⟨first :: rest, some .value, none⟩
    else match valueEnd? 0 (first :: rest) with
      | some (last, after) => .ok [regionLeaf source .valueLiteral first last] after
      | none => .plain ⟨[], some .valueEnd, none⟩

end ClassChart.Grammar
