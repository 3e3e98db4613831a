/-
# ClassChart.Token.Literal — string and character literals

Literals are checked but not decoded. The five forms of string nest through interpolation holes: a
hole may hold strings, characters and further holes, and a closing brace inside one of those does
not close the hole. So the reading of a literal keeps a stack of `Frame`s, the innermost open
construct first, and each step looks only at the innermost one and the characters that follow. The
literal ends when the stack is empty.

All offsets here count characters from the first character of the literal, so a literal is read
alike wherever it stands.
-/
import ClassChart.Diagnostic

namespace ClassChart.Literal

/-! ## What can be wrong -/

/-- A place where no token can be read: the problem, where the offending construct begins, and where
reading stopped. Offsets count characters. -/
structure Fault where
  code : ErrorCode
  start : Nat
  stop : Nat
deriving DecidableEq, Repr

/-! ## Open constructs -/

/-- A construct whose end has not been reached. -/
inductive Frame where
  /-- Inside `"…"`: escapes count, and the line must not end. -/
  | regular (start : Nat)
  /-- Inside `@"…"`: a doubled quote stands for a quote. -/
  | verbatim (start : Nat)
  /-- Inside the text of `$"…"`, or of `$@"…"` and `@$"…"` when `isVerbatim`. -/
  | interpolated (start : Nat) (isVerbatim : Bool)
  /-- Inside a hole opened by the brace at `opened`. -/
  | hole (opened : Nat)
  /-- After the opening quote of a character, and after its content when `isFilled`. -/
  | character (start : Nat) (isFilled : Bool)
deriving DecidableEq, Repr

/-- What the next characters do: take one character and `extra` more, with `frames` in place of the
innermost one, or break the literal. -/
inductive Move where
  | take (extra : Nat) (frames : List Frame)
  | break (fault : Fault)
deriving DecidableEq, Repr

/-- The form of string that the text opens, if any, and the number of characters that open it. -/
def opener? (start : Nat) : List Char → Option (Nat × Frame)
  | '$' :: '@' :: '"' :: _ => some (3, .interpolated start true)
  | '@' :: '$' :: '"' :: _ => some (3, .interpolated start true)
  | '$' :: '"' :: _ => some (2, .interpolated start false)
  | '@' :: '"' :: _ => some (2, .verbatim start)
  | '"' :: _ => some (1, .regular start)
  | _ => none

/-! ## Escapes -/

/-- The characters that may follow a backslash on their own. -/
def simpleEscapes : List Char := ['\x27', '"', '\\', '0', 'a', 'b', 'f', 'n', 'r', 't', 'v']

/-- Whether the character is a hexadecimal digit. -/
def isHexDigit (c : Char) : Bool :=
  c.isDigit || ('a' ≤ c && c ≤ 'f') || ('A' ≤ c && c ≤ 'F')

/-- The number of hexadecimal digits at the head of the text, at most `most`. -/
def hexDigits (most : Nat) (text : List Char) : Nat := ((text.take most).takeWhile isHexDigit).length

/-- Reads what follows a backslash: the number of characters of the escape, or the number of
characters that could be read before it went wrong. -/
def escape : List Char → Except Nat Nat
  | [] => .error 0
  | c :: rest =>
    if simpleEscapes.contains c then .ok 1
    else if c = 'x' then
      let digits := hexDigits 4 rest
      if digits = 0 then .error 0 else .ok (1 + digits)
    else if c = 'u' then if hexDigits 4 rest = 4 then .ok 5 else .error 0
    else if c = 'U' then if hexDigits 8 rest = 8 then .ok 9 else .error 1
    else .error 0

/-- The move for a backslash at offset `here`, with `frames` in place of the innermost one after a
good escape. -/
def escapeMove (here : Nat) (frames : List Frame) (rest : List Char) : Move :=
  match escape rest with
  | .ok count => .take count frames
  | .error count => .break ⟨.invalidEscape, here, here + 1 + count⟩

/-! ## Steps -/

/-- Whether the character ends a line, which a one-line literal must not reach. -/
def endsLine (c : Char) : Bool := c == '\n' || c == '\r'

/-- Inside a regular string. -/
def regularMove (start here : Nat) (frame : Frame) (c : Char) (rest : List Char) : Move :=
  if c = '"' then .take 0 []
  else if c = '\\' then escapeMove here [frame] rest
  else if endsLine c then .break ⟨.unterminatedString, start, here⟩
  else .take 0 [frame]

/-- Inside a verbatim string. -/
def verbatimMove (frame : Frame) (c : Char) (rest : List Char) : Move :=
  if c = '"' then if rest.head? = some '"' then .take 1 [frame] else .take 0 []
  else .take 0 [frame]

/-- Inside the text of an interpolated string. A doubled brace is text, a single opening one begins
a hole, and a single closing one has nothing to close. -/
def interpolatedMove (start here : Nat) (isVerbatim : Bool) (frame : Frame) (c : Char)
    (rest : List Char) : Move :=
  if (c = '\x7b' ∨ c = '\x7d') ∧ rest.head? = some c then .take 1 [frame]
  else if c = '\x7b' then .take 0 [.hole here, frame]
  else if c = '\x7d' then .break ⟨.unterminatedString, start, here⟩
  else if isVerbatim then verbatimMove frame c rest
  else regularMove start here frame c rest

/-- Inside a hole. Strings, characters and holes are read as units. -/
def holeMove (here : Nat) (frame : Frame) (c : Char) (rest : List Char) : Move :=
  if c = '\x7d' then .take 0 []
  else if c = '\x7b' then .take 0 [.hole here, frame]
  else if c = '\x27' then .take 0 [.character here false, frame]
  else match opener? here (c :: rest) with
    | some (count, inner) => .take (count - 1) [inner, frame]
    | none => .take 0 [frame]

/-- Inside a character literal, which holds one character or one escape. -/
def characterMove (start here : Nat) (isFilled : Bool) (c : Char) (rest : List Char) : Move :=
  let fault := Move.break ⟨.unterminatedCharacter, start, here⟩
  if isFilled then if c = '\x27' then .take 0 [] else fault
  else if c = '\\' then escapeMove here [.character start true] rest
  else if c = '\x27' || endsLine c then fault
  else .take 0 [.character start true]

/-- What the characters `c :: rest` at offset `here` do to the innermost open construct. -/
def Frame.move (frame : Frame) (here : Nat) (c : Char) (rest : List Char) : Move :=
  match frame with
  | .regular start => regularMove start here frame c rest
  | .verbatim _ => verbatimMove frame c rest
  | .interpolated start isVerbatim => interpolatedMove start here isVerbatim frame c rest
  | .hole _ => holeMove here frame c rest
  | .character start isFilled => characterMove start here isFilled c rest

/-! ## Whole literals -/

/-- The fault of a text that ends with these constructs open. An open hole is charged to the string
around it, which could be read up to the brace of its outermost open hole. -/
def unclosed (stop : Nat) : List Frame → Fault
  | [] => ⟨.unterminatedString, 0, stop⟩
  | .hole opened :: outer => unclosed opened outer
  | .regular start :: _ => ⟨.unterminatedString, start, stop⟩
  | .verbatim start :: _ => ⟨.unterminatedString, start, stop⟩
  | .interpolated start _ :: _ => ⟨.unterminatedString, start, stop⟩
  | .character start _ :: _ => ⟨.unterminatedCharacter, start, stop⟩

/-- Reads on at offset `here` with the given constructs open, until all are closed: the offset of the
end, or the fault. -/
def close (frames : List Frame) (here : Nat) (text : List Char) : Except Fault Nat :=
  match frames, text with
  | [], _ => .ok here
  | frames, [] => .error (unclosed here frames)
  | frame :: outer, c :: rest =>
    match frame.move here c rest with
    | .take extra inner => close (inner ++ outer) (here + 1 + extra) (rest.drop extra)
    | .break fault => .error fault
termination_by text.length

/-- Reads the string literal at the head of the text: nothing if none begins there, else the number
of its characters, or its fault. -/
def string? (text : List Char) : Option (Except Fault Nat) :=
  match opener? 0 text with
  | some (count, frame) => some (close [frame] count (text.drop count))
  | none => none

/-- Reads the character literal at the head of the text, like `string?`. -/
def character? : List Char → Option (Except Fault Nat)
  | '\x27' :: rest => some (close [.character 0 false] 1 rest)
  | _ => none

end ClassChart.Literal
