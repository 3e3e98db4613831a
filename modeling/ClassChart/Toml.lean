/-
# ClassChart.Toml — settings files

A settings file is a list of `key = value` lines under `[table]` headers. `Toml.read?` gives the whole
as one value, or nothing if the text is not of that form. A key may be given once. A table may be opened
once by a header, and by none once a dotted key has gone through it; a dotted key goes through no table
that a header has opened. Neither keys nor brackets may be nested too deeply.
-/
import ClassChart.Toml.Scalar
import ClassChart.Toml.Value

namespace ClassChart.Toml

/-! ## Tables under construction -/

/-- How a table came to be: on the way to a header, by a header, or by dotted keys. A table that both a
header and a dotted key went through counts as one of dotted keys. -/
inductive Origin where
  | implicit
  | header
  | dotted
deriving DecidableEq, Repr

/-- A member of a table: a finished value, a table, or an array of tables. -/
inductive Node where
  | value (value : Value)
  | table (origin : Origin) (members : List (String × Node))
  | tables (elements : List (List (String × Node)))
deriving Inhabited

/-- The members of a table. -/
abbrev Members := List (String × Node)

namespace Members

/-- Changes the member of a name, or adds one at the end. -/
def alter (name : String) (change : Option Node → Option Node) : Members → Option Members
  | [] => do
    pure [(name, ← change none)]
  | (other, node) :: rest =>
    if other = name then do
      pure ((other, ← change (some node)) :: rest)
    else do
      pure ((other, node) :: (← alter name change rest))

/-- Changes the last element of an array of tables. -/
def alterLast (change : Members → Option Members) (elements : List Members) :
    Option (List Members) := do
  let last ← elements.getLast?
  pure (elements.dropLast ++ [← change last])

/-- Adds a value under a dotted key, `path` being all but its last part. The tables on the way must not
stem from headers, and are from now on tables of dotted keys. Of an array of tables the last one is
meant, but it takes no value of its own in this way. -/
def insert (name : String) (value : Value) : List String → Members → Option Members
  | [] => alter name fun
    | none => some (.value value)
    | some _ => none
  | part :: path => alter part fun
    | none => do
      pure (.table .dotted (← insert name value path []))
    | some (.table .header _) => none
    | some (.table _ members) => do
      pure (.table .dotted (← insert name value path members))
    | some (.tables elements) =>
      if path.isEmpty then none
      else do
        pure (.tables (← alterLast (insert name value path) elements))
    | some (.value _) => none

/-- Goes along the path of a header and changes what it leads to. Tables that are missing on the way
are made; of an array of tables the last one is meant. -/
def along (change : Members → Option Members) : List String → Members → Option Members
  | [] => change
  | part :: path => alter part fun
    | none => do
      pure (.table .implicit (← along change path []))
    | some (.table origin members) => do
      pure (.table origin (← along change path members))
    | some (.tables elements) => do
      pure (.tables (← alterLast (along change path) elements))
    | some (.value _) => none

/-- Opens the table of a header `[…]`. -/
def openTable (name : String) : Members → Option Members :=
  alter name fun
    | none => some (.table .header [])
    | some (.table .implicit members) => some (.table .header members)
    | _ => none

/-- Opens a further table of a header `[[…]]`. -/
def openElement (name : String) : Members → Option Members :=
  alter name fun
    | none => some (.tables [[]])
    | some (.tables elements) => some (.tables (elements ++ [[]]))
    | _ => none

end Members

mutual

/-- The value of a member. -/
def Node.toValue : Node → Value
  | .value value => value
  | .table _ members => .table (memberValues members)
  | .tables elements => .array (elementValues elements)

/-- The values of members. -/
def memberValues : List (String × Node) → List (String × Value)
  | [] => []
  | (name, node) :: rest => (name, node.toValue) :: memberValues rest

/-- The values of an array of tables. -/
def elementValues : List (List (String × Node)) → List Value
  | [] => []
  | members :: rest => .table (memberValues members) :: elementValues rest

end

/-! ## Keys and values -/

/-- What is left behind a comment, if one begins here. -/
def skipComment : List Char → List Char
  | '#' :: rest => rest.dropWhile isPlain
  | text => text

/-- What is left behind blanks, comments and line breaks. -/
def skipLines : Nat → List Char → List Char
  | 0, text => text
  | fuel + 1, text =>
    let rest := skipComment (skipSpace text)
    match lineBreak? rest with
    | some later => skipLines fuel later
    | none => rest

/-- Whether a key may hold the character without quotes. -/
def isKeyChar (c : Char) : Bool := c.isAlphanum || c == '_' || c == '-'

/-- One part of a key. -/
def keyPart? : Read String := fun text =>
  match quoted? text with
  | some (part, rest) => some (String.ofList part, rest)
  | none =>
    let part := text.takeWhile isKeyChar
    if part.isEmpty then none else some (String.ofList part, text.drop part.length)

/-- The parts of a key, separated by points. -/
def keyParts? : Nat → Read (List String)
  | 0, _ => none
  | fuel + 1, text => do
    let (part, rest) ← keyPart? (skipSpace text)
    match skipSpace rest with
    | '.' :: later => do
      let (parts, rest) ← keyParts? fuel later
      pure (part :: parts, rest)
    | rest => pure ([part], rest)

/-- The greatest number of parts of a key, and of brackets around a value. -/
def depthLimit : Nat := 80

/-- A key. -/
def key? (fuel : Nat) : Read (List String) := fun text =>
  (keyParts? fuel text).filter fun (parts, _) => parts.length ≤ depthLimit

mutual

/-- A value, inside which `room` more brackets may be open at a time. -/
def value? : Nat → Nat → Read Value
  | 0, _, _ => none
  | fuel + 1, room, text =>
    match multiline? text with
    | some (string, rest) => some (.string (String.ofList string), rest)
    | none =>
      match text with
      | '[' :: rest => if room = 0 then none else elements? fuel (room - 1) [] rest
      | '\x7b' :: rest => if room = 0 then none else members? fuel (room - 1) [] rest
      | c :: _ =>
        if c = '"' ∨ c = '\x27' then
          (quoted? text).map fun (string, rest) => (.string (String.ofList string), rest)
        else bare? text
      | [] => none

/-- The rest of an array behind the elements read so far. -/
def elements? : Nat → Nat → List Value → Read Value
  | 0, _, _, _ => none
  | fuel + 1, room, found, text =>
    match skipLines fuel text with
    | ']' :: rest => some (.array found, rest)
    | here => do
      let (element, rest) ← value? fuel room here
      match skipLines fuel rest with
      | ',' :: rest => elements? fuel room (found ++ [element]) rest
      | ']' :: rest => pure (.array (found ++ [element]), rest)
      | _ => none

/-- The rest of a table in braces behind the members read so far. -/
def members? : Nat → Nat → Members → Read Value
  | 0, _, _, _ => none
  | fuel + 1, room, found, text =>
    match skipLines fuel text with
    | '\x7d' :: rest => some (.table (memberValues found), rest)
    | here => do
      let (found, rest) ← assignment? fuel room found here
      match skipLines fuel rest with
      | ',' :: rest => members? fuel room found rest
      | '\x7d' :: rest => pure (.table (memberValues found), rest)
      | _ => none

/-- A member `key = value` of a table in braces, added to those read so far. The line may break on
either side of the sign. -/
def assignment? : Nat → Nat → Members → Read Members
  | 0, _, _, _ => none
  | fuel + 1, room, found, text => do
    let (parts, rest) ← key? fuel text
    match skipLines fuel rest with
    | '=' :: rest => do
      let (value, rest) ← value? fuel room (skipLines fuel rest)
      let name ← parts.getLast?
      pure (← found.insert name value parts.dropLast, rest)
    | _ => none

end

/-! ## Documents -/

/-- A header behind its opening brackets, with as many closing ones. -/
def header? (closing : List Char) (fuel : Nat) (text : List Char) :
    Option (List String × List Char) := do
  let (parts, rest) ← key? fuel text
  if closing.isPrefixOf rest then some (parts, rest.drop closing.length) else none

/-- What is left behind the end of a line. -/
def endOfLine? (text : List Char) : Option (List Char) :=
  let rest := skipComment (skipSpace text)
  if rest.isEmpty then some [] else lineBreak? rest

/-- Reads lines into the members of the whole, `current` being the path of the open table. -/
def lines : Nat → List String → Members → List Char → Option Members
  | 0, _, _, _ => none
  | fuel + 1, current, found, text =>
    match skipLines fuel text with
    | [] => some found
    | '[' :: '[' :: rest => do
      let (parts, rest) ← header? [']', ']'] fuel rest
      let name ← parts.getLast?
      let found ← Members.along (Members.openElement name) parts.dropLast found
      lines fuel parts found (← endOfLine? rest)
    | '[' :: rest => do
      let (parts, rest) ← header? [']'] fuel rest
      let name ← parts.getLast?
      let found ← Members.along (Members.openTable name) parts.dropLast found
      lines fuel parts found (← endOfLine? rest)
    | here => do
      let (parts, rest) ← key? fuel here
      match rest with
      | '=' :: rest => do
        let (value, rest) ← value? fuel depthLimit (skipSpace rest)
        let name ← parts.getLast?
        let found ← Members.along (Members.insert name value parts.dropLast) current found
        lines fuel current found (← endOfLine? rest)
      | _ => none

/-- The value of a settings file. A byte order mark at the start does not count. -/
def read? (text : String) : Option Value :=
  let cs := text.toList
  let body := if cs.head? = some '\uFEFF' then cs.drop 1 else cs
  (lines (2 * body.length + 8) [] [] body).map fun members => .table (memberValues members)

end ClassChart.Toml
