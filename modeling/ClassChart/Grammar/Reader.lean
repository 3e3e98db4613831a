/-
# ClassChart.Grammar.Reader — readers of token lists

A `Reader` takes tokens from the head of a list and gives the trees it made of them, so that reading
one thing after another is `++`. A reader that cannot go on refuses, and says where it stopped and
what it expected there. A refusal is *plain* as long as another alternative may still apply, and
*final* once the reader has committed itself to a construct; a final refusal also remembers where
the innermost such construct began.
-/
import ClassChart.Tree

namespace ClassChart.Grammar

/-! ## Outcomes -/

/-- What a reader can expect at the place where it refuses. -/
inductive Expectation where
  | identifier
  | semicolon
  | value
  | valueEnd
  | defaultValue
  | parametersEnd
  | methodBody
  | bodyEnd
  | accessorName
  | typeArgumentsEnd
  | rankEnd
  | classBody
  | enumNumber
  | enumBody
  | enumEnd
  | typeDeclaration
  | namespaceDeclaration
  | namespaceBody
deriving DecidableEq, Repr

/-- How the expectation is put in messages. -/
def Expectation.describe : Expectation → String
  | identifier => "identifier"
  | semicolon => "`;`"
  | value => "value"
  | valueEnd => "`;` ending the value"
  | defaultValue => "default value"
  | parametersEnd => "`)` closing the parameter list"
  | methodBody => "method body"
  | bodyEnd => "`\x7d` closing the body"
  | accessorName => "`get`, `set` or `init`"
  | typeArgumentsEnd => "`>` closing the type arguments"
  | rankEnd => "`]` closing the array rank"
  | classBody => "`\x7b` opening the class body"
  | enumNumber => "integer enum value"
  | enumBody => "`\x7b` opening the enum body"
  | enumEnd => "`\x7d` closing the enum body"
  | typeDeclaration => "class or enum declaration"
  | namespaceDeclaration => "namespace declaration"
  | namespaceBody => "`\x7b` or `;` after the namespace name"

/-- Why a reader could not go on. -/
structure Refusal where
  /-- The tokens from the one that was refused on. -/
  rest : List Token
  /-- What would have been accepted there. -/
  expected : Option Expectation
  /-- The tokens from the start of the innermost construct that was being read. -/
  construct : Option (List Token)
deriving DecidableEq, Repr

/-- The outcome of a reader: the trees read and the tokens left, or a refusal. -/
inductive Outcome where
  | ok (trees : List Tree) (rest : List Token)
  | plain (refusal : Refusal)
  | final (refusal : Refusal)
deriving Repr

namespace Outcome

/-- Changes the trees of a success. -/
def map (f : List Tree → List Tree) : Outcome → Outcome
  | ok trees rest => ok (f trees) rest
  | plain refusal => plain refusal
  | final refusal => final refusal

/-- Goes on after a success. -/
def andThen (o : Outcome) (next : List Tree → List Token → Outcome) : Outcome :=
  match o with
  | ok trees rest => next trees rest
  | plain refusal => plain refusal
  | final refusal => final refusal

end Outcome

/-- A reader of tokens. -/
def Reader := List Token → Outcome

namespace Reader

/-! ## Single tokens -/

/-- Refuses where it stands. -/
def refuse (expected : Option Expectation) : Reader := fun ts => .plain ⟨ts, expected, none⟩

/-- Reads one token of the given class as a leaf. -/
def token (p : Token → Bool) (expected : Option Expectation) : Reader
  | [] => .plain ⟨[], expected, none⟩
  | t :: rest => if p t then .ok [.leaf t] rest else .plain ⟨t :: rest, expected, none⟩

/-- Reads the given punctuation mark. -/
def mark (text : String) : Reader := token (·.isMark text) none

/-- Reads the given punctuation mark, and says so where it is missing. -/
def expectMark (text : String) (expected : Expectation) : Reader :=
  token (·.isMark text) (some expected)

/-- Reads a token of the given kind. -/
def keyword (kind : TokenKind) : Reader := token (·.isKind kind) none

/-- Reads an identifier. -/
def identifier : Reader := token (·.isKind .identifier) (some .identifier)

/-- Reads a semicolon. -/
def semicolon : Reader := expectMark ";" .semicolon

/-! ## Sequences, choices and repetitions -/

/-- Reads nothing. -/
def nothing : Reader := fun ts => .ok [] ts

/-- Reads `p` and then `q`. -/
def seq (p q : Reader) : Reader := fun ts =>
  (p ts).andThen fun first rest => (q rest).map (first ++ ·)

instance : Append Reader := ⟨seq⟩

/-- Puts what `p` reads under one node. -/
def node (rule : Rule) (p : Reader) : Reader := fun ts => (p ts).map fun trees => [.node rule trees]

/-- Chooses a reader by the next token. -/
def byNext (choose : Option Token → Reader) : Reader := fun ts => choose ts.head? ts

/-- Reads `p` if the next token is of the given class. -/
def ifNext (test : Token → Bool) (p : Reader) : Reader :=
  byNext fun next => if next.any test then p else nothing

/-- Reads `item` again and again, as long as what comes next passes the test. -/
def whileNext (test : Option Token → Bool) (item : Reader) : Reader := fun ts =>
  if test ts.head? then
    match item ts with
    | .ok trees rest =>
      if rest.length < ts.length then (whileNext test item rest).map (trees ++ ·) else .ok trees rest
    | .plain refusal => .plain refusal
    | .final refusal => .final refusal
  else .ok [] ts
termination_by ts => ts.length

/-- Reads `p`, or `q` from the same place if `p` refuses without having committed itself. -/
def orElse (p q : Reader) : Reader := fun ts =>
  match p ts with
  | .plain _ => q ts
  | outcome => outcome

/-- Reads `p`, or nothing if `p` refuses without having committed itself. -/
def attempt (p : Reader) : Reader := orElse p nothing

/-- Commits itself to the construct that `p` reads: a refusal is final and remembers where the
construct began, unless one inside it has done so. -/
def committed (p : Reader) : Reader := fun ts =>
  match p ts with
  | .ok trees rest => .ok trees rest
  | .plain refusal => .final { refusal with construct := refusal.construct <|> some ts }
  | .final refusal => .final { refusal with construct := refusal.construct <|> some ts }

end Reader

/-! ## Tests on the next token -/

/-- Whether the next token is the given punctuation mark. -/
def nextIsMark (text : String) (next : Option Token) : Bool := next.any (·.isMark text)

/-- Whether the next token has the given kind. -/
def nextIsKind (kind : TokenKind) (next : Option Token) : Bool := next.any (·.isKind kind)

end ClassChart.Grammar
