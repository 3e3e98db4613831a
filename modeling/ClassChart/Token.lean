/-
# ClassChart.Token — the words of the accepted C# subset

A terminal is one of the thirteen keywords or fourteen marks, or a name, a literal or a symbol that holds
its text exactly as written, quotes and signs included, because literals are reported as they stand in
the source. A token is a terminal with its span. What a keyword or a mark looks like is read off a table;
`Proofs/Token/Terminal` shows that the tables agree with what was read.
-/
import ClassChart.Text.Span

namespace ClassChart

/-! ## Kinds -/

/-- The kind of a token. The three visibility keywords share one kind, and so do the two direction
keywords. The last two kinds are never read from characters: they mark regions that are kept as raw
text, an initializer up to and including its `;`, and a body in braces. -/
inductive TokenKind where
  | identifier
  | integerLiteral
  | numberLiteral
  | stringLiteral
  | charLiteral
  | visibility
  | staticKeyword
  | direction
  | namespaceKeyword
  | usingKeyword
  | classKeyword
  | enumKeyword
  | partialKeyword
  | overrideKeyword
  | voidKeyword
  | punctuation
  | symbol
  | valueLiteral
  | body
deriving DecidableEq, Repr

namespace TokenKind

/-- How the kind is called in messages. -/
def describe : TokenKind → String
  | identifier => "identifier"
  | integerLiteral => "integer literal"
  | numberLiteral => "numeric literal"
  | stringLiteral => "string literal"
  | charLiteral => "character literal"
  | visibility => "visibility keyword"
  | staticKeyword => "`static`"
  | direction => "direction keyword"
  | namespaceKeyword => "`namespace`"
  | usingKeyword => "`using`"
  | classKeyword => "`class`"
  | enumKeyword => "`enum`"
  | partialKeyword => "`partial`"
  | overrideKeyword => "`override`"
  | voidKeyword => "`void`"
  | punctuation => "punctuation"
  | symbol => "symbol"
  | valueLiteral => "value"
  | body => "body"

end TokenKind

/-! ## Terminals -/

/-- What a token can be. Keywords and punctuation marks are known by their name alone, everything else
holds its text. -/
inductive Terminal where
  | namespaceKeyword
  | usingKeyword
  | classKeyword
  | enumKeyword
  | partialKeyword
  | overrideKeyword
  | voidKeyword
  | publicKeyword
  | privateKeyword
  | protectedKeyword
  | staticKeyword
  | outKeyword
  | refKeyword
  | identifier (text : String)
  | integerLiteral (text : String)
  | numberLiteral (text : String)
  | stringLiteral (text : String)
  | charLiteral (text : String)
  | leftBrace
  | rightBrace
  | leftParen
  | rightParen
  | leftBracket
  | rightBracket
  | leftAngle
  | rightAngle
  | comma
  | semicolon
  | colon
  | equals
  | question
  | fatArrow
  | symbol (text : String)
deriving DecidableEq, Repr

namespace Terminal

/-- The text of the terminal. -/
def text : Terminal → String
  | namespaceKeyword => "namespace"
  | usingKeyword => "using"
  | classKeyword => "class"
  | enumKeyword => "enum"
  | partialKeyword => "partial"
  | overrideKeyword => "override"
  | voidKeyword => "void"
  | publicKeyword => "public"
  | privateKeyword => "private"
  | protectedKeyword => "protected"
  | staticKeyword => "static"
  | outKeyword => "out"
  | refKeyword => "ref"
  | identifier text => text
  | integerLiteral text => text
  | numberLiteral text => text
  | stringLiteral text => text
  | charLiteral text => text
  | leftBrace => "\x7b"
  | rightBrace => "\x7d"
  | leftParen => "("
  | rightParen => ")"
  | leftBracket => "["
  | rightBracket => "]"
  | leftAngle => "<"
  | rightAngle => ">"
  | comma => ","
  | semicolon => ";"
  | colon => ":"
  | equals => "="
  | question => "?"
  | fatArrow => "=>"
  | symbol text => text

/-- The kind of the terminal. -/
def kind : Terminal → TokenKind
  | namespaceKeyword => .namespaceKeyword
  | usingKeyword => .usingKeyword
  | classKeyword => .classKeyword
  | enumKeyword => .enumKeyword
  | partialKeyword => .partialKeyword
  | overrideKeyword => .overrideKeyword
  | voidKeyword => .voidKeyword
  | publicKeyword | privateKeyword | protectedKeyword => .visibility
  | staticKeyword => .staticKeyword
  | outKeyword | refKeyword => .direction
  | identifier _ => .identifier
  | integerLiteral _ => .integerLiteral
  | numberLiteral _ => .numberLiteral
  | stringLiteral _ => .stringLiteral
  | charLiteral _ => .charLiteral
  | leftBrace | rightBrace | leftParen | rightParen | leftBracket | rightBracket => .punctuation
  | leftAngle | rightAngle | comma | semicolon | colon | equals | question => .punctuation
  | fatArrow => .punctuation
  | symbol _ => .symbol

/-- The terminal that a whole word is: one of the thirteen keywords, or an identifier. A word is a
keyword only when it matches exactly, so `publicKey` and `Outer.class` are identifiers. -/
def ofWord (word : String) : Terminal :=
  if word = "namespace" then namespaceKeyword
  else if word = "using" then usingKeyword
  else if word = "class" then classKeyword
  else if word = "enum" then enumKeyword
  else if word = "partial" then partialKeyword
  else if word = "override" then overrideKeyword
  else if word = "void" then voidKeyword
  else if word = "public" then publicKeyword
  else if word = "private" then privateKeyword
  else if word = "protected" then protectedKeyword
  else if word = "static" then staticKeyword
  else if word = "out" then outKeyword
  else if word = "ref" then refKeyword
  else identifier word

/-- The terminal that a punctuation mark is. A text that is no mark is a symbol. -/
def ofMark (mark : String) : Terminal :=
  if mark = "=>" then fatArrow
  else if mark = "\x7b" then leftBrace
  else if mark = "\x7d" then rightBrace
  else if mark = "(" then leftParen
  else if mark = ")" then rightParen
  else if mark = "[" then leftBracket
  else if mark = "]" then rightBracket
  else if mark = "<" then leftAngle
  else if mark = ">" then rightAngle
  else if mark = "," then comma
  else if mark = ";" then semicolon
  else if mark = ":" then colon
  else if mark = "=" then equals
  else if mark = "?" then question
  else symbol mark

/-- The terminal that a text is, given the kind it was read as. -/
def ofText (kind : TokenKind) (text : String) : Terminal :=
  match kind with
  | .integerLiteral => integerLiteral text
  | .numberLiteral => numberLiteral text
  | .stringLiteral => stringLiteral text
  | .charLiteral => charLiteral text
  | .punctuation => ofMark text
  | .symbol => symbol text
  | _ => ofWord text

end Terminal

/-- The kind of a whole word. -/
def TokenKind.ofWord (word : String) : TokenKind := (Terminal.ofWord word).kind

/-! ## Tokens -/

/-- What is kept of a terminal in a tree, or of a region in its place: the kind, the text, and the part
of the source that it stands for. -/
structure Token where
  kind : TokenKind
  text : String
  span : Span
deriving DecidableEq, Repr

/-- The terminal as a token that stands for a span. -/
def Terminal.token (a : Terminal) (span : Span) : Token := ⟨a.kind, a.text, span⟩

namespace Token

/-- Whether the token is the given punctuation mark. -/
def isMark (mark : String) (t : Token) : Bool := t.kind == .punctuation && t.text == mark

/-- Whether the token has the given kind. -/
def isKind (kind : TokenKind) (t : Token) : Bool := t.kind == kind

end Token

end ClassChart
