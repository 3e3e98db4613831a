/-
# ClassChart.Extract.Facts — what a declaration says about itself

Small functions that read one property off a node: its visibility, the direction of a parameter, the
text of a type, the default of a parameter, the initializer of an attribute.
-/
import ClassChart.Model
import ClassChart.Text.Blank
import ClassChart.Tree.Cursor

namespace ClassChart.Extract

open ClassChart.Tree

/-- The visibility keyword in the modifier of a declaration; private where there is none. -/
def visibility (decl : Tree) : Visibility :=
  match (decl.childNode? .modifier).bind (·.childToken? .visibility) with
  | some keyword =>
    if keyword.text = "public" then .isPublic
    else if keyword.text = "protected" then .isProtected
    else .isPrivate
  | none => .isPrivate

/-- The direction of a parameter: `out` is output, `ref` is both, and anything else is input. -/
def direction (param : Tree) : Direction :=
  match param.childToken? .direction with
  | some keyword =>
    if keyword.text = "out" then .output else if keyword.text = "ref" then .both else .input
  | none => .input

/-- The text of a type: the texts of its leaves with nothing between them. -/
def flatten (leaves : List Token) : String := String.join (leaves.map (·.text))

/-- The text of the first child of the given rule. There is none without such a child, or when it
begins with `void`. -/
def typeText? (decl : Tree) (rule : Rule) : Option String :=
  match decl.childNode? rule with
  | none => none
  | some child =>
    let leaves := child.tokens
    if leaves.head?.any (·.isKind .voidKeyword) then none else some (flatten leaves)

/-- Removes one semicolon at the end, and then the blanks at both ends. -/
def stripTerminator (text : List Char) : List Char :=
  let unended := if text.getLast? = some ';' then text.dropLast else text
  Text.trimBlanks unended

/-- A parameter default that is neither an integer nor a string. -/
structure UnsupportedDefault where
  kind : TokenKind
  text : String
  span : Span
deriving DecidableEq, Repr

/-- Why the default is unsupported. -/
def UnsupportedDefault.message (d : UnsupportedDefault) : String :=
  "unsupported default value `" ++ d.text ++ "` (" ++ d.kind.describe ++ ")"

/-- The default of a parameter as it is written, if it has one. -/
def default? (param : Tree) : Except UnsupportedDefault (Option String) :=
  match (param.childNode? .defaultValue).bind (·.cursor.next?) with
  | none => .ok none
  | some (value, _) =>
    if value.kind = .integerLiteral ∨ value.kind = .stringLiteral then .ok (some value.text)
    else .error ⟨value.kind, value.text, value.span⟩

/-- The first value leaf that directly follows a leaf `=`. The value behind `=>` is no initializer. -/
def initializer? : List Tree → Option Token
  | .leaf equals :: .leaf value :: rest =>
    if equals.text = "=" ∧ value.kind = .valueLiteral then some value
    else initializer? (.leaf value :: rest)
  | _ :: rest => initializer? rest
  | [] => none

end ClassChart.Extract
