/-
# ClassChart.Proofs.Model.Source — a model written out as a source text

Each entity of a model is written in a namespace block of its own, with what the model knows of it and
nothing else: a class with its attributes and then its methods, an enum with its values. Methods have an
empty body, and those without a return type are `void`. A text is a list of words with a space behind
each of them; only an initial value has a line break behind it, since it may end with a comment.
-/
import ClassChart.Model

namespace ClassChart

/-! ## Members -/

/-- The keyword that a parameter needs for its direction. -/
def Direction.keyword? : Direction → Option String
  | input => none
  | output => some "out"
  | both => some "ref"

/-- The end of an attribute: `;`, or `= VALUE` with the semicolon on the next line. -/
def initialWords : Option String → List String
  | none => [";"]
  | some value => ["=", value ++ "\n;"]

/-- `VIS TYPE NAME ;` or `VIS TYPE NAME = VALUE` and `;` on the next line. -/
def Attribute.words (a : Attribute) : List String :=
  [a.visibility.word, a.typeName, a.name] ++ initialWords a.initial?

/-- The end of a parameter: nothing, or `= DEFAULT`. -/
def defaultWords : Option String → List String
  | none => []
  | some value => ["=", value]

/-- `TYPE NAME`, with `out` or `ref` before it and `= DEFAULT` behind it where there is one. -/
def Parameter.words (p : Parameter) : List String :=
  p.direction.keyword?.toList ++ [p.typeName, p.name] ++ defaultWords p.default?

/-- Lists of words with a comma between each two. -/
def separated (groups : List (List String)) : List String := [","].intercalate groups

/-- `VIS RET NAME ( PARAMS ) { }` -/
def Method.words (m : Method) : List String :=
  [m.visibility.word, m.returnType?.getD "void", m.name, "("]
    ++ separated (m.parameters.map Parameter.words) ++ [")", "\x7b", "\x7d"]

/-! ## Entities -/

/-- `class NAME { ATTRIBUTES METHODS }` or `enum NAME { VALUES }`. -/
def Entity.words (e : Entity) : List String :=
  match e.body with
  | .ofClass attributes methods =>
    ["class", e.key.name, "\x7b"] ++ attributes.flatMap Attribute.words
      ++ methods.flatMap Method.words ++ ["\x7d"]
  | .ofEnum values => ["enum", e.key.name, "\x7b"] ++ separated (values.map ([·])) ++ ["\x7d"]

/-- `namespace NS { ENTITY }` -/
def Entity.blockWords (e : Entity) : List String :=
  ["namespace", e.key.scope, "\x7b"] ++ e.words ++ ["\x7d"]

/-! ## Models -/

/-- The words one behind the other, each with a space behind it. -/
def spaced (words : List String) : String := String.join (words.map (· ++ " "))

/-- The model as a source text. -/
def Model.toSource (m : Model) : String := spaced (m.flatMap Entity.blockWords)

/-- The characters of the words, each with a space behind it. -/
def chars (words : List String) : List Char := words.flatMap fun word => word.toList ++ [' ']

@[simp] theorem chars_nil : chars [] = [] := rfl

@[simp] theorem chars_cons (word : String) (words : List String) :
    chars (word :: words) = word.toList ++ ' ' :: chars words := by
  simp [chars]

@[simp] theorem chars_append (words words' : List String) :
    chars (words ++ words') = chars words ++ chars words' := by
  simp [chars]

theorem toList_spaced (words : List String) : (spaced words).toList = chars words := by
  induction words with
  | nil => rfl
  | cons word words ih =>
      rw [chars_cons, ← ih, spaced, List.map_cons, String.join_cons]
      simp [spaced]

@[simp] theorem separated_singleton (group : List String) : separated [group] = group := by
  simp [separated]

@[simp] theorem separated_cons (group next : List String) (groups : List (List String)) :
    separated (group :: next :: groups) = group ++ "," :: separated (next :: groups) := by
  simp [separated, List.intercalate]

end ClassChart
