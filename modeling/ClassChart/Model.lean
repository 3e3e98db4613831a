/-
# ClassChart.Model — classes and enums as a diagram shows them

A model is the list of the classes and enums of one or more units, in source order. Members are
written in the notation of class diagrams: `- count: int = 0`, `+ Add(in item: T, out index: int): bool`.
-/
namespace ClassChart

/-! ## Members -/

/-- The access level of a declaration. -/
inductive Visibility where
  | isPublic
  | isPrivate
  | isProtected
deriving DecidableEq, Repr

namespace Visibility

/-- The sign of the level in a diagram. -/
def symbol : Visibility → String
  | isPublic => "+"
  | isPrivate => "-"
  | isProtected => "#"

/-- The word for the level. -/
def word : Visibility → String
  | isPublic => "public"
  | isPrivate => "private"
  | isProtected => "protected"

/-- The level with the given word. -/
def ofWord? (text : String) : Option Visibility :=
  [isPublic, isPrivate, isProtected].find? fun v => v.word == text

end Visibility

/-- Which way a parameter carries data. -/
inductive Direction where
  | input
  | output
  | both
deriving DecidableEq, Repr

namespace Direction

/-- The word for the direction. -/
def word : Direction → String
  | input => "in"
  | output => "out"
  | both => "inout"

/-- The direction with the given word. -/
def ofWord? (text : String) : Option Direction :=
  [input, output, both].find? fun d => d.word == text

end Direction

/-- A value behind an equals sign, where there is one. -/
def assigned : Option String → String
  | some value => " = " ++ value
  | none => ""

/-- A parameter of a method. The default is the text of a literal. -/
structure Parameter where
  name : String
  typeName : String
  direction : Direction
  default? : Option String
deriving DecidableEq, Repr

/-- The parameter in a diagram. -/
def Parameter.render (p : Parameter) : String :=
  p.direction.word ++ " " ++ p.name ++ ": " ++ p.typeName ++ assigned p.default?

/-- A field or property of a class. The initial value is the text of its initializer. -/
structure Attribute where
  name : String
  typeName : String
  visibility : Visibility
  initial? : Option String
deriving DecidableEq, Repr

/-- The attribute in a diagram. -/
def Attribute.render (a : Attribute) : String :=
  a.visibility.symbol ++ " " ++ a.name ++ ": " ++ a.typeName ++ assigned a.initial?

/-- A method or constructor. There is no return type for `void` and for constructors. -/
structure Method where
  name : String
  returnType? : Option String
  visibility : Visibility
  parameters : List Parameter
deriving DecidableEq, Repr

/-- What tells overloads apart: the name and the types of the parameters in order. -/
structure Signature where
  name : String
  types : List String
deriving DecidableEq, Repr

namespace Method

/-- The signature of a method. -/
def signature (m : Method) : Signature := ⟨m.name, m.parameters.map (·.typeName)⟩

/-- The method in a diagram. -/
def render (m : Method) : String :=
  m.visibility.symbol ++ " " ++ m.name ++ "("
    ++ String.intercalate ", " (m.parameters.map Parameter.render) ++ ")"
    ++ match m.returnType? with
      | some typeName => ": " ++ typeName
      | none => ""

end Method

/-! ## Entities -/

/-- What identifies an entity: its namespace and its name. -/
structure EntityKey where
  scope : String
  name : String
deriving DecidableEq, Repr

/-- The qualified name. -/
def EntityKey.render (k : EntityKey) : String := k.scope ++ "." ++ k.name

/-- What an entity consists of: attributes and methods of a class, or values of an enum. -/
inductive EntityBody where
  | ofClass (attributes : List Attribute) (methods : List Method)
  | ofEnum (values : List String)
deriving DecidableEq, Repr

/-- A class or an enum. -/
structure Entity where
  key : EntityKey
  body : EntityBody
deriving DecidableEq, Repr

namespace Entity

/-- Whether the entity is a class. -/
def isClass (e : Entity) : Bool :=
  match e.body with
  | .ofClass _ _ => true
  | .ofEnum _ => false

/-- The attributes of a class; an enum has none. -/
def attributes (e : Entity) : List Attribute :=
  match e.body with
  | .ofClass attributes _ => attributes
  | .ofEnum _ => []

/-- The methods of a class; an enum has none. -/
def methods (e : Entity) : List Method :=
  match e.body with
  | .ofClass _ methods => methods
  | .ofEnum _ => []

/-- The values of an enum; a class has none. -/
def values (e : Entity) : List String :=
  match e.body with
  | .ofClass _ _ => []
  | .ofEnum values => values

end Entity

/-! ## Models -/

/-- Classes and enums in source order. -/
abbrev Model := List Entity

namespace Model

/-- The classes of a model. -/
def classes (m : Model) : Model := m.filter (·.isClass)

/-- The enums of a model. -/
def enums (m : Model) : Model := m.filter (!·.isClass)

/-- The first entity with the given key. -/
def find? (m : Model) (key : EntityKey) : Option Entity := List.find? (fun e => e.key == key) m

/-- The signatures of all methods, class by class. -/
def signatures (m : Model) : List Signature := m.flatMap fun e => e.methods.map Method.signature

end Model

end ClassChart
