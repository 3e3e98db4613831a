/-
# ClassChart.Model.Json — models as structured values

`Model.toJson` writes the fields of each record in a fixed order, and `Model.ofJson?` reads them in any
order. A text that may be missing is written as `null` and may be left out; every other field is
required. Keys that are no fields do not matter. A word such as `public` may also be written as the only
key of an object, with `null` or an empty object.
-/
import ClassChart.Json
import ClassChart.Model

namespace ClassChart

/-! ## Writing -/

/-- A parameter as a value. -/
def Parameter.toJson (p : Parameter) : Json :=
  .object [("name", .string p.name), ("type_name", .string p.typeName),
    ("direction", .string p.direction.word), ("default", .ofString? p.default?)]

/-- An attribute as a value. -/
def Attribute.toJson (a : Attribute) : Json :=
  .object [("name", .string a.name), ("type_name", .string a.typeName),
    ("visibility", .string a.visibility.word), ("initial_value", .ofString? a.initial?)]

/-- A method as a value. -/
def Method.toJson (m : Method) : Json :=
  .object [("name", .string m.name), ("return_type", .ofString? m.returnType?),
    ("visibility", .string m.visibility.word), ("parameters", .array (m.parameters.map Parameter.toJson))]

/-- An entity as a value, with its kind as a tag in front. -/
def Entity.toJson (e : Entity) : Json :=
  match e.body with
  | .ofClass attributes methods =>
    .object [("kind", .string "class"), ("namespace", .string e.key.scope),
      ("name", .string e.key.name), ("attributes", .array (attributes.map Attribute.toJson)),
      ("methods", .array (methods.map Method.toJson))]
  | .ofEnum values =>
    .object [("kind", .string "enum"), ("namespace", .string e.key.scope),
      ("name", .string e.key.name), ("values", .array (values.map .string))]

/-- A model as a value. -/
def Model.toJson (m : Model) : Json := .array (m.map Entity.toJson)

/-! ## Reading -/

/-- Reads a list. -/
def Json.list? (read : Json → Option α) (value : Json) : Option (List α) :=
  value.elements? >>= List.mapM read

/-- Reads one of several words. -/
def Json.choice? (read : String → Option α) (value : Json) : Option α :=
  value.name? Json.isVoid >>= read

/-- Reads a parameter. -/
def Parameter.ofJson? (value : Json) : Option Parameter := do
  match ← value.record? ["name", "type_name", "direction", "default"] 4 with
  | [some name, some typeName, some direction, default?] =>
    pure ⟨← name.string?, ← typeName.string?, ← direction.choice? Direction.ofWord?,
      ← Json.optional? Json.string? default?⟩
  | _ => none

/-- Reads an attribute. -/
def Attribute.ofJson? (value : Json) : Option Attribute := do
  match ← value.record? ["name", "type_name", "visibility", "initial_value"] 4 with
  | [some name, some typeName, some visibility, initial?] =>
    pure ⟨← name.string?, ← typeName.string?, ← visibility.choice? Visibility.ofWord?,
      ← Json.optional? Json.string? initial?⟩
  | _ => none

/-- Reads a method. -/
def Method.ofJson? (value : Json) : Option Method := do
  match ← value.record? ["name", "return_type", "visibility", "parameters"] 4 with
  | [some name, returnType?, some visibility, some parameters] =>
    pure ⟨← name.string?, ← Json.optional? Json.string? returnType?,
      ← visibility.choice? Visibility.ofWord?, ← parameters.list? Parameter.ofJson?⟩
  | _ => none

/-- Splits the kind off an entity: a key of an object, or the first element of an array. -/
def Json.tagged? : Json → Option (Json × Json)
  | .object members => do
    match ← Json.member? members "kind" with
    | some kind => some (kind, .object (members.filter fun m => m.1 != "kind"))
    | none => none
  | .array (kind :: elements) => some (kind, .array elements)
  | _ => none

/-- Reads a class without its kind. -/
def Entity.classOfJson? (value : Json) : Option Entity := do
  match ← value.record? ["namespace", "name", "attributes", "methods"] 4 with
  | [some scope, some name, some attributes, some methods] =>
    pure ⟨⟨← scope.string?, ← name.string?⟩,
      .ofClass (← attributes.list? Attribute.ofJson?) (← methods.list? Method.ofJson?)⟩
  | _ => none

/-- Reads an enum without its kind. -/
def Entity.enumOfJson? (value : Json) : Option Entity := do
  match ← value.record? ["namespace", "name", "values"] 3 with
  | [some scope, some name, some values] =>
    pure ⟨⟨← scope.string?, ← name.string?⟩, .ofEnum (← values.list? Json.string?)⟩
  | _ => none

/-- Reads an entity. -/
def Entity.ofJson? (value : Json) : Option Entity := do
  let (kind, fields) ← value.tagged?
  match kind with
  | .string "class" => classOfJson? fields
  | .string "enum" => enumOfJson? fields
  | _ => none

/-- Reads a model. -/
def Model.ofJson? (value : Json) : Option Model := value.list? Entity.ofJson?

end ClassChart
