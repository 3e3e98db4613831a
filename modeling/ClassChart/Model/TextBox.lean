/-
# ClassChart.Model.TextBox — models as boxes of text

Each entity is drawn as a box: centred header rows, then compartments of rows that begin at the left.

```text
+------------------+
|     App.Foo      |
+------------------+
| - x: int         |
+------------------+
| + Name(): string |
+------------------+
```

A box is as wide as its longest row, counted in characters; a compartment without rows is drawn as one
blank row. Boxes are separated by an empty line.
-/
import ClassChart.Model

namespace ClassChart

/-- The rows of a box before they are laid out. -/
structure TextBox where
  header : List String
  compartments : List (List String)
deriving DecidableEq, Repr

/-- A run of blanks. -/
def blanks (count : Nat) : String := String.ofList (List.replicate count ' ')

namespace TextBox

/-- The box of an entity. -/
def ofEntity (e : Entity) : TextBox :=
  match e.body with
  | .ofClass attributes methods =>
    ⟨[e.key.render], [attributes.map Attribute.render, methods.map Method.render]⟩
  | .ofEnum values => ⟨["<<enumeration>>", e.key.render], [values]⟩

/-- The length of the longest row. -/
def width (b : TextBox) : Nat :=
  (b.header ++ b.compartments.flatten).foldl (fun most row => max most row.length) 0

/-- A border line for the given width. -/
def border (width padding : Nat) : String :=
  "+" ++ String.ofList (List.replicate (width + 2 * padding) '-') ++ "+"

/-- A row with the given fill before and after its text. -/
def line (padding left right : Nat) (row : String) : String :=
  "|" ++ blanks padding ++ blanks left ++ row ++ blanks right ++ blanks padding ++ "|"

/-- A header row, centred; an odd blank goes to the right. -/
def headerLine (width padding : Nat) (row : String) : String :=
  let fill := width - row.length
  line padding (fill / 2) (fill - fill / 2) row

/-- A row of a compartment. -/
def memberLine (width padding : Nat) (row : String) : String :=
  line padding 0 (width - row.length) row

/-- The lines of a compartment, with the border below it. -/
def compartmentLines (width padding : Nat) (rows : List String) : List String :=
  (if rows.isEmpty then [memberLine width padding ""] else rows.map (memberLine width padding))
    ++ [border width padding]

/-- The lines of a box. -/
def lines (b : TextBox) (padding : Nat) : List String :=
  border b.width padding :: b.header.map (headerLine b.width padding) ++ [border b.width padding]
    ++ b.compartments.flatMap (compartmentLines b.width padding)

/-- The text of a box, each line ended. -/
def render (b : TextBox) (padding : Nat) : String :=
  String.join ((b.lines padding).map (· ++ "\n"))

end TextBox

/-- The boxes of a model in order, an empty line between them. -/
def Model.renderText (m : Model) (padding : Nat) : String :=
  String.intercalate "\n" (m.map fun e => (TextBox.ofEntity e).render padding)

end ClassChart
