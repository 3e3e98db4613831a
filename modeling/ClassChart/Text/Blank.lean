/-
# ClassChart.Text.Blank — the Unicode property White_Space

The 25 characters that separate words and that trimming removes: the controls from tab to carriage
return, the space, next line, the no-break space, the typographic spaces and the two separators.
-/
import ClassChart.Text.Range

namespace ClassChart.Text

/-- The ranges of White_Space. -/
def blankRanges : List CodeRange := [
  (0x0009, 0x000D), (0x0020, 0x0020), (0x0085, 0x0085), (0x00A0, 0x00A0), (0x1680, 0x1680),
  (0x2000, 0x200A), (0x2028, 0x2029), (0x202F, 0x202F), (0x205F, 0x205F), (0x3000, 0x3000)]

/-- Whether `c` has the property White_Space. -/
def isBlank (c : Char) : Bool := inRanges blankRanges c

/-- Removes the blanks at both ends of a text. -/
def trimBlanks (text : List Char) : List Char :=
  ((text.dropWhile isBlank).reverse.dropWhile isBlank).reverse

end ClassChart.Text
