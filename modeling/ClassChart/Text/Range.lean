/-
# ClassChart.Text.Range — sets of characters given by ranges of code points

The tables of character properties are lists of ranges; this is how they are read.
-/
namespace ClassChart.Text

/-- A range of code points, both ends included. -/
abbrev CodeRange := Nat × Nat

/-- Whether a code point lies in the range. -/
def CodeRange.holds (r : CodeRange) (code : Nat) : Bool := r.1 ≤ code && code ≤ r.2

/-- Whether the character lies in one of the ranges. -/
def inRanges (ranges : List CodeRange) (c : Char) : Bool := ranges.any fun r => r.holds c.toNat

/-- Whether `c` is a control character: the general category Cc. -/
def isControl (c : Char) : Bool := inRanges [(0x00, 0x1F), (0x7F, 0x9F)] c

end ClassChart.Text
