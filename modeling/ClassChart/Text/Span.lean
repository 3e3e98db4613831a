/-
# ClassChart.Text.Span — byte ranges of a source text and their line and column

Positions in a source are byte offsets of its UTF-8 encoding. A `Span` is a half-open range of
offsets; a `Location` is the line and column a reader sees. Only a line feed ends a line, and columns
count characters. A text can only be cut at its ends and between two characters, so the steps that cut
one, or go back in one, can fail; a span is located by such steps in turn, none of which fails.
-/
namespace ClassChart

/-! ## Byte counts -/

namespace Text

/-- The number of bytes that the characters take in UTF-8. -/
def byteLength : List Char → Nat
  | [] => 0
  | c :: cs => c.utf8Size + byteLength cs

/-- What is left of a text after its first `count` bytes. A character that the count only reaches
into is kept. -/
def dropBytes : Nat → List Char → List Char
  | _, [] => []
  | count, c :: cs => if c.utf8Size ≤ count then dropBytes (count - c.utf8Size) cs else c :: cs

/-- The characters that lie within the first `count` bytes of a text. -/
def takeBytes : Nat → List Char → List Char
  | _, [] => []
  | count, c :: cs => if c.utf8Size ≤ count then c :: takeBytes (count - c.utf8Size) cs else []

/-! ## Cuts -/

/-- Whether the offset is one of either end of the text or lies between two of its characters. -/
def isBoundary (offset : Nat) : List Char → Bool
  | [] => offset == 0
  | c :: cs => offset == 0 || (decide (c.utf8Size ≤ offset) && isBoundary (offset - c.utf8Size) cs)

@[simp] theorem isBoundary_zero (text : List Char) : isBoundary 0 text = true := by
  cases text <;> simp [isBoundary]

/-- The text before an offset, unless the offset lies within a character or behind the end. -/
def before? (text : List Char) (offset : Nat) : Option (List Char) :=
  if isBoundary offset text then some (takeBytes offset text) else none

/-- The text from an offset on, unless the offset lies within a character or behind the end. -/
def from? (text : List Char) (offset : Nat) : Option (List Char) :=
  if isBoundary offset text then some (dropBytes offset text) else none

/-- Goes back byte by byte from an offset to the first one at which the text can be cut. There is
nothing to go back to from the start. -/
def floor? (text : List Char) : Nat → Option Nat
  | 0 => if isBoundary 0 text then some 0 else none
  | offset + 1 => if isBoundary (offset + 1) text then some (offset + 1) else floor? text offset

theorem exists_floor? (text : List Char) (offset : Nat) :
    ∃ place, floor? text offset = some place ∧ isBoundary place text = true := by
  induction offset with
  | zero => exact ⟨0, by simp [floor?], isBoundary_zero text⟩
  | succ offset ih =>
      rw [floor?]
      by_cases h : isBoundary (offset + 1) text = true
      · exact ⟨offset + 1, if_pos h, h⟩
      · rwa [if_neg h]

/-- The offset of the last line feed. -/
def lastFeed? : List Char → Option Nat
  | [] => none
  | c :: cs =>
    match lastFeed? cs with
    | some index => some (c.utf8Size + index)
    | none => if c = '\n' then some 0 else none

/-- Where the last line of a text begins: behind its last line feed, or at its start. -/
def lineStart (text : List Char) : Nat :=
  match lastFeed? text with
  | some index => index + 1
  | none => 0

/-- A line feed takes one byte, so the text can be cut behind it. -/
theorem isBoundary_lineStart (text : List Char) : isBoundary (lineStart text) text = true := by
  induction text with
  | nil => rfl
  | cons c text ih =>
      unfold lineStart at *
      rw [lastFeed?]
      cases hfeed : lastFeed? text with
      | some index =>
          rw [hfeed] at ih
          have hrest : c.utf8Size + index + 1 - c.utf8Size = index + 1 := by omega
          simp only [isBoundary, hrest, ih, Bool.and_true, Bool.or_eq_true, decide_eq_true_eq]
          exact Or.inr (by omega)
      | none =>
          by_cases hc : c = '\n'
          · subst hc
            have hsize : '\n'.utf8Size = 1 := by decide
            simp [isBoundary, hsize]
          · simp [hc]

end Text

/-! ## Spans -/

/-- A half-open range of byte offsets. -/
structure Span where
  start : Nat
  stop : Nat
deriving DecidableEq, Repr, Inhabited

namespace Span

/-- The number of bytes covered. -/
def length (s : Span) : Nat := s.stop - s.start

/-- Whether the span covers nothing. -/
def isEmpty (s : Span) : Bool := s.start == s.stop

/-- The smallest span that covers both. -/
def union (s t : Span) : Span := ⟨min s.start t.start, max s.stop t.stop⟩

/-- The span of a node without children. -/
def empty : Span := ⟨0, 0⟩

/-- The part of a source text that the span covers. -/
def slice (s : Span) (source : List Char) : List Char :=
  Text.takeBytes s.length (Text.dropBytes s.start source)

end Span

/-! ## Lines and columns -/

/-- A line and a column, both counted from 1. -/
structure Location where
  line : Nat
  column : Nat
deriving DecidableEq, Repr, Inhabited

namespace Location

/-- The position as `line:column`. -/
def render (l : Location) : String := toString l.line ++ ":" ++ toString l.column

end Location

namespace Span

/-- Finds the line and column where the span starts: goes back from the start, or from the end of the text
if the span starts behind it, to where the text can be cut, counts the line feeds before, and counts the
characters behind the last of these. -/
def locate? (s : Span) (source : List Char) : Option Location := do
  let offset ← Text.floor? source (min s.start (Text.byteLength source))
  let before ← Text.before? source offset
  let line ← Text.from? before (Text.lineStart before)
  some ⟨before.count '\n' + 1, line.length + 1⟩

theorem locate?_isSome (s : Span) (source : List Char) : (s.locate? source).isSome := by
  obtain ⟨offset, hfloor, hoffset⟩ := Text.exists_floor? source (min s.start (Text.byteLength source))
  simp [locate?, hfloor, Text.before?, hoffset, Text.from?, Text.isBoundary_lineStart]

/-- The line and column where the span starts. An offset inside a character stands for the start of
that character, an offset past the end for the end of the text. -/
def location (s : Span) (source : List Char) : Location :=
  (s.locate? source).get (s.locate?_isSome source)

end Span

end ClassChart
