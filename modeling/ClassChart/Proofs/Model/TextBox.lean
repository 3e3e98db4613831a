/-
# ClassChart.Proofs.Model.TextBox — boxes are aligned

A drawing of a box is described here by what is seen of it: lines of one length, a border above and below
every part, header rows in the middle and member rows at the left, one blank line for a part without rows.
The description gives fills as numbers that add up to the width, where drawing finds them by subtraction.
The two agree because no row is longer than the width, and that holds because the width is taken over
exactly the rows that are drawn.
-/
import ClassChart.Model.TextBox
import Mathlib.Data.List.Forall2
import Mathlib.Order.Bounds.Defs

namespace ClassChart

namespace TextBox

/-! ## What a drawing is -/

/-- The rows of the box of an entity. -/
inductive IsBoxOf : Entity → TextBox → Prop where
  | ofClass {key : EntityKey} {attributes : List Attribute} {methods : List Method} :
      IsBoxOf ⟨key, .ofClass attributes methods⟩
        ⟨[key.render], [attributes.map Attribute.render, methods.map Method.render]⟩
  | ofEnum {key : EntityKey} {values : List String} :
      IsBoxOf ⟨key, .ofEnum values⟩ ⟨["<<enumeration>>", key.render], [values]⟩

/-- All rows of a box, those of the header first. -/
def rows (b : TextBox) : List String := b.header ++ b.compartments.flatten

/-- The line shows the row as it is between two bars, with the given numbers of blanks beside it. -/
def Shows (left right : Nat) (row line : String) : Prop :=
  line = "|" ++ blanks left ++ row ++ blanks right ++ "|"

/-- The line shows the row in the middle. An odd blank stands at the right. -/
def IsHeaderLine (width padding : Nat) (row line : String) : Prop :=
  ∃ left right, left + row.length + right = width ∧ (right = left ∨ right = left + 1) ∧
    Shows (padding + left) (right + padding) row line

/-- The line shows the row at the left. -/
def IsMemberLine (width padding : Nat) (row line : String) : Prop :=
  ∃ fill, row.length + fill = width ∧ Shows padding (fill + padding) row line

/-- The lines of a compartment: one for each row in order, or a blank one if there is none. -/
inductive IsCompartment (width padding : Nat) : List String → List String → Prop where
  | empty : IsCompartment width padding [] ["|" ++ blanks (padding + width + padding) ++ "|"]
  | rows {rows lines : List String} (nonempty : rows ≠ [])
      (shown : List.Forall₂ (IsMemberLine width padding) rows lines) :
      IsCompartment width padding rows lines

/-- The lines of a box, before each is ended. -/
structure IsDrawing (b : TextBox) (padding width : Nat) (lines : List String) : Prop where
  widest : IsGreatest {n | ∃ row ∈ b.rows, row.length = n} width
  aligned : ∀ line ∈ lines, line.length = width + 2 * padding + 2
  parts : ∃ header compartments,
    List.Forall₂ (IsHeaderLine width padding) b.header header ∧
    List.Forall₂ (IsCompartment width padding) b.compartments compartments ∧
    lines = border width padding :: header ++ [border width padding] ++
      compartments.flatMap (· ++ [border width padding])

/-! ## Width -/

/-- The longest row so far, when rows are passed one by one. -/
theorem le_foldl_max (rows : List String) (most : Nat) :
    most ≤ rows.foldl (fun most row => max most row.length) most ∧
      ∀ row ∈ rows, row.length ≤ rows.foldl (fun most row => max most row.length) most := by
  induction rows generalizing most with
  | nil => exact ⟨Nat.le_refl _, nofun⟩
  | cons row rows ih =>
      obtain ⟨hmost, hrows⟩ := ih (max most row.length)
      rw [List.foldl_cons]
      refine ⟨by omega, fun other hother => ?_⟩
      rcases List.mem_cons.mp hother with rfl | hother
      · omega
      · exact hrows other hother

theorem foldl_max_eq (rows : List String) (most : Nat) :
    rows.foldl (fun most row => max most row.length) most = most ∨
      ∃ row ∈ rows, row.length = rows.foldl (fun most row => max most row.length) most := by
  induction rows generalizing most with
  | nil => exact .inl rfl
  | cons row rows ih =>
      rw [List.foldl_cons]
      rcases ih (max most row.length) with hmost | ⟨other, hother, hlength⟩
      · rw [hmost]
        rcases Nat.le_total row.length most with hle | hle
        · exact .inl (Nat.max_eq_left hle)
        · exact .inr ⟨row, List.mem_cons_self, (Nat.max_eq_right hle).symm⟩
      · exact .inr ⟨other, List.mem_cons_of_mem row hother, hlength⟩

theorem length_le_width {b : TextBox} {row : String} (h : row ∈ b.rows) : row.length ≤ b.width :=
  (le_foldl_max b.rows 0).2 row h

/-- The width of a box with a header is the length of one of its rows, and none is longer. -/
theorem width_isGreatest {b : TextBox} (h : b.header ≠ []) :
    IsGreatest {n | ∃ row ∈ b.rows, row.length = n} b.width := by
  constructor
  · rcases foldl_max_eq b.rows 0 with hzero | hrow
    · -- No row has a character, and there is one.
      obtain ⟨row, hrow⟩ := List.exists_mem_of_ne_nil b.header h
      have hmem : row ∈ b.rows := List.mem_append_left _ hrow
      have hle := length_le_width hmem
      have hwidth : b.width = 0 := hzero
      exact ⟨row, hmem, by omega⟩
    · exact hrow
  · rintro _ ⟨row, hrow, rfl⟩
    exact length_le_width hrow

/-! ## Lines -/

@[simp] theorem length_blanks (count : Nat) : (blanks count).length = count := by
  rw [blanks, String.length_ofList, List.length_replicate]

theorem blanks_add (m n : Nat) : blanks (m + n) = blanks m ++ blanks n := by
  rw [blanks, blanks, blanks, ← String.ofList_append, List.replicate_append_replicate]

@[simp] theorem length_border (width padding : Nat) :
    (border width padding).length = width + 2 * padding + 2 := by
  simp only [border, String.length_append, String.length_ofList, List.length_replicate]
  have hplus : "+".length = 1 := rfl
  omega

theorem Shows.length_eq {left right : Nat} {row line : String} (h : Shows left right row line) :
    line.length = left + row.length + right + 2 := by
  subst h
  simp only [String.length_append, length_blanks]
  have hbar : "|".length = 1 := rfl
  omega

theorem shows_line (padding left right : Nat) (row : String) :
    Shows (padding + left) (right + padding) row (line padding left right row) := by
  simp only [Shows, line, blanks_add, String.append_assoc]

section Lines

variable {width padding : Nat} {row shown : String}

theorem isHeaderLine_headerLine (h : row.length ≤ width) :
    IsHeaderLine width padding row (headerLine width padding row) := by
  refine ⟨(width - row.length) / 2, width - row.length - (width - row.length) / 2, ?_, ?_, ?_⟩
  · omega
  · omega
  · exact shows_line padding _ _ row

theorem isMemberLine_memberLine (h : row.length ≤ width) :
    IsMemberLine width padding row (memberLine width padding row) :=
  ⟨width - row.length, by omega, shows_line padding 0 _ row⟩

theorem memberLine_empty (width padding : Nat) :
    memberLine width padding "" = "|" ++ blanks (padding + width + padding) ++ "|" := by
  have hzero : blanks 0 = "" := rfl
  have hempty : "".length = 0 := rfl
  simp only [memberLine, line, hempty, Nat.sub_zero, hzero, String.append_empty, blanks_add,
    String.append_assoc]

theorem IsHeaderLine.length_eq (h : IsHeaderLine width padding row shown) :
    shown.length = width + 2 * padding + 2 := by
  obtain ⟨left, right, hwidth, _, hshows⟩ := h
  rw [hshows.length_eq]
  omega

theorem IsMemberLine.length_eq (h : IsMemberLine width padding row shown) :
    shown.length = width + 2 * padding + 2 := by
  obtain ⟨fill, hwidth, hshows⟩ := h
  rw [hshows.length_eq]
  omega

end Lines

/-! ## Boxes -/

/-- The lines of a compartment without the border below it. -/
def bodyLines (width padding : Nat) (rows : List String) : List String :=
  if rows.isEmpty then [memberLine width padding ""] else rows.map (memberLine width padding)

theorem isCompartment_bodyLines {width padding : Nat} {rows : List String}
    (h : ∀ row ∈ rows, row.length ≤ width) :
    IsCompartment width padding rows (bodyLines width padding rows) := by
  cases rows with
  | nil =>
      rw [bodyLines, List.isEmpty_nil, if_pos rfl, memberLine_empty]
      exact .empty
  | cons row rows =>
      rw [bodyLines, List.isEmpty_cons, if_neg Bool.false_ne_true]
      refine .rows (List.cons_ne_nil row rows) ?_
      exact List.forall₂_map_right_iff.mpr
        (List.forall₂_same.mpr fun other hother => isMemberLine_memberLine (h other hother))

theorem length_of_mem_bodyLines {width padding : Nat} {rows : List String} {line : String}
    (h : ∀ row ∈ rows, row.length ≤ width) (hline : line ∈ bodyLines width padding rows) :
    line.length = width + 2 * padding + 2 := by
  unfold bodyLines at hline
  split at hline
  · obtain rfl := List.mem_singleton.mp hline
    exact (isMemberLine_memberLine (Nat.zero_le width)).length_eq
  · obtain ⟨row, hrow, rfl⟩ := List.mem_map.mp hline
    exact (isMemberLine_memberLine (h row hrow)).length_eq

theorem lines_eq (b : TextBox) (padding : Nat) :
    b.lines padding = border b.width padding :: b.header.map (headerLine b.width padding) ++
      [border b.width padding] ++
      (b.compartments.map (bodyLines b.width padding)).flatMap (· ++ [border b.width padding]) := by
  rw [List.flatMap_map]
  rfl

theorem header_le_width {b : TextBox} : ∀ row ∈ b.header, row.length ≤ b.width :=
  fun _ hrow => length_le_width (List.mem_append_left _ hrow)

theorem compartment_le_width {b : TextBox} {part : List String} (h : part ∈ b.compartments) :
    ∀ row ∈ part, row.length ≤ b.width :=
  fun _ hrow => length_le_width (List.mem_append_right _ (List.mem_flatten.mpr ⟨part, h, hrow⟩))

/-- Every line is as long as the border. -/
theorem length_of_mem_lines {b : TextBox} {padding : Nat} {line : String} (h : line ∈ b.lines padding) :
    line.length = b.width + 2 * padding + 2 := by
  rw [lines_eq] at h
  simp only [List.cons_append, List.mem_cons, List.mem_append, List.mem_map, List.mem_flatMap,
    List.not_mem_nil, or_false] at h
  rcases h with rfl | (⟨row, hrow, rfl⟩ | rfl) | ⟨_, ⟨part, hpart, rfl⟩, hline | rfl⟩
  · exact length_border _ _
  · exact (isHeaderLine_headerLine (header_le_width row hrow)).length_eq
  · exact length_border _ _
  · exact length_of_mem_bodyLines (compartment_le_width hpart) hline
  · exact length_border _ _

/-- The lines of a box with a header are a drawing of it. -/
theorem isDrawing_lines {b : TextBox} (h : b.header ≠ []) (padding : Nat) :
    b.IsDrawing padding b.width (b.lines padding) := by
  have hheader : List.Forall₂ (IsHeaderLine b.width padding) b.header
      (b.header.map (headerLine b.width padding)) := by
    refine List.forall₂_map_right_iff.mpr (List.forall₂_same.mpr fun row hrow => ?_)
    exact isHeaderLine_headerLine (header_le_width row hrow)
  have hcompartments : List.Forall₂ (IsCompartment b.width padding) b.compartments
      (b.compartments.map (bodyLines b.width padding)) := by
    refine List.forall₂_map_right_iff.mpr (List.forall₂_same.mpr fun part hpart => ?_)
    exact isCompartment_bodyLines (compartment_le_width hpart)
  exact ⟨width_isGreatest h, fun line => length_of_mem_lines, _, _, hheader, hcompartments,
    lines_eq b padding⟩

theorem isBoxOf_ofEntity (e : Entity) : IsBoxOf e (ofEntity e) := by
  obtain ⟨key, body⟩ := e
  cases body with
  | ofClass attributes methods => exact .ofClass
  | ofEnum values => exact .ofEnum

theorem IsBoxOf.header_ne_nil {e : Entity} {b : TextBox} (h : IsBoxOf e b) : b.header ≠ [] := by
  cases h <;> exact List.cons_ne_nil _ _

end TextBox

/-! ## Models -/

open TextBox

/-- The text of boxes, given by their lines: every line is ended, and between two boxes stands one more line
feed. -/
inductive Stacked : List (List String) → String → Prop where
  | none : Stacked [] ""
  | last {lines : List String} : Stacked [lines] (String.join (lines.map (· ++ "\n")))
  | next {lines : List String} {more : List (List String)} {text : String} (nonempty : more ≠ [])
      (below : Stacked more text) :
      Stacked (lines :: more) (String.join (lines.map (· ++ "\n")) ++ "\n" ++ text)

theorem stacked_renderText (m : Model) (padding : Nat) :
    Stacked (m.map fun e => (ofEntity e).lines padding) (m.renderText padding) := by
  unfold Model.renderText
  induction m with
  | nil => exact .none
  | cons e m ih =>
      cases m with
      | nil =>
          rw [List.map_singleton, List.map_singleton, String.intercalate_singleton]
          exact .last
      | cons f m =>
          simp only [List.map_cons] at ih ⊢
          rw [String.intercalate_cons_cons]
          exact .next (List.cons_ne_nil _ _) ih

/-- Every model is drawn as one box for each of its entities, in order, with an empty line between two of
them. All lines of a box have the same length: that of its longest row, with the padding on both sides and
a bar at each end. Header rows stand in the middle, with as many blanks on the right as on the left or one
more; member rows stand unchanged and in order at the left; a compartment without members is one blank
line. The box of a class has a header row and two compartments, that of an enum two header rows and one
compartment. -/
theorem renderText_aligned (m : Model) (padding : Nat) :
    ∃ drawings,
      List.Forall₂ (fun e lines => ∃ b width, IsBoxOf e b ∧ b.IsDrawing padding width lines) m drawings ∧
      Stacked drawings (m.renderText padding) := by
  refine ⟨m.map fun e => (ofEntity e).lines padding, ?_, stacked_renderText m padding⟩
  refine List.forall₂_map_right_iff.mpr (List.forall₂_same.mpr fun e _ => ?_)
  have hbox := isBoxOf_ofEntity e
  exact ⟨ofEntity e, _, hbox, isDrawing_lines hbox.header_ne_nil padding⟩

example :
    Model.renderText
      [⟨⟨"App", "Foo"⟩, .ofClass [⟨"x", "int", .isPrivate, none⟩] [⟨"Né", some "string", .isPublic, []⟩]⟩,
        ⟨⟨"App", "E"⟩, .ofEnum []⟩] 1 =
      "+----------------+\n" ++
      "|    App.Foo     |\n" ++
      "+----------------+\n" ++
      "| - x: int       |\n" ++
      "+----------------+\n" ++
      "| + Né(): string |\n" ++
      "+----------------+\n" ++
      "\n" ++
      "+-----------------+\n" ++
      "| <<enumeration>> |\n" ++
      "|      App.E      |\n" ++
      "+-----------------+\n" ++
      "|                 |\n" ++
      "+-----------------+\n" := by
  decide +kernel

end ClassChart
