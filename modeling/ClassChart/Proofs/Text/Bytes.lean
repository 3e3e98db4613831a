/-
# ClassChart.Proofs.Text.Bytes — byte offsets and the parts of a text

Positions are byte offsets, but texts are joined and taken apart as lists of characters. A front of a
text is determined by its byte count, and a span covers the same characters wherever the text around
it is cut or moved along with it.
-/
import ClassChart.Text.Span

namespace ClassChart

namespace Text

@[simp] theorem byteLength_nil : byteLength [] = 0 := rfl

@[simp] theorem byteLength_cons (c : Char) (text : List Char) :
    byteLength (c :: text) = c.utf8Size + byteLength text := rfl

@[simp] theorem byteLength_append (front back : List Char) :
    byteLength (front ++ back) = byteLength front + byteLength back := by
  induction front with
  | nil => simp
  | cons c front ih => simp [ih, Nat.add_assoc]

/-- The bytes of a text are those of the string it makes. -/
theorem byteLength_toList (s : String) : byteLength s.toList = s.utf8ByteSize := by
  have hbytes (text : List Char) : byteLength text = (String.ofList text).utf8ByteSize := by
    induction text with
    | nil => rfl
    | cons c text ih =>
        rw [byteLength_cons, ih, String.ofList_cons, String.utf8ByteSize_append,
          String.utf8ByteSize_singleton]
  rw [hbytes, String.ofList_toList]

theorem byteLength_pos {text : List Char} (h : text ≠ []) : 0 < byteLength text := by
  cases text with
  | nil => exact absurd rfl h
  | cons c text =>
      have hc := c.utf8Size_pos
      simp only [byteLength_cons]
      omega

/-- A text is cut at one place for each byte count. -/
theorem append_inj_of_byteLength {front front' back back' : List Char}
    (htext : front ++ back = front' ++ back') (hlen : byteLength front = byteLength front') :
    front = front' ∧ back = back' := by
  induction front generalizing front' with
  | nil =>
      cases front' with
      | nil => exact ⟨rfl, htext⟩
      | cons c front' =>
          have hpos := byteLength_pos (List.cons_ne_nil c front')
          simp only [byteLength_nil] at hlen
          omega
  | cons c front ih =>
      cases front' with
      | nil =>
          have hpos := byteLength_pos (List.cons_ne_nil c front)
          simp only [byteLength_nil] at hlen
          omega
      | cons c' front' =>
          obtain ⟨rfl, hrest⟩ := List.cons_eq_cons.mp htext
          simp only [byteLength_cons] at hlen
          obtain ⟨rfl, rfl⟩ := ih hrest (by omega)
          exact ⟨rfl, rfl⟩

/-! ## Dropping and taking -/

@[simp] theorem dropBytes_zero (text : List Char) : dropBytes 0 text = text := by
  cases text with
  | nil => rfl
  | cons c text =>
      have hc := c.utf8Size_pos
      rw [dropBytes, if_neg (by omega)]

theorem dropBytes_append (front back : List Char) (count : Nat) :
    dropBytes (byteLength front + count) (front ++ back) = dropBytes count back := by
  induction front with
  | nil => simp
  | cons c front ih =>
      simp only [byteLength_cons, List.cons_append, dropBytes]
      rw [if_pos (by omega), ← ih]
      congr 1
      omega

theorem takeBytes_append (front back : List Char) :
    takeBytes (byteLength front) (front ++ back) = front := by
  induction front with
  | nil =>
      cases back with
      | nil => rfl
      | cons c back =>
          have hc := c.utf8Size_pos
          simp only [List.nil_append, byteLength_nil, takeBytes]
          rw [if_neg (by omega)]
  | cons c front ih =>
      simp only [byteLength_cons, List.cons_append, takeBytes]
      rw [if_pos (by omega), Nat.add_sub_cancel_left, ih]

/-- Dropping within a front leaves the rest alone. -/
theorem dropBytes_front {front : List Char} {count : Nat} (hcount : count ≤ byteLength front)
    (back : List Char) : dropBytes count (front ++ back) = dropBytes count front ++ back := by
  induction front generalizing count with
  | nil =>
      obtain rfl : count = 0 := by simpa using hcount
      simp
  | cons c front ih =>
      simp only [List.cons_append, dropBytes]
      split
      · apply ih
        simp only [byteLength_cons] at hcount
        omega
      · rfl

/-- Taking within a front does not see the rest. -/
theorem takeBytes_front {front : List Char} {count : Nat} (hcount : count ≤ byteLength front)
    (back : List Char) : takeBytes count (front ++ back) = takeBytes count front := by
  induction front generalizing count with
  | nil =>
      obtain rfl : count = 0 := by simpa using hcount
      rw [takeBytes]
      exact takeBytes_append [] back
  | cons c front ih =>
      simp only [List.cons_append, takeBytes]
      split
      · rw [ih]
        simp only [byteLength_cons] at hcount
        omega
      · rfl

theorem le_byteLength_dropBytes (count : Nat) (text : List Char) :
    byteLength text ≤ count + byteLength (dropBytes count text) := by
  induction text generalizing count with
  | nil => simp
  | cons c text ih =>
      simp only [dropBytes]
      split
      · have hrest := ih (count - c.utf8Size)
        simp only [byteLength_cons]
        omega
      · omega

/-- The offset lies at one end of the text or between two characters. -/
def IsBoundary (text : List Char) (offset : Nat) : Prop :=
  ∃ front back, text = front ++ back ∧ byteLength front = offset

end Text

/-! ## Spans -/

namespace Span

open Text

/-- The span moved along with a text, from one offset of the text to another. -/
def move (base base' : Nat) (s : Span) : Span := ⟨s.start - base + base', s.stop - base + base'⟩

@[simp] theorem move_start (base base' : Nat) (s : Span) :
    (s.move base base').start = s.start - base + base' := rfl

@[simp] theorem move_stop (base base' : Nat) (s : Span) :
    (s.move base base').stop = s.stop - base + base' := rfl

theorem move_union (base base' : Nat) (s t : Span) :
    (s.union t).move base base' = (s.move base base').union (t.move base base') := by
  simp only [move, union, Span.mk.injEq]
  omega

/-- A span moved along with its text covers the same characters. -/
theorem slice_move {s : Span} {front : List Char} (hstart : byteLength front ≤ s.start)
    (front' back : List Char) :
    (s.move (byteLength front) (byteLength front')).slice (front' ++ back) =
      s.slice (front ++ back) := by
  have hdrop : dropBytes (s.start - byteLength front + byteLength front') (front' ++ back) =
      dropBytes s.start (front ++ back) := by
    rw [Nat.add_comm, dropBytes_append]
    conv => rhs; rw [← Nat.add_sub_of_le hstart, dropBytes_append]
  simp only [slice, length, move_start, move_stop, hdrop]
  congr 1
  omega

/-- What a span covers does not depend on what follows it. -/
theorem slice_front {s : Span} {front : List Char} (hstop : s.stop ≤ byteLength front)
    (hle : s.start ≤ s.stop) (back : List Char) : s.slice (front ++ back) = s.slice front := by
  have hdrop := le_byteLength_dropBytes s.start front
  simp only [slice, length]
  rw [dropBytes_front (by omega), takeBytes_front (by omega)]

/-- The span from the end of one part to the end of the next covers the part between. -/
theorem slice_between (front middle back : List Char) :
    (⟨byteLength front, byteLength front + byteLength middle⟩ : Span).slice
      (front ++ (middle ++ back)) = middle := by
  have hdrop := dropBytes_append front (middle ++ back) 0
  simp only [Nat.add_zero, dropBytes_zero] at hdrop
  simp only [slice, length, hdrop, Nat.add_sub_cancel_left]
  exact takeBytes_append middle back

/-- The span marks the part `x` of a text, with `rest` behind it: it begins and ends between characters,
and what it covers is that part. -/
def Marks (s : Span) (text x rest : List Char) : Prop :=
  ∃ front, text = front ++ (x ++ rest) ∧ s = ⟨byteLength front, byteLength front + byteLength x⟩

section Marks

variable {s : Span} {text x rest : List Char}

theorem Marks.slice_eq (h : s.Marks text x rest) : s.slice text = x := by
  obtain ⟨front, rfl, rfl⟩ := h
  exact slice_between front x rest

theorem Marks.isBoundary_start (h : s.Marks text x rest) : IsBoundary text s.start := by
  obtain ⟨front, rfl, rfl⟩ := h
  exact ⟨front, x ++ rest, rfl, rfl⟩

theorem Marks.isBoundary_stop (h : s.Marks text x rest) : IsBoundary text s.stop := by
  obtain ⟨front, rfl, rfl⟩ := h
  refine ⟨front ++ x, rest, by rw [List.append_assoc], ?_⟩
  exact byteLength_append front x

theorem Marks.start_le (h : s.Marks text x rest) : s.start ≤ s.stop := by
  obtain ⟨front, rfl, rfl⟩ := h
  show byteLength front ≤ byteLength front + byteLength x
  omega

theorem Marks.start_lt (h : s.Marks text x rest) (hx : x ≠ []) : s.start < s.stop := by
  obtain ⟨front, rfl, rfl⟩ := h
  have hpos := byteLength_pos hx
  show byteLength front < byteLength front + byteLength x
  omega

end Marks

end Span

end ClassChart
