/-
# ClassChart.Proofs.Text.Location — lines and columns as coordinates

A span is located by going back to where the text can be cut, by two cuts, and by counting. Here the
steps are followed one by one: going back ends at the place that the offset belongs to, so both cuts can
be made, and they leave the characters before the place and the last line of these. What is counted then
is what a walk over the characters comes to. A walk splits where the text is split, and each character
moves the position on, so later places have later positions; and since a line feed is all that a line ends
with, the way back from a position to its place is to skip as many line feeds and then as many characters.
-/
import ClassChart.Proofs.Text.Bytes
import Mathlib.Data.List.DropRight
import Mathlib.Data.List.Induction
import Mathlib.Logic.Function.Iterate

namespace ClassChart

open Text

/-! ## The place of an offset -/

namespace Text

/-- The offset belongs to the place between two parts of a text: it lies there, or within the character
that follows, or behind the end. -/
structure FallsOn (offset : Nat) (front back : List Char) : Prop where
  reached : byteLength front ≤ offset
  next : ∀ c ∈ back.head?, offset < byteLength front + c.utf8Size

theorem fallsOn_boundary (front back : List Char) : FallsOn (byteLength front) front back := by
  refine ⟨Nat.le_refl _, fun c _ => ?_⟩
  have hc := c.utf8Size_pos
  omega

theorem fallsOn_end {offset : Nat} {text : List Char} (h : byteLength text ≤ offset) :
    FallsOn offset text [] :=
  ⟨h, nofun⟩

/-- Every offset belongs to some place of every text. -/
theorem exists_fallsOn (offset : Nat) (text : List Char) :
    ∃ front back, text = front ++ back ∧ FallsOn offset front back := by
  induction text generalizing offset with
  | nil => exact ⟨[], [], rfl, fallsOn_end (Nat.zero_le _)⟩
  | cons c text ih =>
      by_cases hc : c.utf8Size ≤ offset
      · obtain ⟨front, back, rfl, hreached, hnext⟩ := ih (offset - c.utf8Size)
        refine ⟨c :: front, back, rfl, ?_, fun d hd => ?_⟩
        · rw [byteLength_cons]
          omega
        · have hd := hnext d hd
          rw [byteLength_cons]
          omega
      · refine ⟨[], c :: text, rfl, Nat.zero_le _, ?_⟩
        rintro _ ⟨⟩
        rw [byteLength_nil]
        omega

/-- An offset past the end belongs to the same place as the end. -/
theorem FallsOn.min_length {offset : Nat} {front back : List Char} (h : FallsOn offset front back) :
    FallsOn (min offset (byteLength (front ++ back))) front back where
  reached := by
    have hreached := h.reached
    rw [byteLength_append]
    omega
  next := fun c hc => Nat.lt_of_le_of_lt (Nat.min_le_left _ _) (h.next c hc)

/-! ## Cuts -/

theorem isBoundary_append (offset : Nat) (front back : List Char) :
    isBoundary (byteLength front + offset) (front ++ back) = isBoundary offset back := by
  induction front with
  | nil => simp
  | cons c front ih =>
      have hc := c.utf8Size_pos
      have hrest : c.utf8Size + byteLength front + offset - c.utf8Size = byteLength front + offset := by
        omega
      rw [List.cons_append, isBoundary, byteLength_cons, hrest, ih]
      simp only [Nat.add_assoc, Nat.le_add_right, decide_true, Bool.true_and, Bool.or_eq_right_iff_imp,
        beq_iff_eq]
      omega

/-- Going back ends at the place that the offset belongs to. -/
theorem floor?_eq {offset : Nat} {front back : List Char} (h : FallsOn offset front back)
    (hle : offset ≤ byteLength (front ++ back)) :
    floor? (front ++ back) offset = some (byteLength front) := by
  have hplace := isBoundary_append 0 front back
  rw [Nat.add_zero, isBoundary_zero] at hplace
  induction offset with
  | zero =>
      have hzero : byteLength front = 0 := Nat.le_zero.mp h.reached
      simp [floor?, hzero]
  | succ offset ih =>
      rw [floor?]
      rcases Nat.eq_or_lt_of_le h.reached with heq | hlt
      · rw [← heq, if_pos hplace]
      · have hback : isBoundary (offset + 1) (front ++ back) = false := by
          obtain ⟨more, hmore⟩ := Nat.exists_eq_add_of_lt hlt
          rw [hmore, Nat.add_assoc, isBoundary_append]
          cases back with
          | nil =>
              rw [List.append_nil] at hle
              omega
          | cons c back =>
              have hnext := h.next c rfl
              have hsize : ¬ c.utf8Size ≤ more + 1 := by omega
              simp [isBoundary, hsize]
        rw [hback]
        exact ih ⟨by omega, fun c hc => Nat.lt_of_succ_lt (h.next c hc)⟩ (Nat.le_of_succ_le hle)

/-- The text before a place. -/
theorem before?_eq (front back : List Char) :
    before? (front ++ back) (byteLength front) = some front := by
  have hplace := isBoundary_append 0 front back
  rw [Nat.add_zero, isBoundary_zero] at hplace
  rw [before?, if_pos hplace, takeBytes_append]

/-! ## The last line -/

/-- What follows the last line feed of a text, or all of it. -/
def lastLine (text : List Char) : List Char := text.rtakeWhile (· ≠ '\n')

theorem lastLine_concat (text : List Char) (c : Char) :
    lastLine (text ++ [c]) = if c = '\n' then [] else lastLine text ++ [c] := by
  unfold lastLine
  rw [List.rtakeWhile_concat]
  by_cases hc : c = '\n' <;> simp [hc]

theorem lastFeed?_concat (text : List Char) (c : Char) :
    lastFeed? (text ++ [c]) = if c = '\n' then some (byteLength text) else lastFeed? text := by
  induction text with
  | nil => simp [lastFeed?]
  | cons d text ih =>
      rw [List.cons_append, lastFeed?, ih, lastFeed?]
      by_cases hc : c = '\n' <;> simp [hc]

theorem lineStart_concat (text : List Char) (c : Char) :
    lineStart (text ++ [c]) = if c = '\n' then byteLength (text ++ [c]) else lineStart text := by
  unfold lineStart
  rw [lastFeed?_concat]
  by_cases hc : c = '\n'
  · subst hc
    have hsize : '\n'.utf8Size = 1 := by decide
    simp [hsize]
  · simp [hc]

theorem lineStart_le (text : List Char) : lineStart text ≤ byteLength text := by
  induction text using List.reverseRecOn with
  | nil => exact Nat.le_refl 0
  | append_singleton text c ih =>
      rw [lineStart_concat]
      split
      · exact Nat.le_refl _
      · rw [byteLength_append]
        omega

/-- The text from the start of its last line on. -/
theorem dropBytes_lineStart (text : List Char) : dropBytes (lineStart text) text = lastLine text := by
  induction text using List.reverseRecOn with
  | nil => rfl
  | append_singleton text c ih =>
      rw [lineStart_concat, lastLine_concat]
      by_cases hc : c = '\n'
      · have hall := dropBytes_append (text ++ [c]) [] 0
        rw [Nat.add_zero, List.append_nil, dropBytes_zero] at hall
        rw [if_pos hc, if_pos hc, hall]
      · rw [if_neg hc, if_neg hc, dropBytes_front (lineStart_le text), ih]

theorem from?_lineStart (text : List Char) : from? text (lineStart text) = some (lastLine text) := by
  rw [from?, if_pos (isBoundary_lineStart text), dropBytes_lineStart]

end Text

/-! ## Walks -/

namespace Location

/-- The first position of every text. -/
def first : Location := ⟨1, 1⟩

/-- The position after the character `c`. -/
def after (l : Location) (c : Char) : Location :=
  if c = '\n' then ⟨l.line + 1, 1⟩ else ⟨l.line, l.column + 1⟩

/-- The position behind a text that begins at `l`. -/
def behind (l : Location) (text : List Char) : Location := text.foldl after l

@[simp] theorem behind_nil (l : Location) : l.behind [] = l := rfl

@[simp] theorem behind_cons (l : Location) (c : Char) (text : List Char) :
    l.behind (c :: text) = (l.after c).behind text := rfl

theorem behind_append (l : Location) (front back : List Char) :
    l.behind (front ++ back) = (l.behind front).behind back := List.foldl_append

/-- The position at a place counts the line feeds before it, and the characters of the line so far. -/
theorem first_behind (front : List Char) :
    first.behind front = ⟨front.count '\n' + 1, (lastLine front).length + 1⟩ := by
  induction front using List.reverseRecOn with
  | nil => rfl
  | append_singleton front c ih =>
      rw [behind_append, ih, behind_cons, behind_nil, after, lastLine_concat, List.count_append]
      by_cases hc : c = '\n'
      · subst hc
        simp
      · simp [hc]

end Location

/-- The steps that locate a span can all be taken, and come to what a walk to its place comes to. -/
theorem Span.locate?_eq {s : Span} {front back : List Char} (h : FallsOn s.start front back) :
    s.locate? (front ++ back) = some (Location.first.behind front) := by
  have hfalls : FallsOn (min s.start (byteLength (front ++ back))) front back := h.min_length
  have hfloor := floor?_eq hfalls (Nat.min_le_right _ _)
  simp only [locate?, hfloor, before?_eq, from?_lineStart, Location.first_behind, Option.bind_eq_bind,
    Option.bind_some]

theorem Span.locate?_location (s : Span) (source : List Char) :
    s.locate? source = some (s.location source) := (Option.some_get _).symm

theorem Span.location_eq {s : Span} {front back : List Char} (h : FallsOn s.start front back) :
    s.location (front ++ back) = Location.first.behind front :=
  Option.some.inj ((s.locate?_location _).symm.trans (locate?_eq h))

/-! ## Order -/

namespace Location

/-- The order of positions: by line, and within a line by column. -/
def Before (l m : Location) : Prop := l.line < m.line ∨ (l.line = m.line ∧ l.column < m.column)

theorem Before.trans {k l m : Location} (h : k.Before l) (h' : l.Before m) : k.Before m := by
  unfold Before at *
  omega

theorem not_before_self (l : Location) : ¬ l.Before l := by
  unfold Before
  omega

/-- Every character moves the position on. -/
theorem before_after (l : Location) (c : Char) : l.Before (l.after c) := by
  unfold after
  split
  · exact Or.inl (Nat.lt_succ_self _)
  · exact Or.inr ⟨rfl, Nat.lt_succ_self _⟩

theorem before_behind (l : Location) {text : List Char} (h : text ≠ []) : l.Before (l.behind text) := by
  induction text generalizing l with
  | nil => exact absurd rfl h
  | cons c text ih =>
      by_cases htext : text = []
      · subst htext
        exact l.before_after c
      · exact (l.before_after c).trans (ih (l.after c) htext)

end Location

/-- The order of positions that may be the same. -/
def Location.NotAfter (l m : Location) : Prop := l.line < m.line ∨ (l.line = m.line ∧ l.column ≤ m.column)

theorem Location.notAfter_behind (l : Location) (text : List Char) : l.NotAfter (l.behind text) := by
  by_cases h : text = []
  · subst h
    exact Or.inr ⟨rfl, Nat.le_refl _⟩
  · exact (l.before_behind h).imp_right fun hcolumn => ⟨hcolumn.1, Nat.le_of_lt hcolumn.2⟩

/-- A later offset belongs to no earlier place. -/
theorem Text.FallsOn.exists_between {offset offset' : Nat} {front front' back back' : List Char}
    (h : FallsOn offset front back) (h' : FallsOn offset' front' back') (hle : offset ≤ offset')
    (htext : front ++ back = front' ++ back') : ∃ between, front' = front ++ between := by
  rcases List.append_eq_append_iff.mp htext with ⟨between, rfl, _⟩ | ⟨between, rfl, rfl⟩
  · exact ⟨between, rfl⟩
  · cases between with
    | nil => exact ⟨[], by simp⟩
    | cons c between =>
        -- The character would end before the earlier offset and behind the later one.
        have hreached := h.reached
        have hnext := h'.next c rfl
        rw [byteLength_append, byteLength_cons] at hreached
        omega

/-- A later offset has no earlier position. -/
theorem Span.location_notAfter {s t : Span} (h : s.start ≤ t.start) (source : List Char) :
    (s.location source).NotAfter (t.location source) := by
  obtain ⟨front, back, rfl, hfalls⟩ := exists_fallsOn s.start source
  obtain ⟨front', back', htext, hfalls'⟩ := exists_fallsOn t.start (front ++ back)
  obtain ⟨between, rfl⟩ := hfalls.exists_between hfalls' h htext
  rw [location_eq hfalls, htext, location_eq hfalls', Location.behind_append]
  exact Location.notAfter_behind _ between

/-- Of two places of a text, the one with fewer bytes before it comes first. -/
theorem Text.exists_between_of_lt {front front' back back' : List Char}
    (htext : front ++ back = front' ++ back') (hlt : byteLength front < byteLength front') :
    ∃ between, between ≠ [] ∧ front' = front ++ between := by
  rcases List.append_eq_append_iff.mp htext with ⟨between, rfl, _⟩ | ⟨between, rfl, _⟩
  · refine ⟨between, ?_, rfl⟩
    rintro rfl
    rw [List.append_nil] at hlt
    exact absurd hlt (Nat.lt_irrefl _)
  · rw [byteLength_append] at hlt
    omega

/-- A later place has a later position. -/
theorem Span.location_before {source : List Char} {s t : Span} (hs : IsBoundary source s.start)
    (ht : IsBoundary source t.start) (hlt : s.start < t.start) :
    (s.location source).Before (t.location source) := by
  obtain ⟨front, back, rfl, hfront⟩ := hs
  obtain ⟨front', back', htext, hfront'⟩ := ht
  rw [← hfront, ← hfront'] at hlt
  obtain ⟨between, hne, rfl⟩ := exists_between_of_lt htext hlt
  have hfalls : FallsOn s.start front back := hfront ▸ fallsOn_boundary front back
  have hfalls' : FallsOn t.start (front ++ between) back' := hfront' ▸ fallsOn_boundary _ back'
  rw [location_eq hfalls, htext, location_eq hfalls', Location.behind_append]
  exact Location.before_behind _ hne

/-- Places with the same position are in no order. -/
theorem Span.not_lt_of_location_eq {source : List Char} {s t : Span} (hs : IsBoundary source s.start)
    (ht : IsBoundary source t.start) (hsame : s.location source = t.location source) :
    ¬ s.start < t.start := by
  intro hlt
  have hbefore := location_before hs ht hlt
  rw [hsame] at hbefore
  exact Location.not_before_self _ hbefore

/-! ## The way back -/

namespace Text

/-- What follows the first line feed of a text. -/
def skipLine (text : List Char) : List Char := (text.dropWhile (· ≠ '\n')).drop 1

theorem skipLine_append {front : List Char} (h : '\n' ∉ front) (back : List Char) :
    skipLine (front ++ '\n' :: back) = back := by
  have hfront : ∀ c ∈ front, decide (c ≠ '\n') = true := by
    intro c hc
    rw [decide_eq_true_iff]
    rintro rfl
    exact h hc
  rw [skipLine, List.dropWhile_append_of_pos hfront]
  rfl

theorem not_mem_lastLine (text : List Char) : '\n' ∉ lastLine text := by
  intro h
  have hne := List.mem_rtakeWhile_imp h
  simp at hne

/-- Behind as many line feeds as a front has, its last line comes first. -/
theorem skipLine_iterate (front back : List Char) :
    skipLine^[front.count '\n'] (front ++ back) = lastLine front ++ back := by
  induction front using List.reverseRecOn generalizing back with
  | nil => rfl
  | append_singleton front c ih =>
      rw [lastLine_concat, List.count_append, List.append_assoc, List.singleton_append]
      by_cases hc : c = '\n'
      · subst hc
        rw [List.count_singleton_self, Function.iterate_succ_apply', ih,
          skipLine_append (not_mem_lastLine front), if_pos rfl, List.nil_append]
      · rw [List.count_singleton, beq_eq_false_iff_ne.mpr hc, if_neg hc, List.append_assoc]
        exact ih (c :: back)

end Text

namespace Location

/-- What is left of a source at the position, found by skipping the lines before it and then the characters
before it in its line. -/
def restIn (l : Location) (source : List Char) : List Char :=
  (skipLine^[l.line - 1] source).drop (l.column - 1)

theorem restIn_behind (front back : List Char) :
    (first.behind front).restIn (front ++ back) = back := by
  rw [first_behind, restIn, Nat.add_sub_cancel, Nat.add_sub_cancel, skipLine_iterate, List.drop_left]

end Location

/-- Lines and columns are coordinates of a text. Every span can be located: going back from its offset
ends at a place of the text, that of the start of the character for an offset within one and that of the
end for an offset past it, and the cuts there and behind the last line feed before can be made. Of two
different places between characters the earlier one has the earlier position, so no two of them have the
same. The line counts the line feeds before the place, and whoever skips these and then the characters
that the column counts is back at the place. -/
theorem location_faithful (source : List Char) :
    (∀ s : Span, s.locate? source = some (s.location source) ∧
      ∃ front back, source = front ++ back ∧ FallsOn s.start front back ∧
        floor? source (min s.start (byteLength source)) = some (byteLength front) ∧
        before? source (byteLength front) = some front ∧
        from? front (lineStart front) = some (lastLine front) ∧
        s.location source = ⟨front.count '\n' + 1, (lastLine front).length + 1⟩) ∧
    (∀ front c back, source = front ++ c :: back → ∀ s t : Span, t.start = byteLength front →
      byteLength front ≤ s.start → s.start < byteLength front + c.utf8Size →
      s.location source = t.location source) ∧
    (∀ s t : Span, t.start = byteLength source → byteLength source ≤ s.start →
      s.location source = t.location source) ∧
    (∀ s t : Span, IsBoundary source s.start → IsBoundary source t.start → s.start < t.start →
      (s.location source).Before (t.location source)) ∧
    (∀ s t : Span, IsBoundary source s.start → IsBoundary source t.start →
      s.location source = t.location source → s.start = t.start) ∧
    ∀ front back, source = front ++ back → ∀ s : Span, s.start = byteLength front →
      (s.location source).line - 1 = front.count '\n' ∧ (s.location source).restIn source = back := by
  refine ⟨fun s => ⟨s.locate?_location source, ?_⟩, ?_, fun s t ht hs => ?_,
    fun s t => Span.location_before, ?_, ?_⟩
  · obtain ⟨front, back, rfl, hfalls⟩ := exists_fallsOn s.start source
    refine ⟨front, back, rfl, hfalls, floor?_eq hfalls.min_length (Nat.min_le_right _ _),
      before?_eq front back, from?_lineStart front, ?_⟩
    rw [Span.location_eq hfalls, Location.first_behind]
  · rintro front c back rfl s t ht hle hlt
    have hfalls : FallsOn s.start front (c :: back) := by
      refine ⟨hle, ?_⟩
      rintro _ ⟨⟩
      exact hlt
    rw [Span.location_eq hfalls, Span.location_eq (ht ▸ fallsOn_boundary front (c :: back))]
  · rw [← List.append_nil source, Span.location_eq (fallsOn_end hs),
      Span.location_eq (fallsOn_end (Nat.le_of_eq ht.symm))]
  · intro s t hs ht hsame
    have hle := Nat.le_of_not_lt (Span.not_lt_of_location_eq ht hs hsame.symm)
    have hge := Nat.le_of_not_lt (Span.not_lt_of_location_eq hs ht hsame)
    exact Nat.le_antisymm hle hge
  · rintro front back rfl s hs
    have hfalls : FallsOn s.start front back := hs ▸ fallsOn_boundary front back
    rw [Span.location_eq hfalls]
    exact ⟨by rw [Location.first_behind, Nat.add_sub_cancel], Location.restIn_behind front back⟩

/-- Three lines, with a character of two bytes at the start of the second one. -/
def accentedLines : List Char := "a\nų b\nc".toList

/-- An offset within that character, one past the end, the order of two lines, and the way back to the `b`. -/
theorem location_faithful_accentedLines :
    (⟨3, 4⟩ : Span).locate? accentedLines = some ⟨2, 1⟩ ∧
    (⟨3, 4⟩ : Span).location accentedLines = (⟨2, 4⟩ : Span).location accentedLines ∧
    (⟨99, 100⟩ : Span).location accentedLines = (⟨8, 8⟩ : Span).location accentedLines ∧
    ((⟨1, 2⟩ : Span).location accentedLines).Before ((⟨2, 4⟩ : Span).location accentedLines) ∧
    (⟨5, 6⟩ : Span).location accentedLines = ⟨2, 3⟩ ∧
    (⟨2, 3⟩ : Location).restIn accentedLines = "b\nc".toList := by
  obtain ⟨hlocates, hinside, hend, hbefore, _, hback⟩ := location_faithful accentedLines
  have hplace : (⟨5, 6⟩ : Span).location accentedLines = ⟨2, 3⟩ := by decide
  have hrest := (hback "a\nų ".toList "b\nc".toList rfl ⟨5, 6⟩ (by decide)).2
  rw [hplace] at hrest
  refine ⟨(hlocates ⟨3, 4⟩).1.trans (by decide), ?_, ?_, ?_, hplace, hrest⟩
  · exact hinside "a\n".toList 'ų' " b\nc".toList rfl ⟨3, 4⟩ ⟨2, 4⟩ (by decide) (by decide) (by decide)
  · exact hend ⟨99, 100⟩ ⟨8, 8⟩ (by decide) (by decide)
  · exact hbefore ⟨1, 2⟩ ⟨2, 4⟩ ⟨"a".toList, "\nų b\nc".toList, rfl, by decide⟩
      ⟨"a\n".toList, "ų b\nc".toList, rfl, by decide⟩ (by decide)

end ClassChart
