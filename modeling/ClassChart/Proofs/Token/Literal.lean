/-
# ClassChart.Proofs.Token.Literal — how far a literal looks ahead

A literal is read with the whole rest of the text in sight, but what is found depends on little of it:
the literal itself, and a character behind it. So a literal that was read before one text is read alike
before another one that begins with a blank or a mark, since nothing that a literal looks for begins so.
The law is proved for the steps inside a literal first, and then along all of them. What a literal ends
with is never a blank.
-/
import ClassChart.Token.Stream

namespace ClassChart

/-! ## Blanks -/

namespace Text

/-- The characters with the property White_Space. -/
def blankChars : List Char :=
  ['\t', '\n', '\x0b', '\x0c', '\r', ' ', '\u0085', '\u00a0', '\u1680', '\u2000', '\u2001', '\u2002',
    '\u2003', '\u2004', '\u2005', '\u2006', '\u2007', '\u2008', '\u2009', '\u200a', '\u2028', '\u2029',
    '\u202f', '\u205f', '\u3000']

theorem mem_blankChars {c : Char} (hc : isBlank c = true) : c ∈ blankChars := by
  have hcode : c.toNat ∈ blankChars.map Char.toNat := by
    simp only [isBlank, inRanges, blankRanges, List.any_cons, List.any_nil, CodeRange.holds,
      Bool.or_eq_true, Bool.and_eq_true, decide_eq_true_eq, Bool.or_false] at hc
    show c.toNat ∈ [9, 10, 11, 12, 13, 32, 133, 160, 5760, 8192, 8193, 8194, 8195, 8196, 8197, 8198,
      8199, 8200, 8201, 8202, 8232, 8233, 8239, 8287, 12288]
    simp only [List.mem_cons, List.not_mem_nil, or_false]
    omega
  obtain ⟨d, hd, hcode⟩ := List.mem_map.mp hcode
  rwa [Char.toNat_inj.mp hcode.symm]

/-- What is said of each character of a list is decided along the list. The library can also decide it by
trying every character there is, which never ends in practice and may be what is found first. -/
scoped instance (priority := high) decidableForallMem (p : Char → Prop) [DecidablePred p]
    (l : List Char) : Decidable (∀ c ∈ l, p c) :=
  List.decidableBAll p l

end Text

namespace Lexeme

open Text Literal

/-! ## What no token goes on with -/

/-- Blanks and marks. -/
def stopChars : List Char := blankChars ++ marks

/-- The text is empty or begins with a blank or a mark. -/
def Stops (rest : List Char) : Prop := ∀ c ∈ rest.head?, c ∈ stopChars

theorem Stops.nil : Stops [] := by
  intro c hc
  cases hc

theorem Stops.cons {c : Char} (hc : c ∈ stopChars) (rest : List Char) : Stops (c :: rest) := by
  rintro d ⟨⟩
  exact hc

theorem headIs_cons (p : Char → Bool) (c : Char) (rest : List Char) : headIs p (c :: rest) = p c := rfl

/-- The first character is that of the front. -/
theorem headIs_append {p : Char → Bool} {front : List Char} (hfront : front ≠ []) (rest : List Char) :
    headIs p (front ++ rest) = headIs p front := by
  cases front with
  | nil => exact absurd rfl hfront
  | cons c front => rfl

/-- A property that no stop has does not hold of what comes first. -/
theorem Stops.headIs {rest : List Char} (h : Stops rest) {p : Char → Bool}
    (hp : ∀ c ∈ stopChars, p c = false) : headIs p rest = false := by
  cases rest with
  | nil => rfl
  | cons c rest => exact hp c (h c rfl)

theorem Stops.head_ne {rest : List Char} (h : Stops rest) {c : Char} (hc : c ∉ stopChars) :
    rest.head? ≠ some c :=
  fun hhead => hc (h c hhead)

theorem stops_continuesName : ∀ c ∈ stopChars, continuesName c = false := by decide +kernel

theorem stops_continuesNumber : ∀ c ∈ stopChars, continuesNumber c = false := by decide

theorem stops_isDigit : ∀ c ∈ stopChars, c.isDigit = false := by decide

theorem stops_isHexDigit : ∀ c ∈ stopChars, isHexDigit c = false := by decide

/-! ## Runs of characters -/

section Runs

variable {p : Char → Bool} {front rest rest' : List Char}

theorem takeWhile_eq_nil {text : List Char} (h : headIs p text = false) : text.takeWhile p = [] := by
  cases text with
  | nil => rfl
  | cons c text =>
      rw [headIs_cons] at h
      simp [h]

theorem headIs_of_takeWhile {text : List Char} (h : (text.takeWhile p).length = 0) :
    headIs p text = false := by
  cases text with
  | nil => rfl
  | cons c text =>
      rw [headIs_cons]
      cases hc : p c with
      | false => rfl
      | true => simp [hc] at h

/-- A run that ends within a front ends there before any rest that does not go on with it. -/
theorem takeWhile_append_congr (hlen : ((front ++ rest).takeWhile p).length ≤ front.length)
    (hrest' : headIs p rest' = true → headIs p rest = true) :
    (front ++ rest').takeWhile p = (front ++ rest).takeWhile p := by
  induction front with
  | nil =>
      have hrest : headIs p rest = false := headIs_of_takeWhile (Nat.le_zero.mp hlen)
      have hother : headIs p rest' = false := by
        apply Bool.eq_false_iff.mpr
        intro hhead
        rw [hrest' hhead] at hrest
        exact Bool.noConfusion hrest
      rw [List.nil_append, List.nil_append, takeWhile_eq_nil hrest, takeWhile_eq_nil hother]
  | cons c front ih =>
      simp only [List.cons_append, List.takeWhile_cons] at hlen ⊢
      split
      · rename_i hc
        rw [if_pos hc, List.length_cons, List.length_cons] at hlen
        rw [ih (by omega)]
      · rfl

/-- Characters of a class are not taken beyond a front that something else follows. -/
theorem length_takeWhile_le (hrest : headIs p rest = false) :
    ((front ++ rest).takeWhile p).length ≤ front.length := by
  induction front with
  | nil => simp [takeWhile_eq_nil hrest]
  | cons c front ih =>
      simp only [List.cons_append, List.takeWhile_cons]
      split
      · simpa using ih
      · simp

/-- The digits of an escape end within the front before any text that begins with none. -/
theorem hexDigits_append {most : Nat} (hlen : hexDigits most (front ++ rest) ≤ front.length)
    (hrest' : headIs isHexDigit rest' = false) :
    hexDigits most (front ++ rest') = hexDigits most (front ++ rest) := by
  induction front generalizing most with
  | nil =>
      have hzero : hexDigits most rest' = 0 := by
        cases rest' with
        | nil => simp [hexDigits]
        | cons c rest' =>
            rw [headIs_cons] at hrest'
            cases most with
            | zero => simp [hexDigits]
            | succ most => simp [hexDigits, hrest']
      simp only [List.nil_append] at hlen ⊢
      have hle : hexDigits most rest ≤ 0 := hlen
      omega
  | cons c front ih =>
      cases most with
      | zero => simp [hexDigits]
      | succ most =>
          simp only [hexDigits, List.cons_append, List.take_succ_cons, List.takeWhile_cons] at hlen ⊢
          split
          · rename_i hc
            rw [if_pos hc, List.length_cons, List.length_cons] at hlen
            have hrest : hexDigits most (front ++ rest') = hexDigits most (front ++ rest) :=
              ih (by simp only [hexDigits]; omega)
            simp only [hexDigits] at hrest
            simp [hrest]
          · rfl

end Runs

/-! ## Literals -/

section Literals

variable {front rest rest' : List Char} {here stop : Nat} {c : Char}

theorem escape_pos {text : List Char} {count : Nat} (h : escape text = .ok count) : 0 < count := by
  unfold escape at h
  split at h
  · cases h
  · split at h
    · cases h
      exact Nat.one_pos
    · split at h
      · simp only at h
        split at h
        · cases h
        · cases h
          omega
      · split at h
        · split at h <;> cases h
          omega
        · split at h
          · split at h <;> cases h
            omega
          · cases h

/-- An escape that ends within a front is read alike before other texts. -/
theorem escape_append {count : Nat} (h : escape (front ++ rest) = .ok count)
    (hcount : count ≤ front.length) (hrest' : headIs isHexDigit rest' = false) :
    escape (front ++ rest') = .ok count := by
  cases front with
  | nil =>
      have hpos := escape_pos h
      simp only [List.length_nil] at hcount
      omega
  | cons c front =>
      -- Only the digits behind `x`, `u` and `U` are looked for, and they end within the front.
      have hdigits (most : Nat) (hmost : hexDigits most (front ++ rest) ≤ front.length) :
          hexDigits most (front ++ rest') = hexDigits most (front ++ rest) :=
        hexDigits_append hmost hrest'
      simp only [List.cons_append, escape, List.length_cons] at h hcount ⊢
      grind

/-- The ways to open a string. -/
def openings : List (List Char) := [['$', '@', '"'], ['@', '$', '"'], ['$', '"'], ['@', '"'], ['"']]

theorem openings_ne_stop : ∀ o ∈ openings, ∀ c ∈ o, c ∉ stopChars := by decide

/-- Which string is opened depends on what opens it alone. -/
theorem opener?_some {start count : Nat} {text : List Char} {frame : Frame}
    (h : opener? start text = some (count, frame)) :
    ∃ o more, text = o ++ more ∧ o.length = count ∧ 0 < count ∧
      ∀ other, opener? start (o ++ other) = some (count, frame) := by
  unfold opener? at h
  split at h
  · cases h
    exact ⟨['$', '@', '"'], _, rfl, rfl, by omega, fun _ => rfl⟩
  · cases h
    exact ⟨['@', '$', '"'], _, rfl, rfl, by omega, fun _ => rfl⟩
  · cases h
    exact ⟨['$', '"'], _, rfl, rfl, by omega, fun _ => rfl⟩
  · cases h
    exact ⟨['@', '"'], _, rfl, rfl, by omega, fun _ => rfl⟩
  · cases h
    exact ⟨['"'], _, rfl, rfl, by omega, fun _ => rfl⟩
  · cases h

/-- What begins with an opening begins a literal. -/
theorem opener?_isSome (start : Nat) {o : List Char} (ho : o ∈ openings) (more : List Char) :
    (opener? start (o ++ more)).isSome = true := by
  simp only [openings, List.mem_cons, List.not_mem_nil, or_false] at ho
  rcases ho with rfl | rfl | rfl | rfl | rfl <;> rfl

/-- What begins a literal begins with an opening. -/
theorem exists_opening {start : Nat} {text : List Char} (h : (opener? start text).isSome = true) :
    ∃ o ∈ openings, o <+: text := by
  unfold opener? at h
  split at h
  · exact ⟨['$', '@', '"'], by simp [openings], by simp⟩
  · exact ⟨['@', '$', '"'], by simp [openings], by simp⟩
  · exact ⟨['$', '"'], by simp [openings], by simp⟩
  · exact ⟨['@', '"'], by simp [openings], by simp⟩
  · exact ⟨['"'], by simp [openings], by simp⟩
  · exact Bool.noConfusion h

/-- An opening within the front is one before any text. -/
theorem opener?_append_some {start count : Nat} {frame : Frame}
    (h : opener? start (front ++ rest) = some (count, frame)) (hcount : count ≤ front.length) :
    opener? start (front ++ rest') = some (count, frame) := by
  obtain ⟨o, more, htext, hlen, _, hopens⟩ := opener?_some h
  have hpre : o <+: front :=
    List.prefix_of_prefix_length_le ⟨more, htext.symm⟩ (List.prefix_append front rest) (by omega)
  obtain ⟨inner, rfl⟩ := hpre
  rw [List.append_assoc]
  exact hopens _

/-- No stop makes an opening of what is none. -/
theorem opener?_append_none {start : Nat} (h : opener? start (front ++ rest) = none)
    (hfront : front ≠ []) (hrest' : Stops rest') : opener? start (front ++ rest') = none := by
  apply Option.not_isSome_iff_eq_none.mp
  intro hsome
  obtain ⟨o, ho, tail, htail⟩ := exists_opening hsome
  rcases List.append_eq_append_iff.mp htail with ⟨inner, rfl, _⟩ | ⟨more, rfl, rfl⟩
  · have hopens := opener?_isSome start ho (inner ++ rest)
    rw [← List.append_assoc, h] at hopens
    exact Bool.noConfusion hopens
  · -- What opens the string would reach into a text that no token goes on with.
    cases more with
    | nil =>
        have hopens := opener?_isSome start ho rest
        rw [List.append_nil, h] at hopens
        exact Bool.noConfusion hopens
    | cons d more =>
        have hd : d ∈ front ++ d :: more := by simp
        exact openings_ne_stop _ ho d hd (hrest' d rfl)

theorem closers_not_blank : ∀ c ∈ ['"', '\x27', '\x7d'], isBlank c = false := by decide

/-- A construct is closed by a quote or a brace. -/
theorem move_take_nil {frame : Frame} {extra : Nat} (h : frame.move here c rest = .take extra []) :
    extra = 0 ∧ c ∈ ['"', '\x27', '\x7d'] := by
  cases frame <;>
    simp only [Frame.move, regularMove, verbatimMove, interpolatedMove, holeMove, characterMove,
      escapeMove] at h <;>
    grind

/-- Only a doubled quote could make more of what closes a construct. -/
theorem move_closing {frame : Frame} {extra : Nat} (h : frame.move here c rest = .take extra [])
    (hrest' : rest'.head? ≠ some '"') : frame.move here c rest' = .take extra [] := by
  cases frame <;>
    simp only [Frame.move, regularMove, verbatimMove, interpolatedMove, holeMove, characterMove,
      escapeMove] at h ⊢ <;>
    grind

/-- A step inside a literal that ends within a front is taken alike before other texts. -/
theorem move_append {frame : Frame} {extra : Nat} {inner : List Frame}
    (h : frame.move here c (front ++ rest) = .take extra inner) (hextra : extra ≤ front.length)
    (hfront : front ≠ []) (hrest' : Stops rest') :
    frame.move here c (front ++ rest') = .take extra inner := by
  have hhead : (front ++ rest').head? = (front ++ rest).head? := by
    cases front with
    | nil => exact absurd rfl hfront
    | cons d front => rfl
  have hhex : headIs isHexDigit rest' = false := hrest'.headIs stops_isHexDigit
  have hescape {frames : List Frame} (hmove : escapeMove here frames (front ++ rest) = .take extra inner) :
      escapeMove here frames (front ++ rest') = .take extra inner := by
    unfold escapeMove at hmove ⊢
    split at hmove
    · rename_i count hcount
      cases hmove
      rw [escape_append hcount hextra hhex]
    · cases hmove
  cases frame with
  | regular start =>
      simp only [Frame.move, regularMove] at h ⊢
      grind
  | verbatim start =>
      simp only [Frame.move, verbatimMove, hhead] at h ⊢
      exact h
  | interpolated start isVerbatim =>
      simp only [Frame.move, interpolatedMove, verbatimMove, regularMove, hhead] at h ⊢
      grind
  | hole opened =>
      simp only [Frame.move, holeMove] at h ⊢
      cases hopener : opener? here (c :: front ++ rest) with
      | none =>
          have hnone : opener? here (c :: front ++ rest') = none :=
            opener?_append_none hopener (List.cons_ne_nil c front) hrest'
          rw [List.cons_append] at hopener hnone
          grind
      | some opened =>
          obtain ⟨count, frame⟩ := opened
          have hsome (hcount : count ≤ front.length + 1) :
              opener? here (c :: front ++ rest') = some (count, frame) :=
            opener?_append_some hopener hcount
          rw [List.cons_append] at hopener hsome
          grind
  | character start isFilled =>
      simp only [Frame.move, characterMove] at h ⊢
      grind

/-- Reading on does not go back. -/
theorem le_of_close {frames : List Frame} {text : List Char} (h : close frames here text = .ok stop) :
    here ≤ stop := by
  fun_induction close frames here text with
  | case1 here text =>
      cases h
      exact Nat.le_refl _
  | case2 => cases h
  | case3 here frame outer c rest extra inner _ ih =>
      have hle := ih h
      omega
  | case4 => cases h

/-- A literal ends with a character that is no blank. -/
theorem exists_last_of_close {frames : List Frame} {text : List Char}
    (h : close frames here text = .ok stop) (hframes : frames ≠ []) :
    here < stop ∧ ∃ c, text[stop - here - 1]? = some c ∧ isBlank c = false := by
  fun_induction close frames here text with
  | case1 => exact absurd rfl hframes
  | case2 => cases h
  | case3 here frame outer c rest extra inner hmove ih =>
      have hle := le_of_close h
      refine ⟨by omega, ?_⟩
      by_cases hdone : inner ++ outer = []
      · -- The step closes the last construct, so its character is the last one.
        obtain ⟨rfl, rfl⟩ := List.append_eq_nil_iff.mp hdone
        obtain ⟨rfl, hc⟩ := move_take_nil hmove
        rw [close.eq_def] at h
        cases h
        exact ⟨c, by simp, closers_not_blank c hc⟩
      · obtain ⟨hlt, d, hd, hblank⟩ := ih h hdone
        refine ⟨d, ?_, hblank⟩
        rw [List.getElem?_drop] at hd
        rw [← hd, show stop - here - 1 = (stop - here - 2) + 1 by omega, List.getElem?_cons_succ]
        congr 1
        omega
  | case4 => cases h

/-- A literal that ends within a front is read alike before other texts. -/
theorem close_append {frames : List Frame} (h : close frames here (front ++ rest) = .ok stop)
    (hstop : stop ≤ here + front.length) (hrest' : Stops rest') :
    close frames here (front ++ rest') = .ok stop := by
  generalize htext : front ++ rest = text at h
  fun_induction close frames here text generalizing front with
  | case1 here text =>
      cases h
      rw [close.eq_def]
  | case2 => cases h
  | case3 here frame outer c more extra inner hmove ih =>
      have hle := le_of_close h
      cases front with
      | nil =>
          simp only [List.length_nil] at hstop
          omega
      | cons d front =>
          rw [List.cons_append] at htext
          obtain ⟨rfl, rfl⟩ := List.cons.inj htext
          simp only [List.length_cons] at hstop
          have hmove' : frame.move here d (front ++ rest') = .take extra inner := by
            cases front with
            | cons e front => exact move_append hmove (by omega) (List.cons_ne_nil e front) hrest'
            | nil =>
                -- The literal ends here, so the step closes the last construct.
                by_cases hdone : inner ++ outer = []
                · obtain ⟨rfl, rfl⟩ := List.append_eq_nil_iff.mp hdone
                  exact move_closing hmove (hrest'.head_ne (by decide))
                · have hlast := exists_last_of_close h hdone
                  simp only [List.length_nil] at hstop
                  omega
          rw [List.cons_append, close.eq_def]
          simp only [hmove']
          rw [List.drop_append_of_le_length (by omega)]
          refine ih ?_ (List.drop_append_of_le_length (by omega)).symm h
          rw [List.length_drop]
          omega
  | case4 => cases h

end Literals

end Lexeme

end ClassChart
