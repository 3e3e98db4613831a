/-
# ClassChart.Proofs.Token.Quoted — the forms of string and character literals

What a string literal is, said without the stack that reads it. A string is opened by one of five signs,
and `Inside` says how its text goes on from there to the quote that ends it: characters that stand for
themselves, escapes, doubled quotes and braces, and holes, which hold strings, characters and holes in
turn. The text that follows a literal is part of what is said, since a quote in a verbatim string ends it
only where no other quote follows.

The reader of literals finds exactly these. One direction takes the innermost open construct to its end
and goes on with the ones around it, by induction on the length of the text; the other one follows the
text construct by construct.
-/
import ClassChart.Proofs.Token.Lookahead

namespace ClassChart.Literal

open Lexeme

/-! ## Escapes -/

/-- A backslash and what makes an escape of it, with `rest` behind. Only `\x` takes as many digits as
there are, up to four. -/
inductive IsEscape (rest : List Char) : List Char → Prop where
  | simple {c : Char} (known : c ∈ simpleEscapes) : IsEscape rest ['\\', c]
  | short {digits : List Char} (nonempty : digits ≠ []) (hex : ∀ d ∈ digits, isHexDigit d = true)
      (most : digits.length ≤ 4) (longest : digits.length = 4 ∨ headIs isHexDigit rest = false) :
      IsEscape rest ('\\' :: 'x' :: digits)
  | four {digits : List Char} (hex : ∀ d ∈ digits, isHexDigit d = true) (length_eq : digits.length = 4) :
      IsEscape rest ('\\' :: 'u' :: digits)
  | eight {digits : List Char} (hex : ∀ d ∈ digits, isHexDigit d = true) (length_eq : digits.length = 8) :
      IsEscape rest ('\\' :: 'U' :: digits)

section Escapes

variable {rest : List Char}

theorem hexDigits_eq_iff {most : Nat} {digits : List Char} :
    hexDigits most (digits ++ rest) = digits.length ↔
      (∀ d ∈ digits, isHexDigit d = true) ∧ digits.length ≤ most ∧
        (digits.length = most ∨ headIs isHexDigit rest = false) := by
  induction digits generalizing most with
  | nil =>
      cases most with
      | zero => simp [hexDigits]
      | succ most =>
          cases rest with
          | nil => simp [hexDigits, headIs]
          | cons c rest => cases hc : isHexDigit c <;> simp [hexDigits, headIs, hc]
  | cons d digits ih =>
      cases most with
      | zero => simp [hexDigits]
      | succ most =>
          have hih := @ih most
          simp only [hexDigits] at hih
          simp only [hexDigits, List.cons_append, List.take_succ_cons, List.takeWhile_cons,
            List.forall_mem_cons, List.length_cons]
          cases hd : isHexDigit d with
          | false => simp
          | true => simpa using hih

theorem hexDigits_le (most : Nat) (text : List Char) : hexDigits most text ≤ text.length := by
  have hle := (List.takeWhile_prefix (p := isHexDigit) (l := text.take most)).length_le
  rw [List.length_take] at hle
  simp only [hexDigits]
  omega

/-- The digits at the head of a text, and what is behind them. -/
theorem exists_hexDigits (most : Nat) (text : List Char) :
    ∃ digits behind, text = digits ++ behind ∧ digits.length = hexDigits most text ∧
      (∀ d ∈ digits, isHexDigit d = true) ∧ digits.length ≤ most ∧
        (digits.length = most ∨ headIs isHexDigit behind = false) := by
  have hlen : (text.take (hexDigits most text)).length = hexDigits most text :=
    List.length_take_of_le (hexDigits_le most text)
  have hsplit := List.take_append_drop (hexDigits most text) text
  refine ⟨_, _, hsplit.symm, hlen, hexDigits_eq_iff.mp ?_⟩
  rw [hsplit, hlen]

/-- An escape that was read is one. -/
theorem isEscape_of_escape {text : List Char} {count : Nat} (h : escape text = .ok count) :
    ∃ e behind, text = e ++ behind ∧ e.length = count ∧ IsEscape behind ('\\' :: e) := by
  cases text with
  | nil => cases h
  | cons c text =>
      simp only [escape] at h
      split at h
      · rename_i hsimple
        cases h
        exact ⟨[c], text, rfl, rfl, .simple (List.contains_iff_mem.mp hsimple)⟩
      · split at h
        · rename_i hx
          obtain ⟨digits, behind, rfl, hlen, hhex, hmost, hlongest⟩ := exists_hexDigits 4 text
          split at h
          · cases h
          · rename_i hsome
            cases h
            subst hx
            rw [← hlen] at hsome ⊢
            have hne : digits ≠ [] := by
              rintro rfl
              exact hsome rfl
            exact ⟨'x' :: digits, behind, rfl, by simp [Nat.add_comm], .short hne hhex hmost hlongest⟩
        · split at h
          · rename_i hu
            obtain ⟨digits, behind, rfl, hlen, hhex, -, -⟩ := exists_hexDigits 4 text
            split at h
            · rename_i hfour
              cases h
              subst hu
              rw [hfour] at hlen
              exact ⟨'u' :: digits, behind, rfl, by simp [hlen], .four hhex hlen⟩
            · cases h
          · split at h
            · rename_i hu
              obtain ⟨digits, behind, rfl, hlen, hhex, -, -⟩ := exists_hexDigits 8 text
              split at h
              · rename_i height
                cases h
                subst hu
                rw [height] at hlen
                exact ⟨'U' :: digits, behind, rfl, by simp [hlen], .eight hhex hlen⟩
              · cases h
            · cases h

theorem not_simple_codes : ∀ c ∈ ['x', 'u', 'U'], simpleEscapes.contains c = false := by
  simp [simpleEscapes]

/-- An escape is read as such. -/
theorem escape_of_isEscape {e : List Char} (h : IsEscape rest ('\\' :: e)) :
    escape (e ++ rest) = .ok e.length := by
  cases h with
  | simple known =>
      have hc := List.contains_iff_mem.mpr known
      simp only [List.cons_append, List.nil_append, escape, hc, if_true, List.length_singleton]
  | @short digits nonempty hex most longest =>
      have hdigits : hexDigits 4 (digits ++ rest) = digits.length :=
        hexDigits_eq_iff.mpr ⟨hex, most, longest⟩
      have hsome : ¬ digits.length = 0 := fun hzero => nonempty (List.eq_nil_of_length_eq_zero hzero)
      have hcode := not_simple_codes 'x' (by decide)
      simp only [List.cons_append, escape, hcode, Bool.false_eq_true, if_false, if_true, hdigits, hsome,
        List.length_cons, Nat.add_comm]
  | @four digits hex length_eq =>
      have hdigits : hexDigits 4 (digits ++ rest) = digits.length :=
        hexDigits_eq_iff.mpr ⟨hex, Nat.le_of_eq length_eq, .inl length_eq⟩
      have hcode := not_simple_codes 'u' (by decide)
      have hx : ¬ 'u' = 'x' := by decide
      rw [length_eq] at hdigits
      simp only [List.cons_append, escape, hcode, Bool.false_eq_true, if_false, if_true, hx, hdigits,
        List.length_cons, length_eq]
  | @eight digits hex length_eq =>
      have hdigits : hexDigits 8 (digits ++ rest) = digits.length :=
        hexDigits_eq_iff.mpr ⟨hex, Nat.le_of_eq length_eq, .inl length_eq⟩
      have hcode := not_simple_codes 'U' (by decide)
      have hx : ¬ 'U' = 'x' := by decide
      have hu : ¬ 'U' = 'u' := by decide
      rw [length_eq] at hdigits
      simp only [List.cons_append, escape, hcode, Bool.false_eq_true, if_false, if_true, hx, hu, hdigits,
        List.length_cons, length_eq]

theorem IsEscape.cons_eq {e : List Char} (h : IsEscape rest e) : ∃ more, e = '\\' :: more := by
  cases h with
  | simple _ => exact ⟨_, rfl⟩
  | short _ _ _ _ => exact ⟨_, rfl⟩
  | four _ _ => exact ⟨_, rfl⟩
  | eight _ _ => exact ⟨_, rfl⟩

/-- Whether an escape is one depends on the character behind it at most. -/
theorem IsEscape.congr {e rest' : List Char} (h : IsEscape rest e) (hhead : rest'.head? = rest.head?) :
    IsEscape rest' e := by
  cases h with
  | simple known => exact .simple known
  | short nonempty hex most longest =>
      refine .short nonempty hex most (longest.imp_right fun hends => ?_)
      rwa [headIs, hhead]
  | four hex length_eq => exact .four hex length_eq
  | eight hex length_eq => exact .eight hex length_eq

end Escapes

/-! ## Forms -/

/-- A character literal: one character that stands for itself, or one escape, in single quotes. -/
inductive IsCharacter : List Char → Prop where
  | plain {c : Char} (ordinary : c ∉ ['\x27', '\\', '\n', '\r']) : IsCharacter ['\x27', c, '\x27']
  | escape {e : List Char} (isEscape : IsEscape ['\x27'] e) : IsCharacter ('\x27' :: (e ++ ['\x27']))

theorem IsCharacter.cons_eq {y : List Char} (h : IsCharacter y) : ∃ more, y = '\x27' :: more := by
  cases h with
  | plain _ => exact ⟨_, rfl⟩
  | escape _ => exact ⟨_, rfl⟩

/-- The forms of string. -/
inductive StringForm where
  | regular
  | verbatim
  | interpolated
  | verbatimInterpolated
deriving DecidableEq, Repr

namespace StringForm

/-- What opens a string of the form. -/
def openings : StringForm → List (List Char)
  | regular => [['"']]
  | verbatim => [['@', '"']]
  | interpolated => [['$', '"']]
  | verbatimInterpolated => [['$', '@', '"'], ['@', '$', '"']]

/-- Whether a doubled quote stands for a quote, and a backslash for itself. -/
def isVerbatim : StringForm → Bool
  | regular => false
  | verbatim => true
  | interpolated => false
  | verbatimInterpolated => true

/-- Whether braces begin holes. -/
def isInterpolated : StringForm → Bool
  | regular => false
  | verbatim => false
  | interpolated => true
  | verbatimInterpolated => true

/-- The characters that do not stand for themselves. -/
def specials : StringForm → List Char
  | regular => ['"', '\\', '\n', '\r']
  | verbatim => ['"']
  | interpolated => ['"', '\\', '\x7b', '\x7d', '\n', '\r']
  | verbatimInterpolated => ['"', '\x7b', '\x7d']

theorem opening_cons {form : StringForm} {o : List Char} (ho : o ∈ form.openings) :
    ∃ c more, o = c :: more ∧ c ∈ ['"', '$', '@'] := by
  cases form with
  | regular => exact ⟨_, _, List.mem_singleton.mp ho, by decide⟩
  | verbatim => exact ⟨_, _, List.mem_singleton.mp ho, by decide⟩
  | interpolated => exact ⟨_, _, List.mem_singleton.mp ho, by decide⟩
  | verbatimInterpolated =>
      simp only [openings, List.mem_cons, List.not_mem_nil, or_false] at ho
      rcases ho with rfl | rfl
      · exact ⟨_, _, rfl, by decide⟩
      · exact ⟨_, _, rfl, by decide⟩

/-- The form as an open construct that begins at an offset. -/
def frame (start : Nat) : StringForm → Frame
  | regular => .regular start
  | verbatim => .verbatim start
  | interpolated => .interpolated start false
  | verbatimInterpolated => .interpolated start true

end StringForm

/-- What a literal may be in the middle of: the text of a string, or a hole. -/
inductive Construct where
  | text (form : StringForm)
  | hole

/-- The construct as an open one that begins at an offset. -/
def Construct.frame (start : Nat) : Construct → Frame
  | text form => form.frame start
  | hole => .hole start

/-- How a text goes on from the middle of a construct to where the construct ends, with `rest` behind. -/
inductive Inside : Construct → List Char → List Char → Prop where
  /-- A quote ends a string, but not where a second one would make it a doubled quote. -/
  | quote {form : StringForm} {rest : List Char}
      (single : form.isVerbatim = true → rest.head? ≠ some '"') : Inside (.text form) ['"'] rest
  | plain {form : StringForm} {c : Char} {x rest : List Char} (ordinary : c ∉ form.specials)
      (more : Inside (.text form) x rest) : Inside (.text form) (c :: x) rest
  | escape {form : StringForm} {e x rest : List Char} (escapes : form.isVerbatim = false)
      (isEscape : IsEscape (x ++ rest) e) (more : Inside (.text form) x rest) :
      Inside (.text form) (e ++ x) rest
  | doubledQuote {form : StringForm} {x rest : List Char} (doubles : form.isVerbatim = true)
      (more : Inside (.text form) x rest) : Inside (.text form) ('"' :: '"' :: x) rest
  | doubledBrace {form : StringForm} {c : Char} {x rest : List Char} (holes : form.isInterpolated = true)
      (brace : c = '\x7b' ∨ c = '\x7d') (more : Inside (.text form) x rest) :
      Inside (.text form) (c :: c :: x) rest
  /-- A brace begins a hole, but not where a second one would make it a doubled brace. -/
  | hole {form : StringForm} {y x rest : List Char} (holes : form.isInterpolated = true)
      (single : y.head? ≠ some '\x7b') (inner : Inside .hole y (x ++ rest))
      (more : Inside (.text form) x rest) : Inside (.text form) ('\x7b' :: (y ++ x)) rest
  | brace {rest : List Char} : Inside .hole ['\x7d'] rest
  /-- Any other character in a hole stands for itself, unless it opens a string. -/
  | code {c : Char} {x rest : List Char} (ordinary : c ∉ ['\x7b', '\x7d', '\x27'])
      (alone : ∀ o ∈ openings, ¬ o <+: c :: (x ++ rest)) (more : Inside .hole x rest) :
      Inside .hole (c :: x) rest
  | nested {y x rest : List Char} (inner : Inside .hole y (x ++ rest)) (more : Inside .hole x rest) :
      Inside .hole ('\x7b' :: (y ++ x)) rest
  | string {form : StringForm} {o y x rest : List Char} (opens : o ∈ form.openings)
      (inner : Inside (.text form) y (x ++ rest)) (more : Inside .hole x rest) :
      Inside .hole (o ++ (y ++ x)) rest
  | character {y x rest : List Char} (isCharacter : IsCharacter y) (more : Inside .hole x rest) :
      Inside .hole (y ++ x) rest

/-- A string literal of the form, with `rest` behind it. -/
def IsString (form : StringForm) (x rest : List Char) : Prop :=
  ∃ o ∈ form.openings, ∃ y, x = o ++ y ∧ Inside (.text form) y rest

theorem Inside.ne_nil {construct : Construct} {x rest : List Char} (h : Inside construct x rest) :
    x ≠ [] := by
  induction h with
  | quote _ => exact List.cons_ne_nil _ _
  | plain _ _ _ => exact List.cons_ne_nil _ _
  | escape _ _ _ ih => exact List.append_ne_nil_of_right_ne_nil _ ih
  | doubledQuote _ _ _ => exact List.cons_ne_nil _ _
  | doubledBrace _ _ _ _ => exact List.cons_ne_nil _ _
  | hole _ _ _ _ _ _ => exact List.cons_ne_nil _ _
  | brace => exact List.cons_ne_nil _ _
  | code _ _ _ _ => exact List.cons_ne_nil _ _
  | nested _ _ _ _ => exact List.cons_ne_nil _ _
  | string _ _ _ _ ih =>
      exact List.append_ne_nil_of_right_ne_nil _ (List.append_ne_nil_of_right_ne_nil _ ih)
  | character _ _ ih => exact List.append_ne_nil_of_right_ne_nil _ ih

/-- No quote stands behind a verbatim string. -/
theorem IsString.head?_ne {form : StringForm} {x rest : List Char} (h : IsString form x rest)
    (hverbatim : form.isVerbatim = true) : rest.head? ≠ some '"' := by
  obtain ⟨_, _, y, -, hinside⟩ := h
  generalize hconstruct : Construct.text form = construct at hinside
  induction hinside with
  | quote single =>
      cases hconstruct
      exact single hverbatim
  | plain _ _ ih => exact ih hconstruct
  | escape _ _ _ ih => exact ih hconstruct
  | doubledQuote _ _ ih => exact ih hconstruct
  | doubledBrace _ _ _ ih => exact ih hconstruct
  | hole _ _ _ _ _ ih => exact ih hconstruct
  | brace => cases hconstruct
  | code _ _ _ _ => cases hconstruct
  | nested _ _ _ _ => cases hconstruct
  | string _ _ _ _ _ => cases hconstruct
  | character _ _ _ => cases hconstruct

/-! ## Steps -/

section Steps

variable {here start extra count : Nat} {c : Char} {rest : List Char} {inner : List Frame}

theorem opener?_eq_some {text : List Char} {frame : Frame} (h : opener? start text = some (count, frame)) :
    ∃ form : StringForm, ∃ o ∈ form.openings, ∃ y,
      text = o ++ y ∧ o.length = count ∧ frame = form.frame start := by
  unfold opener? at h
  split at h
  · cases h
    exact ⟨.verbatimInterpolated, ['$', '@', '"'], by decide, _, rfl, rfl, rfl⟩
  · cases h
    exact ⟨.verbatimInterpolated, ['@', '$', '"'], by decide, _, rfl, rfl, rfl⟩
  · cases h
    exact ⟨.interpolated, ['$', '"'], by decide, _, rfl, rfl, rfl⟩
  · cases h
    exact ⟨.verbatim, ['@', '"'], by decide, _, rfl, rfl, rfl⟩
  · cases h
    exact ⟨.regular, ['"'], by decide, _, rfl, rfl, rfl⟩
  · cases h

theorem opener?_opening {form : StringForm} {o : List Char} (ho : o ∈ form.openings) (start : Nat)
    (y : List Char) : opener? start (o ++ y) = some (o.length, form.frame start) := by
  cases form with
  | regular =>
      obtain rfl := List.mem_singleton.mp ho
      rfl
  | verbatim =>
      obtain rfl := List.mem_singleton.mp ho
      rfl
  | interpolated =>
      obtain rfl := List.mem_singleton.mp ho
      rfl
  | verbatimInterpolated =>
      simp only [StringForm.openings, List.mem_cons, List.not_mem_nil, or_false] at ho
      rcases ho with rfl | rfl
      · rfl
      · rfl

theorem opener?_eq_none_iff {text : List Char} :
    opener? start text = none ↔ ∀ o ∈ openings, ¬ o <+: text := by
  constructor
  · rintro h o ho ⟨y, rfl⟩
    have hopens := opener?_isSome start ho y
    rw [h] at hopens
    exact Bool.noConfusion hopens
  · intro h
    apply Option.not_isSome_iff_eq_none.mp
    intro hsome
    obtain ⟨o, ho, hpre⟩ := exists_opening hsome
    exact h o ho hpre

theorem regularMove_iff {frame : Frame} : regularMove start here frame c rest = .take extra inner ↔
    (c = '"' ∧ extra = 0 ∧ inner = []) ∨ (c = '\\' ∧ escape rest = .ok extra ∧ inner = [frame]) ∨
      (c ∉ ['"', '\\', '\n', '\r'] ∧ extra = 0 ∧ inner = [frame]) := by
  simp only [regularMove, escapeMove, endsLine]
  grind

theorem verbatimMove_iff {frame : Frame} : verbatimMove frame c rest = .take extra inner ↔
    (c = '"' ∧ rest.head? ≠ some '"' ∧ extra = 0 ∧ inner = []) ∨
      (c = '"' ∧ rest.head? = some '"' ∧ extra = 1 ∧ inner = [frame]) ∨
      (c ≠ '"' ∧ extra = 0 ∧ inner = [frame]) := by
  simp only [verbatimMove]
  grind

theorem interpolatedMove_iff {isVerbatim : Bool} {frame : Frame} :
    interpolatedMove start here isVerbatim frame c rest = .take extra inner ↔
      ((c = '\x7b' ∨ c = '\x7d') ∧ rest.head? = some c ∧ extra = 1 ∧ inner = [frame]) ∨
      (c = '\x7b' ∧ rest.head? ≠ some c ∧ extra = 0 ∧ inner = [.hole here, frame]) ∨
      (c ≠ '\x7b' ∧ c ≠ '\x7d' ∧ (if isVerbatim then verbatimMove frame c rest
        else regularMove start here frame c rest) = .take extra inner) := by
  unfold interpolatedMove
  grind

/-- What a step inside the text of a string can do. -/
theorem textMove_iff (form : StringForm) :
    (form.frame start).move here c rest = .take extra inner ↔
      (c = '"' ∧ extra = 0 ∧ inner = [] ∧ (form.isVerbatim = true → rest.head? ≠ some '"')) ∨
      (c ∉ form.specials ∧ extra = 0 ∧ inner = [form.frame start]) ∨
      (form.isVerbatim = false ∧ c = '\\' ∧ escape rest = .ok extra ∧ inner = [form.frame start]) ∨
      (form.isVerbatim = true ∧ c = '"' ∧ rest.head? = some '"' ∧ extra = 1 ∧
        inner = [form.frame start]) ∨
      (form.isInterpolated = true ∧ (c = '\x7b' ∨ c = '\x7d') ∧ rest.head? = some c ∧ extra = 1 ∧
        inner = [form.frame start]) ∨
      (form.isInterpolated = true ∧ c = '\x7b' ∧ rest.head? ≠ some c ∧ extra = 0 ∧
        inner = [.hole here, form.frame start]) := by
  cases form with
  | regular =>
      simp only [StringForm.frame, Frame.move, regularMove_iff, StringForm.isVerbatim,
        StringForm.isInterpolated, StringForm.specials]
      grind
  | verbatim =>
      simp only [StringForm.frame, Frame.move, verbatimMove_iff, StringForm.isVerbatim,
        StringForm.isInterpolated, StringForm.specials]
      grind
  | interpolated =>
      simp only [StringForm.frame, Frame.move, interpolatedMove_iff, Bool.false_eq_true, if_false,
        regularMove_iff, StringForm.isVerbatim, StringForm.isInterpolated, StringForm.specials]
      grind
  | verbatimInterpolated =>
      simp only [StringForm.frame, Frame.move, interpolatedMove_iff, if_true, verbatimMove_iff,
        StringForm.isVerbatim, StringForm.isInterpolated, StringForm.specials]
      constructor <;> grind

/-- What a step inside a hole can do. -/
theorem holeMove_iff :
    (Frame.hole start).move here c rest = .take extra inner ↔
      (c = '\x7d' ∧ extra = 0 ∧ inner = []) ∨
      (c = '\x7b' ∧ extra = 0 ∧ inner = [.hole here, .hole start]) ∨
      (c = '\x27' ∧ extra = 0 ∧ inner = [.character here false, .hole start]) ∨
      (c ∉ ['\x7b', '\x7d', '\x27'] ∧
        ∃ frame, opener? here (c :: rest) = some (extra + 1, frame) ∧ inner = [frame, .hole start]) ∨
      (c ∉ ['\x7b', '\x7d', '\x27'] ∧ opener? here (c :: rest) = none ∧ extra = 0 ∧
        inner = [.hole start]) := by
  simp only [Frame.move, holeMove]
  cases hopener : opener? here (c :: rest) with
  | none => grind
  | some opened =>
      obtain ⟨count, frame⟩ := opened
      obtain ⟨_, _, _, _, hpos, _⟩ := opener?_some hopener
      grind

end Steps

/-! ## Reading -/

section Reading

variable {here start stop extra : Nat} {c : Char} {text rest : List Char} {frame : Frame}
  {inner outer : List Frame}

theorem close_of_move (h : frame.move here c rest = .take extra inner) :
    close (frame :: outer) here (c :: rest) = close (inner ++ outer) (here + 1 + extra) (rest.drop extra) := by
  rw [close.eq_def]
  simp only [h]

theorem move_of_close (h : close (frame :: outer) here text = .ok stop) :
    ∃ c rest extra inner, text = c :: rest ∧ frame.move here c rest = .take extra inner ∧
      close (inner ++ outer) (here + 1 + extra) (rest.drop extra) = .ok stop := by
  cases text with
  | nil =>
      rw [close.eq_def] at h
      cases h
  | cons c rest =>
      cases hmove : frame.move here c rest with
      | take extra inner =>
          rw [close_of_move hmove] at h
          exact ⟨c, rest, extra, inner, rfl, hmove, h⟩
      | «break» fault =>
          rw [close.eq_def] at h
          simp only [hmove] at h
          cases h

/-- After its content, a character is closed by its quote alone. -/
theorem close_filled (h : close (.character start true :: outer) here text = .ok stop) :
    ∃ rest, text = '\x27' :: rest ∧ close outer (here + 1) rest = .ok stop := by
  obtain ⟨c, rest, extra, inner, rfl, hmove, hclose⟩ := move_of_close h
  simp only [Frame.move, characterMove, if_true] at hmove
  split at hmove
  · rename_i hc
    cases hmove
    rw [hc]
    exact ⟨rest, rfl, hclose⟩
  · cases hmove

/-- A character that was read is one. -/
theorem isCharacter_of_close (h : close (.character start false :: outer) here text = .ok stop) :
    ∃ y rest, text = y ++ rest ∧ IsCharacter ('\x27' :: y) ∧ close outer (here + y.length) rest = .ok stop := by
  obtain ⟨c, rest, extra, inner, rfl, hmove, hclose⟩ := move_of_close h
  simp only [Frame.move, characterMove, escapeMove, Bool.false_eq_true, if_false] at hmove
  split at hmove
  · rename_i hc
    split at hmove
    · rename_i count hescape
      cases hmove
      subst hc
      obtain ⟨e, behind, rfl, rfl, hisEscape⟩ := isEscape_of_escape hescape
      rw [List.drop_left] at hclose
      obtain ⟨more, rfl, hdone⟩ := close_filled hclose
      have hlength : here + ('\\' :: e ++ ['\x27']).length = here + 1 + e.length + 1 := by
        simp only [List.length_append, List.length_cons, List.length_nil]
        omega
      refine ⟨'\\' :: e ++ ['\x27'], more, by simp, .escape (hisEscape.congr rfl), ?_⟩
      rw [hlength]
      exact hdone
    · cases hmove
  · rename_i hbackslash
    split at hmove
    · cases hmove
    · rename_i hordinary
      cases hmove
      obtain ⟨more, hmore, hdone⟩ := close_filled hclose
      rw [List.drop_zero] at hmore
      subst hmore
      refine ⟨[c, '\x27'], more, rfl, .plain ?_, hdone⟩
      simp only [endsLine, Bool.or_eq_true, decide_eq_true_eq, beq_iff_eq, not_or] at hordinary
      simp only [List.mem_cons, List.not_mem_nil, or_false, not_or]
      exact ⟨hordinary.1, hbackslash, hordinary.2⟩

/-- A character is read to its end. -/
theorem close_of_isCharacter {y : List Char} (h : IsCharacter ('\x27' :: y)) :
    close (.character start false :: outer) here (y ++ rest) = close outer (here + y.length) rest := by
  have hfilled (here : Nat) : close (.character start true :: outer) here ('\x27' :: rest) =
      close outer (here + 1) rest := by
    have hmove : (Frame.character start true).move here '\x27' rest = .take 0 [] := rfl
    rw [close_of_move hmove]
    rfl
  cases h with
  | @plain c ordinary =>
      simp only [List.mem_cons, List.not_mem_nil, or_false, not_or] at ordinary
      have hmove : (Frame.character start false).move here c ('\x27' :: rest) =
          .take 0 [.character start true] := by
        simp [Frame.move, characterMove, endsLine, ordinary]
      show close (.character start false :: outer) here (c :: '\x27' :: rest) = _
      rw [close_of_move hmove]
      exact hfilled _
  | @escape e isEscape =>
      obtain ⟨e, rfl⟩ := isEscape.cons_eq
      have hescape : escape (e ++ '\x27' :: rest) = .ok e.length :=
        escape_of_isEscape (isEscape.congr rfl)
      have hmove : (Frame.character start false).move here '\\' (e ++ '\x27' :: rest) =
          .take e.length [.character start true] := by
        simp [Frame.move, characterMove, escapeMove, hescape]
      have htext : '\\' :: e ++ ['\x27'] ++ rest = '\\' :: (e ++ '\x27' :: rest) := by simp
      rw [htext, close_of_move hmove, List.drop_left]
      have hlength : here + ('\\' :: e ++ ['\x27']).length = here + 1 + e.length + 1 := by
        simp only [List.length_append, List.length_cons, List.length_nil]
        omega
      rw [hlength]
      exact hfilled _

/-- What was read of a construct goes on as the construct does, up to its end; the constructs around it
are read on from there. The induction is on the length of the text, since a step puts new constructs on
top of the one that it looks at. -/
theorem inside_of_close (construct : Construct)
    (h : close (construct.frame start :: outer) here text = .ok stop) :
    ∃ x rest there, text = x ++ rest ∧ Inside construct x rest ∧ there = here + x.length ∧
      close outer there rest = .ok stop := by
  induction hlen : text.length using Nat.strongRecOn generalizing construct start outer here text with
  | ind n ih =>
      obtain ⟨c, rest, extra, inner, rfl, hmove, hclose⟩ := move_of_close h
      rw [List.length_cons] at hlen
      -- What follows the step is shorter, so it is read as its construct demands.
      have hnext (construct : Construct) {start here : Nat} {outer : List Frame} {text : List Char}
          (hclose : close (construct.frame start :: outer) here text = .ok stop)
          (hshort : text.length ≤ rest.length) :
          ∃ x rest there, text = x ++ rest ∧ Inside construct x rest ∧ there = here + x.length ∧
            close outer there rest = .ok stop :=
        ih text.length (by omega) construct hclose rfl
      cases construct with
      | text form =>
          rcases (textMove_iff form).mp hmove with ⟨rfl, rfl, rfl, hsingle⟩ | ⟨hc, rfl, rfl⟩ |
            ⟨hescapes, rfl, hescape, rfl⟩ | ⟨hdoubles, rfl, hhead, rfl, rfl⟩ |
            ⟨hholes, hbrace, hhead, rfl, rfl⟩ | ⟨hholes, rfl, hhead, rfl, rfl⟩
          · exact ⟨['"'], rest, _, rfl, .quote hsingle, rfl, hclose⟩
          · obtain ⟨x, behind, there, rfl, hmore, hthere, hdone⟩ := hnext (.text form) hclose (by simp)
            exact ⟨c :: x, behind, there, rfl, .plain hc hmore, by grind, hdone⟩
          · obtain ⟨e, after, rfl, rfl, hisEscape⟩ := isEscape_of_escape hescape
            rw [List.drop_left] at hclose
            obtain ⟨x, behind, there, rfl, hmore, hthere, hdone⟩ := hnext (.text form) hclose (by simp)
            exact ⟨'\\' :: e ++ x, behind, there, by simp, .escape hescapes hisEscape hmore, by grind, hdone⟩
          · obtain ⟨after, rfl⟩ := List.head?_eq_some_iff.mp hhead
            obtain ⟨x, behind, there, rfl, hmore, hthere, hdone⟩ := hnext (.text form) hclose (by simp)
            exact ⟨'"' :: '"' :: x, behind, there, rfl, .doubledQuote hdoubles hmore, by grind, hdone⟩
          · obtain ⟨after, rfl⟩ := List.head?_eq_some_iff.mp hhead
            obtain ⟨x, behind, there, rfl, hmore, hthere, hdone⟩ := hnext (.text form) hclose (by simp)
            exact ⟨c :: c :: x, behind, there, rfl, .doubledBrace hholes hbrace hmore, by grind, hdone⟩
          · obtain ⟨y, after, within, rfl, hinner, hwithin, hclose⟩ := hnext .hole hclose (by simp)
            obtain ⟨x, behind, there, rfl, hmore, hthere, hdone⟩ := hnext (.text form) hclose (by simp)
            have hsingle : y.head? ≠ some '\x7b' := by
              obtain ⟨d, y, rfl⟩ := List.exists_cons_of_ne_nil hinner.ne_nil
              exact hhead
            exact ⟨'\x7b' :: (y ++ x), behind, there, by simp, .hole hholes hsingle hinner hmore,
              by grind, hdone⟩
      | hole =>
          rcases holeMove_iff.mp hmove with ⟨rfl, rfl, rfl⟩ | ⟨rfl, rfl, rfl⟩ | ⟨rfl, rfl, rfl⟩ |
            ⟨_, frame, hopener, rfl⟩ | ⟨hc, hopener, rfl, rfl⟩
          · exact ⟨['\x7d'], rest, _, rfl, .brace, rfl, hclose⟩
          · obtain ⟨y, after, within, rfl, hinner, hwithin, hclose⟩ := hnext .hole hclose (by simp)
            obtain ⟨x, behind, there, rfl, hmore, hthere, hdone⟩ := hnext .hole hclose (by simp)
            exact ⟨'\x7b' :: (y ++ x), behind, there, by simp, .nested hinner hmore, by grind, hdone⟩
          · obtain ⟨y, after, rfl, hcharacter, hclose⟩ := isCharacter_of_close hclose
            obtain ⟨x, behind, there, rfl, hmore, hthere, hdone⟩ := hnext .hole hclose (by simp)
            exact ⟨'\x27' :: y ++ x, behind, there, by simp, .character hcharacter hmore, by grind, hdone⟩
          · obtain ⟨form, o, hopens, more, htext, hcount, rfl⟩ := opener?_eq_some hopener
            have hdrop : rest.drop extra = more := by
              rw [← List.drop_succ_cons, htext, ← hcount, List.drop_left]
            rw [hdrop] at hclose
            have hlength := congrArg List.length htext
            simp only [List.length_cons, List.length_append] at hlength
            obtain ⟨y, after, within, rfl, hinner, hwithin, hclose⟩ :=
              hnext (.text form) hclose (by omega)
            obtain ⟨x, behind, there, rfl, hmore, hthere, hdone⟩ := hnext .hole hclose (by grind)
            exact ⟨o ++ (y ++ x), behind, there, by simp [htext], .string hopens hinner hmore, by grind, hdone⟩
          · obtain ⟨x, behind, there, rfl, hmore, hthere, hdone⟩ := hnext .hole hclose (by simp)
            exact ⟨c :: x, behind, there, rfl, .code hc (opener?_eq_none_iff.mp hopener) hmore, by grind, hdone⟩

/-- A construct that goes on to its end is read to there. -/
theorem close_of_inside {construct : Construct} {x : List Char} (h : Inside construct x rest) :
    ∀ start here outer there, there = here + x.length →
      close (construct.frame start :: outer) here (x ++ rest) = close outer there rest := by
  have hleads : ∀ c ∈ ['"', '$', '@'], c ∉ ['\x7b', '\x7d', '\x27'] := by simp
  induction h with
  | @quote form rest single =>
      rintro start here outer there rfl
      exact close_of_move ((textMove_iff form).mpr (.inl ⟨rfl, rfl, rfl, single⟩))
  | @plain form c x rest ordinary _ ih =>
      intro start here outer there hthere
      have hmove : (form.frame start).move here c (x ++ rest) = .take 0 [form.frame start] :=
        (textMove_iff form).mpr (.inr (.inl ⟨ordinary, rfl, rfl⟩))
      exact (close_of_move hmove).trans (ih start _ outer there (by grind))
  | @escape form e x rest escapes isEscape _ ih =>
      intro start here outer there hthere
      obtain ⟨e, rfl⟩ := isEscape.cons_eq
      have hmove : (form.frame start).move here '\\' (e ++ (x ++ rest)) =
          .take e.length [form.frame start] :=
        (textMove_iff form).mpr (.inr (.inr (.inl ⟨escapes, rfl, escape_of_isEscape isEscape, rfl⟩)))
      rw [List.append_assoc, List.cons_append]
      show close (form.frame start :: outer) here _ = _
      rw [close_of_move hmove, List.drop_left]
      exact ih start _ outer there (by grind)
  | @doubledQuote form x rest doubles _ ih =>
      intro start here outer there hthere
      have hmove : (form.frame start).move here '"' ('"' :: (x ++ rest)) = .take 1 [form.frame start] :=
        (textMove_iff form).mpr (.inr (.inr (.inr (.inl ⟨doubles, rfl, rfl, rfl, rfl⟩))))
      exact (close_of_move hmove).trans (ih start _ outer there (by grind))
  | @doubledBrace form c x rest holes brace _ ih =>
      intro start here outer there hthere
      have hmove : (form.frame start).move here c (c :: (x ++ rest)) = .take 1 [form.frame start] :=
        (textMove_iff form).mpr (.inr (.inr (.inr (.inr (.inl ⟨holes, brace, rfl, rfl, rfl⟩)))))
      exact (close_of_move hmove).trans (ih start _ outer there (by grind))
  | @hole form y x rest holes single inner _ ihInner ih =>
      intro start here outer there hthere
      have hhead : (y ++ (x ++ rest)).head? ≠ some '\x7b' := by
        obtain ⟨d, y, rfl⟩ := List.exists_cons_of_ne_nil inner.ne_nil
        exact single
      have hmove : (form.frame start).move here '\x7b' (y ++ (x ++ rest)) =
          .take 0 [.hole here, form.frame start] :=
        (textMove_iff form).mpr (.inr (.inr (.inr (.inr (.inr ⟨holes, rfl, hhead, rfl, rfl⟩)))))
      rw [List.cons_append, List.append_assoc]
      exact (close_of_move hmove).trans ((ihInner here _ _ _ rfl).trans (ih start _ outer there (by grind)))
  | brace =>
      rintro start here outer there rfl
      exact close_of_move (holeMove_iff.mpr (.inl ⟨rfl, rfl, rfl⟩))
  | @code c x rest ordinary alone _ ih =>
      intro start here outer there hthere
      have hmove : (Frame.hole start).move here c (x ++ rest) = .take 0 [.hole start] :=
        holeMove_iff.mpr (.inr (.inr (.inr (.inr ⟨ordinary, opener?_eq_none_iff.mpr alone, rfl, rfl⟩))))
      exact (close_of_move hmove).trans (ih start _ outer there (by grind))
  | @nested y x rest _ _ ihInner ih =>
      intro start here outer there hthere
      have hmove : (Frame.hole start).move here '\x7b' (y ++ (x ++ rest)) =
          .take 0 [.hole here, .hole start] :=
        holeMove_iff.mpr (.inr (.inl ⟨rfl, rfl, rfl⟩))
      rw [List.cons_append, List.append_assoc]
      exact (close_of_move hmove).trans ((ihInner here _ _ _ rfl).trans (ih start _ outer there (by grind)))
  | @string form o y x rest opens _ _ ihInner ih =>
      intro start here outer there hthere
      obtain ⟨c, o, rfl, hlead⟩ := StringForm.opening_cons opens
      have hc : c ∉ ['\x7b', '\x7d', '\x27'] := hleads c hlead
      have hopener : opener? here (c :: (o ++ (y ++ (x ++ rest)))) = some (o.length + 1, form.frame here) :=
        opener?_opening opens here _
      have hmove : (Frame.hole start).move here c (o ++ (y ++ (x ++ rest))) =
          .take o.length [form.frame here, .hole start] :=
        holeMove_iff.mpr (.inr (.inr (.inr (.inl ⟨hc, _, hopener, rfl⟩))))
      rw [List.append_assoc, List.append_assoc, List.cons_append]
      show close (.hole start :: outer) here _ = _
      rw [close_of_move hmove, List.drop_left]
      exact (ihInner here _ _ _ rfl).trans (ih start _ outer there (by grind))
  | @character y x rest isCharacter _ ih =>
      intro start here outer there hthere
      obtain ⟨y, rfl⟩ := isCharacter.cons_eq
      have hmove : (Frame.hole start).move here '\x27' (y ++ (x ++ rest)) =
          .take 0 [.character here false, .hole start] :=
        holeMove_iff.mpr (.inr (.inr (.inl ⟨rfl, rfl, rfl⟩)))
      rw [List.append_assoc, List.cons_append]
      exact (close_of_move hmove).trans
        ((close_of_isCharacter isCharacter).trans (ih start _ outer there (by grind)))

/-- The reader of strings finds the string literals, and nothing else. -/
theorem string?_eq_ok_iff {x : List Char} :
    string? (x ++ rest) = some (.ok x.length) ↔ ∃ form, IsString form x rest := by
  constructor
  · intro h
    unfold string? at h
    split at h
    · rename_i count frame hopener
      obtain ⟨form, o, hopens, more, htext, rfl, rfl⟩ := opener?_eq_some hopener
      rw [htext, List.drop_left] at h
      obtain ⟨y, behind, there, rfl, hinside, hthere, hdone⟩ :=
        inside_of_close (.text form) (Option.some.inj h)
      rw [close.eq_def] at hdone
      cases hdone
      have hsplit : x ++ rest = (o ++ y) ++ behind := by rw [htext, List.append_assoc]
      obtain ⟨rfl, rfl⟩ := List.append_inj hsplit (by simp [hthere])
      exact ⟨form, o, hopens, y, rfl, hinside⟩
    · cases h
  · rintro ⟨form, o, hopens, y, rfl, hinside⟩
    have hclose := close_of_inside hinside 0 o.length [] _ rfl
    unfold string?
    rw [List.append_assoc, opener?_opening hopens]
    simp only [List.drop_left]
    refine congrArg some (hclose.trans ?_)
    rw [close.eq_def, List.length_append]

/-- The reader of characters finds the character literals, and nothing else. -/
theorem character?_eq_ok_iff {x : List Char} :
    character? (x ++ rest) = some (.ok x.length) ↔ IsCharacter x := by
  constructor
  · intro h
    unfold character? at h
    split at h
    · rename_i more htext
      obtain ⟨y, behind, rfl, hcharacter, hdone⟩ := isCharacter_of_close (Option.some.inj h)
      rw [close.eq_def] at hdone
      have hlength := Except.ok.inj hdone
      have hsplit : x ++ rest = ('\x27' :: y) ++ behind := htext
      obtain ⟨rfl, rfl⟩ := List.append_inj hsplit (by grind)
      exact hcharacter
    · cases h
  · intro h
    obtain ⟨y, rfl⟩ := h.cons_eq
    have hclose : close [.character 0 false] 1 (y ++ rest) = close [] (1 + y.length) rest :=
      close_of_isCharacter h
    show some (close [.character 0 false] 1 (y ++ rest)) = _
    rw [hclose, close.eq_def, List.length_cons, Nat.add_comm]

end Reading

end ClassChart.Literal
