/-
# ClassChart.Proofs.Token.Faults — where a text breaks

A fault names two offsets of the text it was found in: where the offending construct begins, and where
reading stopped. The first is that of the innermost construct, the second may be that of an outer one: a
hole that is never closed is charged to the string around it. So it is not plain that the first offset is
the smaller one, nor that reading has moved at all. Both follow from how open constructs are stacked: each
of them begins behind the one around it, and all of them before the place that reading has come to.
-/
import ClassChart.Proofs.Token.Quoted

namespace ClassChart

/-- Whether the code is that of a broken literal. -/
def ErrorCode.isLiteral : ErrorCode → Bool
  | unterminatedString => true
  | invalidEscape => true
  | unterminatedCharacter => true
  | _ => false

namespace Literal

open Lexeme

/-! ## The stack of open constructs -/

/-- Where the construct begins. -/
def Frame.start : Frame → Nat
  | regular start => start
  | verbatim start => start
  | interpolated start _ => start
  | hole opened => opened
  | character start _ => start

/-- The construct begins before the offset. No text begins with a hole. -/
def Frame.BeginsBefore (here : Nat) (frame : Frame) : Prop :=
  frame.start < here ∧ ∀ opened, frame = .hole opened → 0 < opened

/-- The innermost construct begins before the offset, and each other one before the one inside it. -/
def Stacked : Nat → List Frame → Prop
  | _, [] => True
  | here, frame :: outer => frame.BeginsBefore here ∧ Stacked frame.start outer

/-- A fault of a literal in a text of the given length: reading stopped behind the start of the
construct, and within the text. -/
structure Fault.InLiteral (length : Nat) (fault : Fault) : Prop where
  code : fault.code.isLiteral = true
  start_lt : fault.start < fault.stop
  stop_le : fault.stop ≤ length

/-- What a move may be at the offset `here`, inside a construct that begins at `start` and with `left`
characters behind: it takes no more than there are and keeps the stack, or it breaks the literal. -/
def Move.Sound (start here left : Nat) : Move → Prop
  | take extra inner => extra ≤ left ∧
      ∀ outer, Stacked start outer → Stacked (here + 1 + extra) (inner ++ outer)
  | .break fault => fault.InLiteral (here + 1 + left)

section Moves

variable {start here : Nat} {frame : Frame} {c : Char} {rest : List Char}

/-- A construct begins before every later offset. -/
theorem Frame.BeginsBefore.mono {there : Nat} (h : frame.BeginsBefore here) (hle : here ≤ there) :
    frame.BeginsBefore there :=
  ⟨Nat.lt_of_lt_of_le h.1 hle, h.2⟩

/-- To go on inside the construct keeps the stack. -/
theorem sound_stay (h : frame.BeginsBefore here) {extra : Nat} (hextra : extra ≤ rest.length) :
    (Move.take extra [frame]).Sound frame.start here rest.length :=
  ⟨hextra, fun _ houter => ⟨h.mono (by omega), houter⟩⟩

/-- To close the construct keeps the stack, since the one around it begins earlier still. -/
theorem sound_close (h : frame.BeginsBefore here) :
    (Move.take 0 []).Sound frame.start here rest.length := by
  refine ⟨Nat.zero_le _, fun outer houter => ?_⟩
  cases outer with
  | nil => trivial
  | cons next outer => exact ⟨houter.1.mono (Nat.le_of_lt (Nat.lt_trans h.1 (by omega))), houter.2⟩

/-- To open a construct keeps the stack. -/
theorem sound_open (h : frame.BeginsBefore here) {inner : Frame} (hstart : inner.start = here)
    {extra : Nat} (hextra : extra ≤ rest.length) :
    (Move.take extra [inner, frame]).Sound frame.start here rest.length := by
  refine ⟨hextra, fun outer houter => ⟨⟨by omega, ?_⟩, ?_⟩⟩
  · rintro opened rfl
    have hopened : opened = here := hstart
    have hlt := h.1
    omega
  · rw [hstart]
    exact ⟨h, houter⟩

/-- What breaks where it stands, behind the start of its construct, stops within the text. -/
theorem sound_break {code : ErrorCode} (hcode : code.isLiteral = true) (hstart : start < here) :
    (Move.break ⟨code, start, here⟩).Sound start here rest.length :=
  ⟨hcode, hstart, by show here ≤ here + 1 + rest.length; omega⟩

theorem head?_length {d : Char} (h : rest.head? = some d) : 1 ≤ rest.length := by
  obtain ⟨more, rfl⟩ := List.head?_eq_some_iff.mp h
  exact Nat.succ_le_succ (Nat.zero_le _)

/-- A broken escape stops behind the backslash, or behind the letter that was read. -/
theorem escape_error_le {count : Nat} (h : escape rest = .error count) : count ≤ rest.length := by
  cases rest with
  | nil =>
      cases h
      exact Nat.zero_le _
  | cons d rest =>
      have hcount : count ≤ 1 := by
        unfold escape at h
        grind
      exact Nat.le_trans hcount (Nat.succ_le_succ (Nat.zero_le _))

theorem escapeMove_sound {next : Frame} (h : next.BeginsBefore here) :
    (escapeMove here [next] rest).Sound next.start here rest.length := by
  unfold escapeMove
  split
  · rename_i count hescape
    obtain ⟨e, behind, rfl, rfl, _⟩ := isEscape_of_escape hescape
    exact sound_stay h (by simp)
  · rename_i count hescape
    have hle := escape_error_le hescape
    refine ⟨rfl, ?_, ?_⟩
    · show here < here + 1 + count
      omega
    · show here + 1 + count ≤ here + 1 + rest.length
      omega

theorem regularMove_sound (h : frame.BeginsBefore here) :
    (regularMove frame.start here frame c rest).Sound frame.start here rest.length := by
  unfold regularMove
  split
  · exact sound_close h
  · split
    · exact escapeMove_sound h
    · split
      · exact sound_break rfl h.1
      · exact sound_stay h (Nat.zero_le _)

theorem verbatimMove_sound (h : frame.BeginsBefore here) :
    (verbatimMove frame c rest).Sound frame.start here rest.length := by
  unfold verbatimMove
  split
  · split
    · rename_i hdouble
      exact sound_stay h (head?_length hdouble)
    · exact sound_close h
  · exact sound_stay h (Nat.zero_le _)

theorem interpolatedMove_sound {isVerbatim : Bool} (h : frame.BeginsBefore here) :
    (interpolatedMove frame.start here isVerbatim frame c rest).Sound frame.start here rest.length := by
  unfold interpolatedMove
  split
  · rename_i hdouble
    exact sound_stay h (head?_length hdouble.2)
  · split
    · exact sound_open h rfl (Nat.zero_le _)
    · split
      · exact sound_break rfl h.1
      · split
        · exact verbatimMove_sound h
        · exact regularMove_sound h

/-- A string that is opened begins where it is opened. -/
theorem opener?_start {there count : Nat} {text : List Char} {inner : Frame}
    (h : opener? there text = some (count, inner)) : inner.start = there ∧ count ≤ text.length := by
  obtain ⟨form, o, _, y, rfl, rfl, rfl⟩ := opener?_eq_some h
  refine ⟨?_, by simp⟩
  cases form <;> rfl

theorem holeMove_sound (h : frame.BeginsBefore here) :
    (holeMove here frame c rest).Sound frame.start here rest.length := by
  unfold holeMove
  split
  · exact sound_close h
  · split
    · exact sound_open h rfl (Nat.zero_le _)
    · split
      · exact sound_open h rfl (Nat.zero_le _)
      · split
        · rename_i count inner hopener
          obtain ⟨hstart, hcount⟩ := opener?_start hopener
          rw [List.length_cons] at hcount
          exact sound_open h hstart (by omega)
        · exact sound_stay h (Nat.zero_le _)

theorem characterMove_sound {isFilled : Bool} (h : start < here) :
    (characterMove start here isFilled c rest).Sound start here rest.length := by
  -- Before and behind its content, the literal begins at the same place.
  have hframe (filled : Bool) : (Frame.character start filled).BeginsBefore here :=
    ⟨h, fun _ hhole => Frame.noConfusion hhole⟩
  unfold characterMove
  split
  · split
    · exact sound_close (hframe true)
    · exact sound_break rfl h
  · split
    · exact escapeMove_sound (hframe true)
    · split
      · exact sound_break rfl h
      · exact sound_stay (hframe true) (Nat.zero_le _)

theorem Frame.move_sound (h : frame.BeginsBefore here) :
    (frame.move here c rest).Sound frame.start here rest.length := by
  cases frame with
  | regular start => exact regularMove_sound h
  | verbatim start => exact verbatimMove_sound h
  | interpolated start isVerbatim => exact interpolatedMove_sound h
  | hole opened => exact holeMove_sound h
  | character start isFilled => exact characterMove_sound h.1

end Moves

/-! ## Whole literals -/

/-- A text that ends inside constructs breaks behind the start of the one that is charged. -/
theorem unclosed_inLiteral {stop length : Nat} {frames : List Frame} (h : Stacked stop frames)
    (hpos : 0 < stop) (hle : stop ≤ length) : (unclosed stop frames).InLiteral length := by
  induction frames generalizing stop with
  | nil => exact ⟨rfl, hpos, hle⟩
  | cons frame outer ih =>
      obtain ⟨⟨hstart, hhole⟩, houter⟩ := h
      cases frame with
      | hole opened => exact ih houter (hhole opened rfl) (Nat.le_trans (Nat.le_of_lt hstart) hle)
      | regular start => exact ⟨rfl, hstart, hle⟩
      | verbatim start => exact ⟨rfl, hstart, hle⟩
      | interpolated start isVerbatim => exact ⟨rfl, hstart, hle⟩
      | character start isFilled => exact ⟨rfl, hstart, hle⟩

/-- However deep a literal nests, it breaks behind the start of what is broken and within the text. -/
theorem close_inLiteral {frames : List Frame} {here : Nat} {text : List Char} {fault : Fault}
    (hclose : close frames here text = .error fault) (hstack : Stacked here frames) (hpos : 0 < here) :
    fault.InLiteral (here + text.length) := by
  fun_induction close frames here text with
  | case1 => cases hclose
  | case2 here frames _ =>
      cases hclose
      exact unclosed_inLiteral hstack hpos (Nat.le_refl _)
  | case3 here frame outer c rest extra inner hmove ih =>
      have hsound : (frame.move here c rest).Sound frame.start here rest.length :=
        Frame.move_sound hstack.1
      rw [hmove] at hsound
      obtain ⟨hextra, hinner⟩ := hsound
      have hfault := ih hclose (hinner outer hstack.2) (by omega)
      have hlength : here + 1 + extra + (rest.drop extra).length = here + (c :: rest).length := by
        rw [List.length_drop, List.length_cons]
        omega
      rwa [hlength] at hfault
  | case4 here frame outer c rest found hmove =>
      cases hclose
      have hsound : (frame.move here c rest).Sound frame.start here rest.length :=
        Frame.move_sound hstack.1
      rw [hmove] at hsound
      have hlength : here + 1 + rest.length = here + (c :: rest).length := by
        rw [List.length_cons]
        omega
      rwa [← hlength]

theorem string?_inLiteral {text : List Char} {fault : Fault} (h : string? text = some (.error fault)) :
    fault.InLiteral text.length := by
  unfold string? at h
  split at h
  · rename_i count frame hopener
    obtain ⟨hstart, hcount⟩ := opener?_start hopener
    obtain ⟨_, _, _, _, hpos, _⟩ := opener?_some hopener
    have hstack : Stacked count [frame] := by
      refine ⟨⟨by omega, ?_⟩, trivial⟩
      rintro opened rfl
      obtain ⟨form, _, _, _, _, _, hform⟩ := opener?_eq_some hopener
      cases form <;> exact Frame.noConfusion hform
    have hfault := close_inLiteral (Option.some.inj h) hstack hpos
    rwa [List.length_drop, Nat.add_sub_cancel' hcount] at hfault
  · cases h

theorem character?_inLiteral {text : List Char} {fault : Fault}
    (h : character? text = some (.error fault)) : fault.InLiteral text.length := by
  unfold character? at h
  split at h
  · rename_i rest
    have hstack : Stacked 1 [.character 0 false] :=
      ⟨⟨Nat.zero_lt_one, fun _ hhole => Frame.noConfusion hhole⟩, trivial⟩
    have hfault := close_inLiteral (Option.some.inj h) hstack Nat.zero_lt_one
    rwa [Nat.add_comm] at hfault
  · cases h

end Literal

/-! ## Whole lexemes -/

namespace Lexeme

open Text Literal

/-- How a text can break at its head: in a literal, in a comment that is never closed, or at a control
character, which no token may begin with. -/
inductive Breaks (text : List Char) : Fault → Prop where
  | literal {fault : Fault} (inLiteral : fault.InLiteral text.length) : Breaks text fault
  | comment (opened : 2 ≤ text.length) : Breaks text ⟨.unterminatedComment, 0, 2⟩
  | control {c : Char} {rest : List Char} (text_eq : text = c :: rest) (isControl : isControl c = true) :
      Breaks text ⟨.unexpectedCharacter, 0, 0⟩

section Lexemes

variable {c : Char} {rest : List Char} {fault : Fault}

theorem breaks_of_trivia? {text : List Char} (h : trivia? text = some (.broken fault)) :
    Breaks text fault := by
  unfold trivia? at h
  split at h
  · cases h
  · split at h
    · cases h
    · cases h
      exact .comment (Nat.succ_le_succ (Nat.succ_le_succ (Nat.zero_le _)))
  · cases h
  · split at h <;> cases h

theorem breaks_of_ofLiteral {text : List Char} {kind : TokenKind} {read : Except Fault Nat}
    (h : ofLiteral kind read = .broken fault)
    (hread : ∀ found, read = .error found → found.InLiteral text.length) : Breaks text fault := by
  cases read with
  | ok count => cases h
  | error found =>
      cases h
      exact .literal (hread fault rfl)

theorem breaks_of_readToken (h : readToken c rest = .broken fault) : Breaks (c :: rest) fault := by
  -- Only literals and the last resort break; every other reader gives a token or passes.
  unfold readToken at h
  simp only at h
  split at h
  · rename_i read hread
    exact breaks_of_ofLiteral h fun found hfound => string?_inLiteral (hfound ▸ hread)
  · split at h
    · rename_i read hread
      exact breaks_of_ofLiteral h fun found hfound => character?_inLiteral (hfound ▸ hread)
    · split at h
      · cases h
      · split at h
        · cases h
        · split at h
          · cases h
          · split at h
            · cases h
            · split at h
              · rename_i hcontrol
                cases h
                exact .control rfl hcontrol
              · cases h

theorem breaks_of_ofText (h : ofText c rest = .broken fault) : Breaks (c :: rest) fault := by
  unfold ofText at h
  split at h
  · rename_i lexeme htrivia
    exact breaks_of_trivia? (h ▸ htrivia)
  · exact breaks_of_readToken h

end Lexemes

end Lexeme

end ClassChart
