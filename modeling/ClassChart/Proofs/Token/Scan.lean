/-
# ClassChart.Proofs.Token.Scan — what reading tokens can give

Two facts about everything that `scan` gives, each proved for a single lexeme first and then along the
reading loop: an identifier has characters and is no keyword, and a problem has one of the codes of its
phase. The readers of literals report through moves and frames, so the codes are followed from there.
-/
import ClassChart.Proofs.Token.Terminal

namespace ClassChart

/-- Whether the code belongs to the reading of tokens. -/
def ErrorCode.isLexical : ErrorCode → Bool
  | unterminatedString => true
  | unexpectedCharacter => true
  | invalidEscape => true
  | unterminatedComment => true
  | unterminatedCharacter => true
  | _ => false

/-! ## Literals -/

namespace Literal

/-- A fault with a code of its phase. -/
def Fault.Lexical (fault : Fault) : Prop := fault.code.isLexical = true

/-- A move that breaks the literal, if it does, with a lexical fault. -/
def Move.Lexical : Move → Prop
  | take _ _ => True
  | .break fault => fault.Lexical

theorem escapeMove_lexical (here : Nat) (frames : List Frame) (rest : List Char) :
    (escapeMove here frames rest).Lexical := by
  unfold escapeMove
  split
  · trivial
  · rfl

theorem regularMove_lexical (start here : Nat) (frame : Frame) (c : Char) (rest : List Char) :
    (regularMove start here frame c rest).Lexical := by
  unfold regularMove
  split
  · trivial
  · split
    · exact escapeMove_lexical here [frame] rest
    · split
      · rfl
      · trivial

theorem verbatimMove_lexical (frame : Frame) (c : Char) (rest : List Char) :
    (verbatimMove frame c rest).Lexical := by
  unfold verbatimMove
  split
  · split <;> trivial
  · trivial

theorem interpolatedMove_lexical (start here : Nat) (isVerbatim : Bool) (frame : Frame) (c : Char)
    (rest : List Char) : (interpolatedMove start here isVerbatim frame c rest).Lexical := by
  unfold interpolatedMove
  split
  · trivial
  · split
    · trivial
    · split
      · rfl
      · split
        · exact verbatimMove_lexical frame c rest
        · exact regularMove_lexical start here frame c rest

theorem holeMove_lexical (here : Nat) (frame : Frame) (c : Char) (rest : List Char) :
    (holeMove here frame c rest).Lexical := by
  unfold holeMove
  split
  · trivial
  · split
    · trivial
    · split
      · trivial
      · split <;> trivial

theorem characterMove_lexical (start here : Nat) (isFilled : Bool) (c : Char) (rest : List Char) :
    (characterMove start here isFilled c rest).Lexical := by
  unfold characterMove
  split
  · split
    · trivial
    · rfl
  · split
    · exact escapeMove_lexical here _ rest
    · split
      · rfl
      · trivial

/-- Each frame fails by faults of the lexer only. -/
theorem Frame.move_lexical (frame : Frame) (here : Nat) (c : Char) (rest : List Char) :
    (frame.move here c rest).Lexical := by
  cases frame with
  | regular start => exact regularMove_lexical start here _ c rest
  | verbatim start => exact verbatimMove_lexical _ c rest
  | interpolated start isVerbatim => exact interpolatedMove_lexical start here isVerbatim _ c rest
  | hole opened => exact holeMove_lexical here _ c rest
  | character start isFilled => exact characterMove_lexical start here isFilled c rest

/-- So does the end of the text inside a literal. -/
theorem unclosed_lexical (stop : Nat) (frames : List Frame) : (unclosed stop frames).Lexical := by
  induction frames generalizing stop with
  | nil => rfl
  | cons frame outer ih =>
      cases frame with
      | hole opened => exact ih opened
      | regular start => rfl
      | verbatim start => rfl
      | interpolated start isVerbatim => rfl
      | character start isFilled => rfl

/-- A literal that cannot be closed has a lexical fault. -/
theorem close_lexical {frames : List Frame} {here : Nat} {text : List Char} {fault : Fault}
    (hclose : close frames here text = .error fault) : fault.Lexical := by
  fun_induction close frames here text with
  | case1 => cases hclose
  | case2 here frames _ =>
      cases hclose
      exact unclosed_lexical here frames
  | case3 here frame outer c rest extra inner hmove ih => exact ih hclose
  | case4 here frame outer c rest found hmove =>
      cases hclose
      have hlexical := frame.move_lexical here c rest
      rwa [hmove] at hlexical

end Literal

/-! ## Lexemes -/

namespace Lexeme

open Literal

/-- A lexeme at the head of a text: an identifier has characters and is no keyword, and a fault is
lexical. -/
def Fits (text : List Char) : Lexeme → Prop
  | trivia _ => True
  | token kind count =>
    kind = .identifier → 0 < count ∧ TokenKind.ofWord (String.ofList (text.take count)) = .identifier
  | broken fault => fault.Lexical

/-- A literal is a token of its kind, or broken by a fault of the lexer. -/
theorem ofLiteral_fits {kind : TokenKind} (hkind : kind ≠ .identifier) {text : List Char}
    {read : Except Fault Nat} (hread : ∀ fault, read = .error fault → fault.Lexical) :
    (ofLiteral kind read).Fits text := by
  cases read with
  | ok count => exact fun h => absurd h hkind
  | error fault => exact hread fault rfl

theorem string?_lexical {text : List Char} {read : Except Fault Nat} (h : string? text = some read) :
    ∀ fault, read = .error fault → fault.Lexical := by
  unfold string? at h
  split at h
  · cases h
    exact fun fault hfault => close_lexical hfault
  · cases h

theorem character?_lexical {text : List Char} {read : Except Fault Nat}
    (h : character? text = some read) : ∀ fault, read = .error fault → fault.Lexical := by
  unfold character? at h
  split at h
  · cases h
    exact fun fault hfault => close_lexical hfault
  · cases h

theorem word?_pos {text : List Char} {count : Nat} (h : word? text = some count) : 0 < count := by
  cases text with
  | nil => cases h
  | cons c rest =>
      rw [word?] at h
      split at h
      · obtain rfl := Option.some.inj h
        omega
      · exact absurd h (by simp)

/-- What is read at a character fits the text from there on. -/
theorem readToken_fits (c : Char) (rest : List Char) : (readToken c rest).Fits (c :: rest) := by
  -- The readers are tried in order; only that of words gives identifiers.
  unfold readToken
  simp only
  split
  · rename_i read hread
    exact ofLiteral_fits (by decide) (string?_lexical hread)
  · split
    · rename_i read hread
      exact ofLiteral_fits (by decide) (character?_lexical hread)
    · split
      · exact fun h => absurd h (by decide)
      · split
        · exact fun h => absurd h (by decide)
        · split
          · rename_i count hcount
            exact fun h => ⟨word?_pos hcount, h⟩
          · split
            · exact fun h => absurd h (by decide)
            · split
              · rfl
              · exact fun h => absurd h (by decide)

/-- What is passed over fits it, too. -/
theorem trivia?_fits {text : List Char} {lexeme : Lexeme} (h : trivia? text = some lexeme) :
    lexeme.Fits text := by
  unfold trivia? at h
  split at h
  · cases h
    trivial
  · split at h
    · cases h
      trivial
    · cases h
      rfl
  · cases h
    trivial
  · split at h
    · cases h
    · cases h
      trivial

theorem ofText_fits (c : Char) (rest : List Char) : (ofText c rest).Fits (c :: rest) := by
  unfold ofText
  split
  · rename_i lexeme htrivia
    exact trivia?_fits htrivia
  · exact readToken_fits c rest

end Lexeme

/-! ## The reading loop -/

/-- An identifier has characters and is no keyword. -/
theorem scan_identifier {base : Nat} {text : List Char} {t : Token} (ht : t ∈ (scan base text).tokens)
    (hkind : t.kind = .identifier) : t.text ≠ "" ∧ TokenKind.ofWord t.text = .identifier := by
  fun_induction scan base text with
  | case1 => exact absurd ht List.not_mem_nil
  | case2 base c rest count _ ih => exact ih ht
  | case3 base c rest kind count hlexeme stop lexeme ih =>
      have hread : Lexeme.ofText? (c :: rest) = some (.token kind count) := congrArg some hlexeme
      rw [Lexeme.terminal_token hread] at ht
      rcases List.mem_cons.mp ht with rfl | ht
      · -- The text of the token is what the lexeme takes, and that is not nothing.
        have hfits := Lexeme.ofText_fits c rest
        rw [hlexeme] at hfits
        obtain ⟨hpos, hword⟩ := hfits hkind
        refine ⟨fun hempty => ?_, hword⟩
        have hnil := String.ofList_eq_empty_iff.mp hempty
        rw [List.take_eq_nil_iff] at hnil
        rcases hnil with hzero | hcons
        · omega
        · cases hcons
      · exact ih ht
  | case4 base c rest fault _ skipped ih => exact ih ht

/-- A problem has one of the codes of the reading of tokens. -/
theorem scan_lexical {base : Nat} {text : List Char} {d : Diagnostic}
    (hd : d ∈ (scan base text).problems) : ∃ code, d.code = some code ∧ code.isLexical = true := by
  fun_induction scan base text with
  | case1 => exact absurd hd List.not_mem_nil
  | case2 base c rest count _ ih => exact ih hd
  | case3 base c rest kind count _ stop lexeme ih => exact ih hd
  | case4 base c rest fault hlexeme skipped ih =>
      rcases List.mem_cons.mp hd with rfl | hd
      · have hfits := Lexeme.ofText_fits c rest
        rw [hlexeme] at hfits
        exact ⟨fault.code, rfl, hfits⟩
      · exact ih hd

/-- An identifier is no keyword and has at least one character. -/
theorem tokenize_identifier {source : String} {tokens : List Token} {t : Token}
    (htokens : tokenize source = .ok tokens) (ht : t ∈ tokens) (hkind : t.kind = .identifier) :
    t.text ≠ "" ∧ TokenKind.ofWord t.text = .identifier := by
  unfold tokenize Scan.result at htokens
  split at htokens
  · cases htokens
    exact scan_identifier ht hkind
  · cases htokens

/-- A text that cannot be split into tokens is reported with codes of the lexer. -/
theorem tokenize_lexical {source : String} {error : ParseError} {d : Diagnostic}
    (herror : tokenize source = .error error) (hd : d ∈ error.diagnostics) :
    ∃ code, d.code = some code ∧ code.isLexical = true := by
  unfold tokenize Scan.result at herror
  split at herror
  · cases herror
  · cases herror
    exact scan_lexical hd

end ClassChart
