/-
# ClassChart.Proofs.Token.Restart — reading restarts at the end of a line

Two facts make a line break a clean restart. Whatever a text that was read without a fault ends with, it
ends there too when a line break follows, and the break itself is trivia. Behind it the loop knows nothing
of what came before except the offset: every step looks at the rest of the text alone, so the tokens, the
faults and the places where reading resumes are those of the rest on its own, further on.
-/
import ClassChart.Proofs.Token.Run

namespace ClassChart

open Text Literal

/-! ## Reports further on -/

/-- The label moved along with a text, from one offset of the text to another. -/
def Label.move (base base' : Nat) (l : Label) : Label := { l with span := l.span.move base base' }

/-- The problem with all its labels moved. -/
def Diagnostic.move (base base' : Nat) (d : Diagnostic) : Diagnostic :=
  { d with labels := d.labels.map (Label.move base base') }

/-- The failure with all its problems moved. -/
def ParseError.move (base base' : Nat) (e : ParseError) : ParseError :=
  ⟨e.diagnostics.map (Diagnostic.move base base')⟩

namespace Scan

/-- What was read, moved along with the text. -/
def move (base base' : Nat) (s : Scan) : Scan :=
  ⟨s.tokens.map (Token.move base base'), s.problems.map (Diagnostic.move base base')⟩

variable {base base' : Nat}

theorem move_addToken (t : Token) (s : Scan) :
    (s.addToken t).move base base' = (s.move base base').addToken (t.move base base') := rfl

theorem move_addProblem (d : Diagnostic) (s : Scan) :
    (s.addProblem d).move base base' = (s.move base base').addProblem (d.move base base') := rfl

/-- The tokens or the problems of what was moved are those that were there, moved. -/
theorem result_move (s : Scan) :
    (s.move base base').result =
      (s.result.map (·.map (Token.move base base'))).mapError (·.move base base') := by
  obtain ⟨tokens, problems⟩ := s
  cases problems with
  | nil => rfl
  | cons d problems => rfl

/-- Tokens in front of what was read change nothing about its problems. -/
theorem result_after (ts : List Token) (s : Scan) : (s.after ts).result = s.result.map (ts ++ ·) := by
  obtain ⟨tokens, problems⟩ := s
  cases problems with
  | nil => rfl
  | cons d problems => rfl

end Scan

/-! ## The loop further on -/

theorem offsetAfter_add (base shift : Nat) (text : List Char) (count : Nat) :
    offsetAfter (base + shift) text count = offsetAfter base text count + shift := by
  unfold offsetAfter
  omega

/-- One step: the report of a fault moves along with the text. -/
theorem diagnostic_add (fault : Fault) (base shift : Nat) (text : List Char) :
    fault.diagnostic (base + shift) text = (fault.diagnostic base text).move 0 shift := by
  have hstop (start stop : Nat) :
      max (stop + shift) (start + shift + 1) = max stop (start + 1) + shift := by
    omega
  simp only [Fault.diagnostic, Diagnostic.move, Label.move, Span.move, List.map_cons, List.map_nil,
    offsetAfter_add, Nat.sub_zero, hstop]

/-- The whole run: what is read does not depend on where the text begins. -/
theorem scan_add (base shift : Nat) (text : List Char) :
    scan (base + shift) text = (scan base text).move 0 shift := by
  fun_induction scan base text with
  | case1 base =>
      rw [scan]
      rfl
  | case2 base c rest count hlexeme ih =>
      rw [scan]
      simp only [hlexeme, offsetAfter_add, ih]
  | case3 base c rest kind count hlexeme stop lexeme ih =>
      rw [scan]
      simp only [hlexeme, offsetAfter_add, Scan.move_addToken, ← ih]
      rfl
  | case4 base c rest fault hlexeme skipped ih =>
      rw [scan]
      simp only [hlexeme, offsetAfter_add, Scan.move_addProblem, ← ih, ← diagnostic_add]
      rfl

/-! ## Behind a line break -/

/-- A text without faults, a line break and any text at all: the tokens of the first come first, then what
is read of the second one, further on. -/
theorem scan_behind_newline {s : String} {ts : List Token} (h : tokenize s = .ok ts) (text : List Char) :
    scan 0 (s.toList ++ '\n' :: text) = ((scan 0 text).move 0 (s.utf8ByteSize + 1)).after ts := by
  rw [(run_of_tokenize h).scan_newline .nil, scan_blank (by decide), byteLength_toList,
    ← scan_add 0 (s.utf8ByteSize + 1)]
  rfl

/-- Reading restarts at the end of a line. If a text can be read, then it can be read with a line break and
any other text behind it exactly if that one can be read. The tokens are those of the first text and those
of the second one, moved by the bytes of the first and one for the break; if the second one has problems,
the whole has the same ones, moved as far. -/
theorem tokenize_restarts {s : String} {ts : List Token} (h : tokenize s = .ok ts) (s' : String) :
    ((∃ all, tokenize (s ++ "\n" ++ s') = .ok all) ↔ ∃ ts', tokenize s' = .ok ts') ∧
    (∀ ts', tokenize s' = .ok ts' →
      tokenize (s ++ "\n" ++ s') = .ok (ts ++ ts'.map (Token.move 0 (s.utf8ByteSize + 1)))) ∧
    ∀ error, tokenize s' = .error error →
      tokenize (s ++ "\n" ++ s') = .error (error.move 0 (s.utf8ByteSize + 1)) := by
  have htext : (s ++ "\n" ++ s').toList = s.toList ++ '\n' :: s'.toList := by simp
  have hjoined : tokenize (s ++ "\n" ++ s') =
      (((tokenize s').map (·.map (Token.move 0 (s.utf8ByteSize + 1)))).mapError
        (·.move 0 (s.utf8ByteSize + 1))).map (ts ++ ·) := by
    unfold tokenize
    rw [htext, scan_behind_newline h, Scan.result_after, Scan.result_move]
  rw [hjoined]
  cases tokenize s' with
  | ok ts' =>
      refine ⟨⟨fun _ => ⟨ts', rfl⟩, fun _ => ⟨_, rfl⟩⟩, ?_, nofun⟩
      rintro _ ⟨⟩
      rfl
  | error error =>
      refine ⟨⟨nofun, nofun⟩, nofun, ?_⟩
      rintro _ ⟨⟩
      rfl

/-- A name before a comment that the end of the text ends. -/
def remarked : String := "é // end"

/-- Behind it a text with a number that could have gone on, and one with a string that breaks at the end of
its line and a control character on the next. -/
theorem tokenize_restarts_remarked :
    tokenize remarked = .ok [⟨.identifier, "é", ⟨0, 2⟩⟩] ∧
    tokenize (remarked ++ "\n" ++ "1.x") =
      .ok [⟨.identifier, "é", ⟨0, 2⟩⟩, ⟨.numberLiteral, "1.x", ⟨10, 13⟩⟩] ∧
    ∃ error, tokenize "\"é\n\u0001" = .error error ∧
      error.diagnostics.flatMap (·.labels.map (·.span)) = [⟨0, 3⟩, ⟨4, 5⟩] ∧
      tokenize (remarked ++ "\n" ++ "\"é\n\u0001") = .error (error.move 0 10) ∧
      (error.move 0 10).diagnostics.flatMap (·.labels.map (·.span)) = [⟨10, 13⟩, ⟨14, 15⟩] := by
  have hremarked : tokenize remarked = .ok [⟨.identifier, "é", ⟨0, 2⟩⟩] :=
    tokenize_ok.mpr (by decide +kernel)
  have hnumber : tokenize "1.x" = .ok [⟨.numberLiteral, "1.x", ⟨0, 3⟩⟩] :=
    tokenize_ok.mpr (by decide +kernel)
  have hproblems : (scan 0 "\"é\n\u0001".toList).problems.isEmpty = false := by decide +kernel
  have herror : tokenize "\"é\n\u0001" = .error ⟨(scan 0 "\"é\n\u0001".toList).problems⟩ := by
    rw [tokenize, Scan.result, hproblems]
    rfl
  refine ⟨hremarked, ?_, _, herror, by decide +kernel, ?_, by decide +kernel⟩
  · exact (tokenize_restarts hremarked "1.x").2.1 _ hnumber
  · exact (tokenize_restarts hremarked "\"é\n\u0001").2.2 _ herror

end ClassChart
