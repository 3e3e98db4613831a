/-
# ClassChart.Proofs.Token.Word — tokens written down anew

A token that was read from a source is read again when its text stands elsewhere: alone, before a space,
or before a mark. Only its kind may turn out more exact, since a number can end before a letter and an
integer cannot. Names and marks need not even have anything between them, as long as no two names meet;
types are written so.
-/
import ClassChart.Proofs.Token.Run
import Mathlib.Data.List.Forall2

namespace ClassChart

open Text Lexeme

/-! ## Single tokens -/

/-- The kind and the text of a token, wherever it stands. -/
def Token.word (t : Token) : TokenKind × String := (t.kind, t.text)

/-- The text, standing alone, is one token of the kind. -/
def IsToken (kind : TokenKind) (text : String) : Prop :=
  ofText? text.toList = some (.token kind text.toList.length)

instance (kind : TokenKind) (text : String) : Decidable (IsToken kind text) :=
  inferInstanceAs (Decidable (ofText? text.toList = some (.token kind text.toList.length)))

/-- What the kind of a token may be once it stands alone. -/
def TokenKind.Settled (kind kind' : TokenKind) : Prop :=
  kind' = kind ∨ kind' = .integerLiteral ∧ kind = .numberLiteral

section Single

variable {kind : TokenKind} {text : String} {base : Nat} {rest : List Char}

theorem headIs_isBlank_of_reads {chars : List Char} {count : Nat}
    (h : ofText? chars = some (.token kind count)) : headIs isBlank chars = false := by
  cases chars with
  | nil => rfl
  | cons c chars => exact (trivia?_eq_none_iff.mp (ofText?_eq_token_iff.mp h).2.1).1

/-- What was read as a token is one when it stands alone. -/
theorem isToken_of_reads {x : List Char} (h : ofText? (x ++ rest) = some (.token kind x.length)) :
    ∃ kind', IsToken kind' (String.ofList x) ∧ kind.Settled kind' := by
  have hne : x ≠ [] := List.length_pos_iff.mp (ofText?_token_endsWithin h).1
  obtain ⟨kind', hread, hkind⟩ := ofText?_token_append h (Nat.le_refl _) hne Stops.nil (by simp)
  rw [List.append_nil] at hread
  refine ⟨kind', by rwa [IsToken, String.toList_ofList], ?_⟩
  exact hkind.imp_right fun ⟨hinteger, hnumber, _⟩ => ⟨hinteger, hnumber⟩

theorem isToken_of_run {chars : List Char} {ts : List Token} {t : Token} (h : Run rest base chars ts)
    (ht : t ∈ ts) : ∃ kind', IsToken kind' t.text ∧ t.kind.Settled kind' := by
  obtain ⟨before, behind, rfl⟩ := List.append_of_mem ht
  obtain ⟨kind, _, x, _, _, rfl, _, hread, _⟩ := h.split
  exact isToken_of_reads hread

namespace IsToken

/-- A token is read before whatever stops it. -/
theorem reads_before (h : IsToken kind text) (hrest : Stops rest)
    (harrow : text.toList = ['='] → rest.head? ≠ some '>') :
    ofText? (text.toList ++ rest) = some (.token kind text.toList.length) := by
  have hne : text.toList ≠ [] := List.length_pos_iff.mp (ofText?_token_endsWithin h).1
  have halone : ofText? (text.toList ++ []) = some (.token kind text.toList.length) := by
    rw [List.append_nil]
    exact h
  obtain ⟨kind', hread, hkind⟩ := ofText?_token_append halone (Nat.le_refl _) hne hrest harrow
  rcases hkind with rfl | ⟨_, _, hends⟩
  · exact hread
  · exact Bool.noConfusion hends

/-- A token with a space behind it is read as such. -/
theorem scan_spaced (h : IsToken kind text) (base : Nat) (rest : List Char) :
    scan base (text.toList ++ ' ' :: rest) =
      (scan (base + byteLength (text.toList ++ [' '])) rest).after [.placed base kind text.toList] := by
  rw [scan_token (h.reads_before (.cons (by decide) rest) (by simp)), scan_blank (by decide),
    byteLength_append, Nat.add_assoc]
  rfl

end IsToken

end Single

/-! ## Names and marks with nothing between them -/

/-- The token is a mark of one character that is read whatever follows it. -/
def IsFirm (t : Token) : Prop :=
  t.kind = .punctuation ∧ ∃ c ∈ marks, c ≠ '=' ∧ t.text.toList = [c]

/-- The tokens are names and firm marks, and no name stands behind another. -/
inductive Tight : List Token → Prop where
  | nil : Tight []
  | mark {t : Token} {ts : List Token} (firm : IsFirm t) (more : Tight ts) : Tight (t :: ts)
  | name {t : Token} {ts : List Token} (kind_eq : t.kind = .identifier)
      (isToken : IsToken .identifier t.text) (next : ∀ u ∈ ts.head?, IsFirm u) (more : Tight ts) :
      Tight (t :: ts)

/-- The tokens laid one behind the other from an offset on. -/
def lay (base : Nat) : List Token → List Token
  | [] => []
  | t :: ts => .placed base t.kind t.text.toList :: lay (base + byteLength t.text.toList) ts

/-- The characters of several tokens with nothing between them. -/
def joined (ts : List Token) : List Char := ts.flatMap (·.text.toList)

section Joined

variable {ts : List Token} {rest : List Char}

/-- A firm mark stops what stands before it. -/
theorem stops_joined (hts : ∀ t ∈ ts.head?, IsFirm t) (hrest : Stops rest) :
    Stops (joined ts ++ rest) := by
  cases ts with
  | nil => exact hrest
  | cons t ts =>
      obtain ⟨_, c, hc, _, htext⟩ := hts t rfl
      rw [joined, List.flatMap_cons, htext]
      exact .cons (List.mem_append_right _ hc) _

/-- Names and marks are told apart without anything between them. -/
theorem Tight.scan_joined (h : Tight ts) (hrest : Stops rest) (base : Nat) :
    scan base (joined ts ++ rest) = (scan (base + byteLength (joined ts)) rest).after (lay base ts) := by
  induction h generalizing base with
  | nil => rfl
  | @mark t ts firm _ ih =>
      obtain ⟨hkind, c, hc, hequals, htext⟩ := firm
      have hread : ofText? (t.text.toList ++ (joined ts ++ rest)) =
          some (.token t.kind t.text.toList.length) := by
        rw [htext, hkind]
        exact ofText?_mark hc hequals _
      rw [joined, List.flatMap_cons, ← joined, List.append_assoc, scan_token hread, ih,
        byteLength_append, Nat.add_assoc, Scan.after_after]
      rfl
  | @name t ts kind_eq isToken next _ ih =>
      have hequals : t.text.toList ≠ ['='] := by
        intro htext
        rw [IsToken, htext] at isToken
        exact absurd isToken (by decide)
      have hread := isToken.reads_before (stops_joined next hrest) fun htext => absurd htext hequals
      rw [← kind_eq] at hread
      rw [joined, List.flatMap_cons, ← joined, List.append_assoc, scan_token hread, ih,
        byteLength_append, Nat.add_assoc, Scan.after_after]
      rfl

/-- Tokens are laid with the kinds and the texts they have. -/
theorem forall₂_lay (ts : List Token) (base : Nat) :
    List.Forall₂ (fun t u => u.kind = t.kind ∧ u.text = t.text) ts (lay base ts) := by
  induction ts generalizing base with
  | nil => exact .nil
  | cons t ts ih => exact .cons ⟨rfl, String.ofList_toList⟩ (ih _)

theorem map_word_lay (ts : List Token) (base : Nat) :
    (lay base ts).map Token.word = ts.map Token.word := by
  induction ts generalizing base with
  | nil => rfl
  | cons t ts ih =>
      rw [lay, List.map_cons, List.map_cons, ih, Token.word, Token.placed, String.ofList_toList]
      rfl

end Joined

end ClassChart
