/-
# ClassChart.Proofs.Token.Terminal — what terminals look like

The lexer picks a terminal by the characters that it took, and from then on the text of a keyword or a
mark is an entry of a table and no longer those characters. Here the tables are checked against the
lexer: the terminal that a text is has that text, and it has the kind that the text was read as. So the
token of a terminal is what was read. Kind and text together tell which terminal it is, and comparing a
token with a mark by the two is comparing terminals.
-/
import ClassChart.Proofs.Token.Lookahead

namespace ClassChart

open Text Lexeme

namespace Terminal

/-! ## Texts -/

/-- The table spells every keyword as the word that it is chosen for. -/
@[simp] theorem ofWord_text (word : String) : (ofWord word).text = word := by
  unfold ofWord
  -- One keyword behind the other; what is left is an identifier.
  iterate 13
    refine iteInduction (motive := fun a => text a = word) Eq.symm fun _ => ?_
  rfl

/-- The table spells every mark as the text that it is chosen for. -/
@[simp] theorem ofMark_text (mark : String) : (ofMark mark).text = mark := by
  unfold ofMark
  iterate 14
    refine iteInduction (motive := fun a => text a = mark) Eq.symm fun _ => ?_
  rfl

/-- The terminal of a text has that text. -/
@[simp] theorem ofText_text (kind : TokenKind) (text : String) : (ofText kind text).text = text := by
  cases kind with
  | integerLiteral => rfl
  | numberLiteral => rfl
  | stringLiteral => rfl
  | charLiteral => rfl
  | punctuation => exact ofMark_text text
  | symbol => rfl
  | _ => exact ofWord_text text

end Terminal

/-! ## Kinds -/

/-- The kinds that words can have. -/
def TokenKind.ofWords : List TokenKind :=
  [.identifier, .visibility, .staticKeyword, .direction, .namespaceKeyword, .usingKeyword,
    .classKeyword, .enumKeyword, .partialKeyword, .overrideKeyword, .voidKeyword]

theorem TokenKind.ofWord_mem (word : String) : TokenKind.ofWord word ∈ ofWords := by
  unfold TokenKind.ofWord Terminal.ofWord
  iterate 13
    refine iteInduction (motive := fun a => Terminal.kind a ∈ ofWords) (fun _ => by decide) fun _ => ?_
  show TokenKind.identifier ∈ ofWords
  decide

theorem Terminal.ofText_ofWord (word : String) : ofText (.ofWord word) word = ofWord word := by
  have hkinds : ∀ kind ∈ TokenKind.ofWords, ofText kind word = ofWord word := by
    simp [TokenKind.ofWords, ofText]
  exact hkinds _ (TokenKind.ofWord_mem word)

/-- How the tokens of a kind are spelled, where that is fixed: keywords and punctuation marks. -/
def TokenKind.spellings? : TokenKind → Option (List String)
  | visibility => some ["public", "private", "protected"]
  | staticKeyword => some ["static"]
  | direction => some ["out", "ref"]
  | namespaceKeyword => some ["namespace"]
  | usingKeyword => some ["using"]
  | classKeyword => some ["class"]
  | enumKeyword => some ["enum"]
  | partialKeyword => some ["partial"]
  | overrideKeyword => some ["override"]
  | voidKeyword => some ["void"]
  | punctuation =>
    some ["\x7b", "\x7d", "(", ")", "[", "]", "<", ">", ",", ";", ":", "=", "?", "=>"]
  | _ => none

theorem mark?_kind {text : List Char} {count : Nat} (h : mark? text = some count) :
    (Terminal.ofMark (String.ofList (text.take count))).kind = .punctuation := by
  have hmarks : ∀ c ∈ marks, (Terminal.ofMark (String.ofList [c])).kind = .punctuation := by decide
  unfold mark? at h
  split at h
  · cases h
    show (Terminal.ofMark (String.ofList ['=', '>'])).kind = _
    decide
  · rename_i c rest _
    split at h
    · rename_i hc
      cases h
      exact hmarks c (List.contains_iff_mem.mp hc)
    · cases h
  · cases h

/-- No token is read as a region. -/
theorem Lexeme.ofText?_not_region {text : List Char} {kind : TokenKind} {count : Nat}
    (h : ofText? text = some (.token kind count)) : kind ≠ .body ∧ kind ≠ .valueLiteral := by
  have hwords : ∀ kind ∈ TokenKind.ofWords, kind ≠ .body ∧ kind ≠ .valueLiteral := by decide
  obtain ⟨_, _, hreads⟩ := ofText?_eq_token_iff.mp h
  cases hreads with
  | word _ _ _ _ => exact hwords _ (TokenKind.ofWord_mem _)
  | _ => exact ⟨by decide, by decide⟩

/-- The terminal of a text has the kind that the text is read as. -/
theorem readsAs_kind {text : List Char} {kind : TokenKind} {count : Nat}
    (h : ReadsAs text kind count) :
    (Terminal.ofText kind (String.ofList (text.take count))).kind = kind := by
  cases h with
  | string _ => rfl
  | character _ _ => rfl
  | integer _ _ _ => rfl
  | number _ _ _ _ => rfl
  | word _ _ _ _ =>
      rw [Terminal.ofText_ofWord]
      rfl
  | mark _ _ _ _ found => exact mark?_kind found
  | symbol _ _ _ _ _ _ => rfl

/-- What is read as a token is the token of its terminal. -/
theorem Lexeme.terminal_token {text : List Char} {kind : TokenKind} {count : Nat}
    (h : ofText? text = some (.token kind count)) (span : Span) :
    (Terminal.ofText kind (String.ofList (text.take count))).token span =
      ⟨kind, String.ofList (text.take count), span⟩ := by
  rw [Terminal.token, Terminal.ofText_text, readsAs_kind (ofText?_eq_token_iff.mp h).2.2]

/-! ## Kind and text -/

namespace Terminal

variable {a b : Terminal} {span : Span}

/-- A keyword or a mark is spelled as its kind has it. -/
theorem text_mem_spellings {texts : List String} (h : a.kind.spellings? = some texts) :
    a.text ∈ texts := by
  cases a with
  | identifier word => cases h
  | integerLiteral word => cases h
  | numberLiteral word => cases h
  | stringLiteral word => cases h
  | charLiteral word => cases h
  | symbol word => cases h
  | _ =>
      cases h
      decide

theorem ofText_self (h : a.kind ≠ .identifier) : ofText a.kind a.text = a := by
  cases a with
  | identifier word => exact absurd rfl h
  | integerLiteral word => rfl
  | numberLiteral word => rfl
  | stringLiteral word => rfl
  | charLiteral word => rfl
  | symbol word => rfl
  | _ => decide

theorem eq_identifier (h : a.kind = .identifier) : a = identifier a.text := by
  cases a with
  | identifier word => rfl
  | _ => cases h

/-- Kind and text tell which terminal it is. -/
theorem eq_of_kind_of_text (hkind : a.kind = b.kind) (htext : a.text = b.text) : a = b := by
  by_cases hname : a.kind = .identifier
  · rw [eq_identifier hname, eq_identifier (hkind.symm.trans hname), htext]
  · rw [← ofText_self hname, hkind, htext, ofText_self (hkind ▸ hname)]

theorem token_injective (h : a.token span = b.token span) : a = b :=
  eq_of_kind_of_text (congrArg Token.kind h) (congrArg Token.text h)

/-- The token of a terminal is a given mark exactly if the terminal is. -/
theorem isMark_token_iff (hb : b.kind = .punctuation) :
    (a.token span).isMark b.text = true ↔ a = b := by
  simp only [Token.isMark, token, Bool.and_eq_true, beq_iff_eq]
  constructor
  · intro h
    exact eq_of_kind_of_text (h.1.trans hb.symm) h.2
  · rintro rfl
    exact ⟨hb, rfl⟩

end Terminal

end ClassChart
