/-
# ClassChart.Proofs.Token.Extent — where lexemes end

A token has characters and ends with none that is blank, so blanks behind a text are never part of its
last token. Trivia is described by what it is: blanks as far as they go, a line as far as it goes, or a
comment up to where it is closed. What it is depends on the first character behind it alone.
-/
import ClassChart.Proofs.Token.Lookahead

namespace ClassChart

namespace Lexeme

open Text Literal

/-! ## Where a token ends -/

/-- The first characters of a text, as many as there are to be, with no blank last among them. -/
def EndsWithin (text : List Char) (count : Nat) : Prop :=
  0 < count ∧ ∃ c, text[count - 1]? = some c ∧ isBlank c = false

theorem EndsWithin.le {text : List Char} {count : Nat} (h : EndsWithin text count) :
    count ≤ text.length := by
  obtain ⟨hpos, c, hc, _⟩ := h
  obtain ⟨hlt, _⟩ := List.getElem?_eq_some_iff.mp hc
  omega

theorem not_isBlank {p : Char → Bool} (hp : ∀ c ∈ stopChars, p c = false) {c : Char}
    (hc : p c = true) : isBlank c = false := by
  rw [Bool.eq_false_iff]
  intro hblank
  rw [hp c (List.mem_append_left _ (mem_blankChars hblank))] at hc
  exact Bool.noConfusion hc

/-- A character, and a tail that is empty or ends like one. -/
theorem EndsWithin.cons {c : Char} {text : List Char} {count : Nat} (hc : isBlank c = false)
    (htail : 0 < count → EndsWithin text count) : EndsWithin (c :: text) (1 + count) := by
  refine ⟨by omega, ?_⟩
  rcases Nat.eq_zero_or_pos count with rfl | hpos
  · exact ⟨c, rfl, hc⟩
  · obtain ⟨_, d, hd, hblank⟩ := htail hpos
    refine ⟨d, ?_, hblank⟩
    rw [show 1 + count - 1 = (count - 1) + 1 by omega, List.getElem?_cons_succ]
    exact hd

/-- The last character of a word is no blank. -/
theorem wordTail_endsWithin (text : List Char) (hpos : 0 < wordTail text) :
    EndsWithin text (wordTail text) := by
  induction text with
  | nil => exact absurd hpos (Nat.lt_irrefl 0)
  | cons c text ih =>
      rw [wordTail] at hpos ⊢
      split
      · rename_i hc
        refine EndsWithin.cons ?_ ih
        rw [Bool.or_eq_true, Bool.and_eq_true] at hc
        rcases hc with hc | ⟨hc, _⟩
        · exact not_isBlank stops_continuesName hc
        · rw [eq_of_beq hc]
          decide
      · rename_i hc
        rw [if_neg hc] at hpos
        exact absurd hpos (Nat.lt_irrefl 0)

/-- Nor is that of a number. -/
theorem numberTail_endsWithin (afterMark : Bool) (text : List Char)
    (hpos : 0 < numberTail afterMark text) : EndsWithin text (numberTail afterMark text) := by
  induction text generalizing afterMark with
  | nil => exact absurd hpos (Nat.lt_irrefl 0)
  | cons c text ih =>
      rw [numberTail] at hpos ⊢
      split
      · rename_i hc
        exact EndsWithin.cons (not_isBlank stops_continuesNumber hc) (ih _)
      · rename_i hc
        rw [if_neg hc] at hpos
        split
        · rename_i hsign
          rw [Bool.and_eq_true, Bool.and_eq_true] at hsign
          exact EndsWithin.cons (not_isBlank (by decide) hsign.1.2) (ih _)
        · rename_i hsign
          rw [if_neg hsign] at hpos
          exact absurd hpos (Nat.lt_irrefl 0)

/-- An end behind something skipped is one of the whole text. -/
theorem EndsWithin.of_drop {text : List Char} {skipped count : Nat}
    (h : EndsWithin (text.drop skipped) count) : EndsWithin text (skipped + count) := by
  obtain ⟨hpos, c, hc, hblank⟩ := h
  refine ⟨by omega, c, ?_, hblank⟩
  rw [List.getElem?_drop] at hc
  rw [← hc]
  congr 1
  omega

theorem number?_endsWithin {text : List Char} {count : Nat} (h : number? text = some count) :
    EndsWithin text count := by
  simp only [number?] at h
  split at h
  · rename_i c rest hdrop
    split at h
    · rename_i hc
      obtain rfl := Option.some.inj h
      rw [Nat.add_assoc]
      apply EndsWithin.of_drop
      rw [hdrop]
      exact EndsWithin.cons (not_isBlank stops_isDigit hc) (numberTail_endsWithin false rest)
    · cases h
  · cases h

theorem word?_endsWithin {text : List Char} {count : Nat} (h : word? text = some count) :
    EndsWithin text count := by
  cases text with
  | nil => cases h
  | cons c rest =>
      rw [word?] at h
      split at h
      · rename_i hc
        obtain rfl := Option.some.inj h
        exact EndsWithin.cons (not_isBlank stops_continuesName (startsName_continuesName hc))
          (wordTail_endsWithin rest)
      · cases h

/-- A literal ends with the character that closes it, which is no blank either. -/
theorem close_endsWithin {frames : List Frame} {text : List Char} {opened stop : Nat}
    (h : close frames opened (text.drop opened) = .ok stop) (hframes : frames ≠ []) :
    EndsWithin text stop := by
  obtain ⟨hlt, c, hc, hblank⟩ := exists_last_of_close h hframes
  rw [show stop = opened + (stop - opened) by omega]
  exact EndsWithin.of_drop ⟨by omega, c, hc, hblank⟩

theorem mark?_endsWithin {text : List Char} {count : Nat} (h : mark? text = some count) :
    EndsWithin text count := by
  unfold mark? at h
  split at h
  · obtain rfl := Option.some.inj h
    exact ⟨by omega, '>', rfl, by decide⟩
  · rename_i c rest _
    split at h
    · rename_i hc
      obtain rfl := Option.some.inj h
      exact ⟨by omega, c, rfl, (marks_not_comment c (List.contains_iff_mem.mp hc)).1⟩
    · cases h
  · cases h

/-- A token has characters, and the last of them is no blank. -/
theorem ofText?_token_endsWithin {text : List Char} {kind : TokenKind} {count : Nat}
    (h : ofText? text = some (.token kind count)) : EndsWithin text count := by
  obtain ⟨hne, htrivia, hreads⟩ := ofText?_eq_token_iff.mp h
  cases hreads with
  | string found =>
      unfold string? at found
      split at found
      · exact close_endsWithin (Option.some.inj found) (List.cons_ne_nil _ _)
      · cases found
  | character noString found =>
      unfold character? at found
      split at found
      · rename_i rest
        have hclose : close [.character 0 false] 1 (('\x27' :: rest).drop 1) = .ok count :=
          Option.some.inj found
        exact close_endsWithin hclose (List.cons_ne_nil _ _)
      · cases found
  | integer noString noCharacter found => exact number?_endsWithin (number?_of_integer? found)
  | number noString noCharacter noInteger found => exact number?_endsWithin found
  | word noString noCharacter noNumber found => exact word?_endsWithin found
  | mark noString noCharacter noNumber noWord found => exact mark?_endsWithin found
  | symbol noString noCharacter noNumber noWord noMark printable =>
      cases text with
      | nil => exact absurd rfl hne
      | cons c rest => exact ⟨by omega, c, rfl, (trivia?_eq_none_iff.mp htrivia).1⟩

/-! ## Trivia -/

/-- A text is trivia before what follows it. Blanks end where no blank follows, and a comment on a line
ends with the line; a comment in brackets ends wherever it is closed. -/
inductive IsTrivia : List Char → List Char → Prop where
  | blank {x y : List Char} (nonempty : x ≠ []) (blank : ∀ c ∈ x, isBlank c = true)
      (ends : headIs isBlank y = false) : IsTrivia x y
  | line {lead v y : List Char} (leads : lead = ['/', '/'] ∨ lead = ['#']) (inLine : '\n' ∉ v)
      (ends : ∀ c ∈ y.head?, c = '\n') : IsTrivia (lead ++ v) y
  | block {v y : List Char} (closed : commentEnd? v = some v.length) :
      IsTrivia ('/' :: '*' :: v) y

theorem commentEnd?_endsWithin {text : List Char} {count : Nat} (h : commentEnd? text = some count) :
    2 ≤ count ∧ EndsWithin text count := by
  induction text generalizing count with
  | nil => cases h
  | cons c text ih =>
      rw [commentEnd?] at h
      split at h
      · rename_i hend
        obtain rfl := Option.some.inj h
        obtain ⟨more, rfl⟩ := List.head?_eq_some_iff.mp hend.2
        exact ⟨Nat.le_refl 2, by omega, '/', rfl, by decide⟩
      · obtain ⟨inner, hinner, rfl⟩ := Option.map_eq_some_iff.mp h
        obtain ⟨hle, hends⟩ := ih hinner
        refine ⟨by omega, ?_⟩
        rw [Nat.add_comm]
        exact EndsWithin.of_drop hends

/-- Where a comment ends within a front does not depend on what follows. -/
theorem commentEnd?_append {front rest : List Char} {count : Nat} (hcount : count ≤ front.length) :
    commentEnd? (front ++ rest) = some count ↔ commentEnd? front = some count := by
  have hshort (hlen : front.length < 2) (text : List Char) : commentEnd? text ≠ some count := by
    intro h
    have hpos := (commentEnd?_endsWithin h).1
    omega
  induction front generalizing count with
  | nil => exact iff_of_false (hshort (by simp) _) (hshort (by simp) _)
  | cons c front ih =>
      cases front with
      | nil => exact iff_of_false (hshort (by simp) _) (hshort (by simp) _)
      | cons d front =>
          rw [List.cons_append, commentEnd?, commentEnd?, List.cons_append, List.head?_cons,
            List.head?_cons]
          by_cases hend : c = '*' ∧ some d = some '/'
          · rw [if_pos hend, if_pos hend]
          · rw [if_neg hend, if_neg hend]
            cases count with
            | zero => simp
            | succ count =>
                simp only [List.length_cons] at hcount
                simp only [Option.map_eq_some_iff, Nat.add_right_cancel_iff, exists_eq_right]
                refine ih (by simp only [List.length_cons]; omega) (fun hlen text h => ?_)
                have hpos := (commentEnd?_endsWithin h).1
                simp only [List.length_cons] at hlen
                omega

theorem length_takeWhile_iff {p : Char → Bool} {x y : List Char} :
    ((x ++ y).takeWhile p).length = x.length ↔ (∀ c ∈ x, p c = true) ∧ headIs p y = false := by
  induction x with
  | nil =>
      constructor
      · exact fun h => ⟨fun c hc => absurd hc List.not_mem_nil, headIs_of_takeWhile h⟩
      · exact fun h => by simp [takeWhile_eq_nil h.2]
  | cons c x ih =>
      simp only [List.cons_append, List.takeWhile_cons, List.forall_mem_cons]
      cases hc : p c with
      | true => simpa using ih
      | false => simp

/-- A line goes on to its newline, or to the end of the text. -/
theorem restOfLine_iff {v y : List Char} :
    restOfLine (v ++ y) = v.length ↔ '\n' ∉ v ∧ ∀ c ∈ y.head?, c = '\n' := by
  rw [restOfLine, length_takeWhile_iff]
  have hline : (∀ c ∈ v, decide (c ≠ '\n') = true) ↔ '\n' ∉ v := by
    simp only [decide_eq_true_eq]
    exact ⟨fun h hmem => h _ hmem rfl, fun h c hc heq => h (heq ▸ hc)⟩
  have hend : headIs (fun c => decide (c ≠ '\n')) y = false ↔ ∀ c ∈ y.head?, c = '\n' := by
    cases y with
    | nil => simp [headIs]
    | cons c y => simp [headIs]
  rw [hline, hend]

/-- Blanks are taken together. -/
theorem trivia?_blank {c : Char} (hc : isBlank c = true) (rest : List Char) :
    trivia? (c :: rest) = some (.trivia ((c :: rest).takeWhile isBlank).length) := by
  unfold trivia?
  split
  · rename_i htext
    obtain ⟨rfl, -⟩ := List.cons.inj htext
    exact absurd hc (by decide)
  · rename_i htext
    obtain ⟨rfl, -⟩ := List.cons.inj htext
    exact absurd hc (by decide)
  · rename_i htext
    obtain ⟨rfl, -⟩ := List.cons.inj htext
    exact absurd hc (by decide)
  · simp [hc]

theorem readToken_ne_trivia {c : Char} {rest : List Char} {count : Nat} :
    readToken c rest ≠ .trivia count := by
  unfold readToken ofLiteral
  grind

/-- What is passed over is trivia. -/
theorem isTrivia_of_trivia? {x y : List Char} (hne : x ≠ [])
    (h : trivia? (x ++ y) = some (.trivia x.length)) : IsTrivia x y := by
  cases x with
  | nil => exact absurd rfl hne
  | cons c x =>
      rw [List.cons_append] at h
      unfold trivia? at h
      split at h
      · rename_i rest htext
        obtain ⟨rfl, hmore⟩ := List.cons.inj htext
        simp only [Option.some.injEq, trivia.injEq, List.length_cons] at h
        cases x with
        | nil =>
            simp only [List.length_nil] at h
            omega
        | cons d v =>
            rw [List.cons_append] at hmore
            obtain ⟨rfl, rfl⟩ := List.cons.inj hmore
            simp only [List.length_cons] at h
            obtain ⟨hline, hend⟩ := restOfLine_iff.mp (show restOfLine (v ++ y) = v.length by omega)
            exact .line (Or.inl rfl) hline hend
      · rename_i rest htext
        obtain ⟨rfl, hmore⟩ := List.cons.inj htext
        split at h
        · rename_i count hcount
          simp only [Option.some.injEq, trivia.injEq, List.length_cons] at h
          cases x with
          | nil =>
              simp only [List.length_nil] at h
              omega
          | cons d v =>
              rw [List.cons_append] at hmore
              obtain ⟨rfl, rfl⟩ := List.cons.inj hmore
              simp only [List.length_cons] at h
              obtain rfl : count = v.length := by omega
              exact .block ((commentEnd?_append (Nat.le_refl _)).mp hcount)
        · cases h
      · rename_i rest htext
        obtain ⟨rfl, rfl⟩ := List.cons.inj htext
        simp only [Option.some.injEq, trivia.injEq, List.length_cons] at h
        obtain ⟨hline, hend⟩ := restOfLine_iff.mp (show restOfLine (x ++ y) = x.length by omega)
        exact .line (Or.inr rfl) hline hend
      · split at h
        · cases h
        · simp only [Option.some.injEq, trivia.injEq] at h
          rw [← List.cons_append] at h
          obtain ⟨hblank, hend⟩ := length_takeWhile_iff.mp h
          exact .blank (List.cons_ne_nil c x) hblank hend

/-- Trivia is passed over as a whole. -/
theorem trivia?_of_isTrivia {x y : List Char} (h : IsTrivia x y) :
    trivia? (x ++ y) = some (.trivia x.length) := by
  cases h with
  | blank nonempty blank ends =>
      have hlen := length_takeWhile_iff.mpr ⟨blank, ends⟩
      cases x with
      | nil => exact absurd rfl nonempty
      | cons c x =>
          rw [List.cons_append] at hlen ⊢
          rw [trivia?_blank (blank c List.mem_cons_self), hlen]
  | line leads inLine ends =>
      have hlen := restOfLine_iff.mpr ⟨inLine, ends⟩
      rcases leads with rfl | rfl
      · simp only [List.cons_append, List.nil_append, trivia?, hlen, List.length_cons]
        rw [Nat.add_comm]
      · simp only [List.cons_append, List.nil_append, trivia?, hlen, List.length_cons]
        rw [Nat.add_comm]
  | block closed =>
      have hend : commentEnd? (_ ++ y) = some _ := (commentEnd?_append (Nat.le_refl _)).mpr closed
      simp only [List.cons_append, trivia?, hend, List.length_cons]
      rw [Nat.add_comm]

theorem IsTrivia.ne_nil {x y : List Char} (h : IsTrivia x y) : x ≠ [] := by
  cases h with
  | blank nonempty _ _ => exact nonempty
  | line leads _ _ => rcases leads with rfl | rfl <;> simp
  | block _ => simp

/-- Something is always passed over, and never more than there is. -/
theorem trivia?_count {text : List Char} {count : Nat} (h : trivia? text = some (.trivia count)) :
    0 < count ∧ count ≤ text.length := by
  unfold trivia? at h
  split at h
  · rename_i rest
    have hle := (List.takeWhile_prefix (p := (· ≠ '\n')) (l := rest)).length_le
    cases h
    simp only [restOfLine, List.length_cons]
    omega
  · split at h
    · rename_i rest count hcount
      have hle := (commentEnd?_endsWithin hcount).2.le
      cases h
      simp only [List.length_cons]
      omega
    · cases h
  · rename_i rest
    have hle := (List.takeWhile_prefix (p := (· ≠ '\n')) (l := rest)).length_le
    cases h
    simp only [restOfLine, List.length_cons]
    omega
  · split at h
    · cases h
    · rename_i hpos
      have hle := (List.takeWhile_prefix (p := isBlank) (l := text)).length_le
      cases h
      exact ⟨Nat.pos_of_ne_zero hpos, hle⟩

theorem trivia?_of_ofText? {text : List Char} {count : Nat} (h : ofText? text = some (.trivia count)) :
    trivia? text = some (.trivia count) := by
  cases text with
  | nil => cases h
  | cons c rest =>
      rw [ofText?, Option.some.injEq, ofText] at h
      split at h
      · rename_i lexeme htrivia
        rwa [← h]
      · exact absurd h readToken_ne_trivia

/-- Trivia is read where there is some. -/
theorem ofText?_eq_trivia_iff {x y : List Char} :
    ofText? (x ++ y) = some (.trivia x.length) ↔ IsTrivia x y := by
  constructor
  · intro h
    have htrivia := trivia?_of_ofText? h
    exact isTrivia_of_trivia? (List.length_pos_iff.mp (trivia?_count htrivia).1) htrivia
  · intro h
    have htrivia := trivia?_of_isTrivia h
    cases x with
    | nil => exact absurd rfl h.ne_nil
    | cons c x => rw [List.cons_append, ofText?, ofText, ← List.cons_append, htrivia]

end Lexeme

end ClassChart
