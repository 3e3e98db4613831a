/-
# ClassChart.Proofs.Token.Lookahead — how far a token looks ahead

A reader of tokens sees the whole rest of the text, but what it finds depends on little of it: the token
itself, and a character or two behind it. So a token that was read before one text is read before
another one too, when that one begins with a blank or with a mark. Each reader has a law of this form.
-/
import ClassChart.Proofs.Token.Literal

namespace ClassChart

namespace Lexeme

open Text Literal

/-! ## Numbers and words -/

section Words

variable {front rest rest' : List Char}

theorem isDigit_continuesName {c : Char} (hc : c.isDigit = true) : continuesName c = true := by
  have hcode : c.toNat < 0x80 := by
    simp only [Char.isDigit, Bool.and_eq_true, decide_eq_true_eq, UInt32.le_iff_toNat_le] at hc
    have hle : c.toNat ≤ 57 := hc.2
    omega
  simp [continuesName, isNumeral, hcode, hc]

theorem isDigit_continuesNumber {c : Char} (hc : c.isDigit = true) : continuesNumber c = true := by
  simp [continuesNumber, Char.isAlphanum, hc]

theorem startsName_continuesName {c : Char} (hc : startsName c = true) : continuesName c = true := by
  simp only [startsName, continuesName, Bool.or_eq_true] at hc ⊢
  rcases hc with hc | hc
  · exact Or.inl (Or.inl hc)
  · exact Or.inr hc

/-- No stop begins a name. -/
theorem stops_startsName : ∀ c ∈ stopChars, startsName c = false := by
  intro c hc
  rw [Bool.eq_false_iff]
  intro hstart
  exact absurd (startsName_continuesName hstart) (Bool.eq_false_iff.mp (stops_continuesName c hc))

/-- A number that ends within the front ends there before any stop. -/
theorem numberTail_append {afterMark : Bool}
    (hlen : numberTail afterMark (front ++ rest) ≤ front.length) (hrest' : Stops rest') :
    numberTail afterMark (front ++ rest') = numberTail afterMark (front ++ rest) := by
  induction front generalizing afterMark with
  | nil =>
      have hnone : headIs continuesNumber rest' = false := hrest'.headIs stops_continuesNumber
      have hsign : headIs isSign rest' = false := hrest'.headIs (by decide)
      have hzero : numberTail afterMark rest' = 0 := by
        cases rest' with
        | nil => rfl
        | cons c rest' =>
            rw [headIs_cons] at hnone hsign
            simp [numberTail, hnone, hsign]
      simp only [List.nil_append, List.length_nil] at hlen ⊢
      omega
  | cons c front ih =>
      -- A sign belongs to the number only before a digit, which then lies within the front too.
      have hdigit (hmore : front ≠ [] ∨ headIs Char.isDigit (front ++ rest) = false) :
          headIs Char.isDigit (front ++ rest') = headIs Char.isDigit (front ++ rest) := by
        cases front with
        | cons d front => rfl
        | nil =>
            rcases hmore with hmore | hmore
            · exact absurd rfl hmore
            · rw [List.nil_append, hrest'.headIs stops_isDigit, hmore]
      simp only [List.cons_append, numberTail, List.length_cons] at hlen ⊢
      split
      · rename_i hc
        rw [if_pos hc] at hlen
        rw [ih (by omega)]
      · rename_i hc
        rw [if_neg hc] at hlen
        split at hlen
        · rename_i hsign
          have hne : front ≠ [] := by
            rintro rfl
            simp only [Bool.and_eq_true, List.nil_append] at hsign
            cases rest with
            | nil => exact Bool.noConfusion hsign.2
            | cons d rest =>
                have hd : continuesNumber d = true := isDigit_continuesNumber hsign.2
                simp only [List.nil_append, numberTail, hd, if_true, List.length_nil] at hlen
                omega
          rw [hdigit (Or.inl hne), if_pos hsign, if_pos hsign, ih (by omega)]
        · rename_i hsign
          cases hhead : headIs Char.isDigit (front ++ rest) with
          | false => simp [hdigit (Or.inr hhead), hhead]
          | true =>
              simp only [hhead, Bool.and_true] at hsign ⊢
              simp [hsign]

/-- So does a word. -/
theorem wordTail_append (hlen : wordTail (front ++ rest) ≤ front.length) (hrest' : Stops rest') :
    wordTail (front ++ rest') = wordTail (front ++ rest) := by
  induction front with
  | nil =>
      have hname : headIs continuesName rest' = false := hrest'.headIs stops_continuesName
      have hpoint : headIs (· == '.') rest' = false := hrest'.headIs (by decide)
      have hzero : wordTail rest' = 0 := by
        cases rest' with
        | nil => rfl
        | cons c rest' =>
            rw [headIs_cons] at hname hpoint
            simp [wordTail, hname, hpoint]
      simp only [List.nil_append, List.length_nil] at hlen ⊢
      omega
  | cons c front ih =>
      -- A point belongs to the word only before a further name, which then lies within the front too.
      have hstart (hmore : front ≠ [] ∨ headIs startsName (front ++ rest) = false) :
          headIs startsName (front ++ rest') = headIs startsName (front ++ rest) := by
        cases front with
        | cons d front => rfl
        | nil =>
            rcases hmore with hmore | hmore
            · exact absurd rfl hmore
            · rw [List.nil_append, hrest'.headIs stops_startsName, hmore]
      simp only [List.cons_append, wordTail, List.length_cons] at hlen ⊢
      split at hlen
      · rename_i hc
        have hsame : (continuesName c || c == '.' && headIs startsName (front ++ rest')) = true := by
          cases hname : continuesName c with
          | true => rfl
          | false =>
              simp only [hname, Bool.false_or] at hc ⊢
              have hne : front ≠ [] := by
                rintro rfl
                simp only [Bool.and_eq_true, List.nil_append] at hc
                cases rest with
                | nil => exact Bool.noConfusion hc.2
                | cons d rest =>
                    have hd : continuesName d = true := startsName_continuesName hc.2
                    simp only [List.nil_append, wordTail, hd, Bool.true_or, if_true,
                      List.length_nil] at hlen
                    omega
              rwa [hstart (Or.inl hne)]
        rw [if_pos hc, if_pos hsame, ih (by omega)]
      · rename_i hc
        have hsame : ¬ (continuesName c || c == '.' && headIs startsName (front ++ rest')) = true := by
          cases hhead : headIs startsName (front ++ rest) with
          | false =>
              rw [hstart (Or.inr hhead)]
              exact hc
          | true =>
              simp only [hhead, Bool.and_true, Bool.or_eq_true, not_or, Bool.not_eq_true] at hc
              simp [hc.1, hc.2]
        rw [if_neg hc, if_neg hsame]

/-- A sign is told by its first character. -/
theorem signLength_append (hfront : front ≠ []) (rest : List Char) :
    signLength (front ++ rest) = signLength front := by
  rw [signLength, signLength, headIs_append hfront]

theorem signLength_le (hfront : front ≠ []) : signLength front ≤ front.length := by
  have hpos := List.length_pos_iff.mpr hfront
  unfold signLength
  split <;> omega

theorem plainDigits_le (hrest : headIs Char.isDigit rest = false) :
    plainDigits (front ++ rest) ≤ front.length := by
  unfold plainDigits
  split
  · rename_i zero htext
    cases front with
    | nil =>
        rw [List.nil_append] at htext
        rw [htext] at hrest
        exact Bool.noConfusion hrest
    | cons c front => simp
  · exact length_takeWhile_le hrest

theorem plainDigits_append (hlen : plainDigits (front ++ rest) ≤ front.length)
    (hrest' : headIs Char.isDigit rest' = false) :
    plainDigits (front ++ rest') = plainDigits (front ++ rest) := by
  cases front with
  | nil =>
      have hle : plainDigits ([] ++ rest') ≤ 0 := plainDigits_le hrest'
      simp only [List.length_nil] at hlen
      omega
  | cons c front =>
      by_cases hc : c = '0'
      · subst hc
        rfl
      · have hplain (more : List Char) : plainDigits (c :: front ++ more) =
            ((c :: front ++ more).takeWhile Char.isDigit).length := by
          unfold plainDigits
          split
          · rename_i htext
            exact absurd (List.cons.inj htext).1 hc
          · rfl
        rw [hplain] at hlen ⊢
        rw [hplain, takeWhile_append_congr hlen]
        rw [hrest']
        exact fun h => Bool.noConfusion h

/-- What an integer must not be followed by. -/
def endsInteger (c : Char) : Bool := continuesName c || c == '.'

theorem stops_endsInteger {text : List Char} (h : Stops text) : headIs endsInteger text = false := by
  apply h.headIs
  intro c hc
  have hpoint : (c == '.') = false := by
    rw [beq_eq_false_iff_ne]
    rintro rfl
    exact absurd hc (by decide)
  rw [endsInteger, stops_continuesName c hc, hpoint, Bool.or_false]

theorem isDigit_of_endsInteger {text : List Char} (h : headIs endsInteger text = false) :
    headIs Char.isDigit text = false := by
  cases text with
  | nil => rfl
  | cons c text =>
      rw [headIs_cons, endsInteger, Bool.or_eq_false_iff] at h
      rw [headIs_cons, Bool.eq_false_iff]
      intro hc
      rw [isDigit_continuesName hc] at h
      exact Bool.noConfusion h.1

/-- An integer that ends within the front is read before anything that does not go on with it. -/
theorem integer?_append {count : Nat} (h : integer? (front ++ rest) = some count)
    (hcount : count ≤ front.length) (hfront : front ≠ [])
    (hrest' : headIs endsInteger rest' = false) : integer? (front ++ rest') = some count := by
  have hsign := signLength_le hfront
  simp only [integer?, signLength_append hfront, List.drop_append_of_le_length hsign] at h ⊢
  split at h
  · cases h
  · rename_i hdigits
    split at h
    · cases h
    · rename_i hnext
      cases h
      have hlen : plainDigits (front.drop (signLength front) ++ rest) ≤
          (front.drop (signLength front)).length := by
        rw [List.length_drop]
        omega
      have hsame := plainDigits_append hlen (isDigit_of_endsInteger hrest')
      rw [List.drop_append_of_le_length hcount] at hnext
      rw [hsame, if_neg hdigits, List.drop_append_of_le_length hcount, if_neg]
      -- What follows the digits lies within the front, or it is the new rest.
      cases hdrop : front.drop (signLength front +
          plainDigits (front.drop (signLength front) ++ rest)) with
      | nil =>
          rw [List.nil_append]
          exact Bool.eq_false_iff.mp hrest'
      | cons c more =>
          rw [hdrop] at hnext
          exact hnext

theorem continuesName_of_isAlphanum {c : Char} (hc : c.isAlphanum = true) : continuesName c = true := by
  rw [Char.isAlphanum, Bool.or_eq_true] at hc
  rcases hc with hc | hc
  · have hcode : c.toNat < 0x80 := by
      rcases Bool.or_eq_true_iff.mp (show (c.isUpper || c.isLower) = true from hc) with hcase | hcase
      · have hle : c.toNat ≤ 90 := (of_decide_eq_true hcase).2
        omega
      · have hle : c.toNat ≤ 122 := of_decide_eq_true (Bool.and_eq_true_iff.mp hcase).2
        omega
    simp [continuesName, isLetter, hcode, hc]
  · exact isDigit_continuesName hc

/-- A character that goes on a number ends an integer. -/
theorem endsInteger_of_continuesNumber {c : Char} (hc : continuesNumber c = true) :
    endsInteger c = true := by
  simp only [continuesNumber, endsInteger, Bool.or_eq_true] at hc ⊢
  rcases hc with (hc | hc) | hc
  · exact Or.inl (continuesName_of_isAlphanum hc)
  · exact Or.inl (by simp [continuesName, hc])
  · exact Or.inr hc

theorem numberTail_digits {text : List Char}
    (hnext : headIs endsInteger (text.drop (text.takeWhile Char.isDigit).length) = false) :
    numberTail false text = (text.takeWhile Char.isDigit).length := by
  induction text with
  | nil => rfl
  | cons c text ih =>
      by_cases hc : c.isDigit = true
      · have hmark : (c == 'e' || c == 'E') = false := by
          rw [Bool.eq_false_iff]
          intro hmark
          simp only [Bool.or_eq_true, beq_iff_eq] at hmark
          rcases hmark with rfl | rfl <;> exact Bool.noConfusion hc
        simp only [List.takeWhile_cons, hc, if_true, List.length_cons, List.drop_succ_cons] at hnext ⊢
        rw [numberTail, if_pos (isDigit_continuesNumber hc), hmark, ih hnext]
        omega
      · simp only [List.takeWhile_cons, hc, Bool.false_eq_true, if_false, List.length_nil,
          List.drop_zero] at hnext ⊢
        have hnumber : ¬ continuesNumber c = true := by
          intro hnumber
          rw [headIs_cons, endsInteger_of_continuesNumber hnumber] at hnext
          exact Bool.noConfusion hnext
        simp [numberTail, hnumber]

/-- An integer is a number too, and as such it is no longer. -/
theorem number?_of_integer? {text : List Char} {count : Nat} (h : integer? text = some count) :
    number? text = some count := by
  simp only [integer?] at h
  split at h
  · cases h
  · rename_i hdigits
    split at h
    · cases h
    · rename_i hnext
      obtain rfl := Option.some.inj h
      rw [Bool.not_eq_true, ← List.drop_drop] at hnext
      rw [number?]
      generalize text.drop (signLength text) = digits at hdigits hnext ⊢
      unfold plainDigits at hdigits hnext ⊢
      split at hdigits
      · rename_i zero
        have hnumber : headIs continuesNumber zero = false := by
          cases zero with
          | nil => rfl
          | cons c zero =>
              rw [headIs_cons, Bool.eq_false_iff]
              intro hc
              have hends := endsInteger_of_continuesNumber hc
              rw [show headIs _ _ = endsInteger c from rfl, hends] at hnext
              exact Bool.noConfusion hnext
        have hzero : numberTail false zero = 0 := by
          cases zero with
          | nil => rfl
          | cons c zero =>
              rw [headIs_cons] at hnumber
              simp [numberTail, hnumber]
        simp [hzero]
      · cases digits with
        | nil => exact absurd rfl hdigits
        | cons c more =>
            by_cases hc : c.isDigit = true
            · simp only [List.takeWhile_cons, hc, if_true, List.length_cons,
                List.drop_succ_cons] at hnext ⊢
              rw [numberTail_digits hnext]
              simp only [Option.some.injEq]
              omega
            · simp [hc] at hdigits

theorem integer?_eq_none {text : List Char} (h : number? text = none) : integer? text = none := by
  cases hinteger : integer? text with
  | none => rfl
  | some count =>
      rw [number?_of_integer? hinteger] at h
      cases h

/-- A number that ends within the front is read before any stop. -/
theorem number?_append {count : Nat} (h : number? (front ++ rest) = some count)
    (hcount : count ≤ front.length) (hfront : front ≠ []) (hrest' : Stops rest') :
    number? (front ++ rest') = some count := by
  have hsign := signLength_le hfront
  simp only [number?, signLength_append hfront, List.drop_append_of_le_length hsign] at h ⊢
  cases hdigits : front.drop (signLength front) with
  | nil =>
      have hlen := List.drop_eq_nil_iff.mp hdigits
      rw [hdigits, List.nil_append] at h
      split at h
      · split at h
        · obtain rfl := Option.some.inj h
          omega
        · cases h
      · cases h
  | cons c more =>
      have hlen := congrArg List.length hdigits
      rw [hdigits] at h
      simp only [List.cons_append, List.length_drop, List.length_cons] at h hlen ⊢
      split at h
      · rename_i hc
        obtain rfl := Option.some.inj h
        have htail : numberTail false (more ++ rest) ≤ more.length := by omega
        rw [if_pos hc, numberTail_append htail hrest']
      · cases h

/-- No stop makes a number of what is none. -/
theorem number?_append_none (h : number? (front ++ rest) = none) (hfront : front ≠ [])
    (hrest' : Stops rest') : number? (front ++ rest') = none := by
  have hsign := signLength_le hfront
  simp only [number?, signLength_append hfront, List.drop_append_of_le_length hsign] at h ⊢
  cases hdigits : front.drop (signLength front) with
  | nil =>
      have hdigit := hrest'.headIs stops_isDigit
      cases rest' with
      | nil => rfl
      | cons c rest' =>
          rw [headIs_cons] at hdigit
          simp [hdigit]
  | cons c more =>
      rw [hdigits] at h
      simp only [List.cons_append] at h ⊢
      split at h
      · cases h
      · rename_i hc
        rw [if_neg hc]

/-- A word that ends within the front is read before any stop. -/
theorem word?_append {count : Nat} (h : word? (front ++ rest) = some count)
    (hcount : count ≤ front.length) (hfront : front ≠ []) (hrest' : Stops rest') :
    word? (front ++ rest') = some count := by
  cases front with
  | nil => exact absurd rfl hfront
  | cons c front =>
      simp only [List.cons_append, word?, List.length_cons] at h hcount ⊢
      split at h
      · rename_i hc
        obtain rfl := Option.some.inj h
        have htail : wordTail (front ++ rest) ≤ front.length := by omega
        rw [if_pos hc, wordTail_append htail hrest']
      · cases h

theorem word?_append_none (h : word? (front ++ rest) = none) (hfront : front ≠ []) :
    word? (front ++ rest') = none := by
  cases front with
  | nil => exact absurd rfl hfront
  | cons c front =>
      simp only [List.cons_append, word?] at h ⊢
      split at h
      · cases h
      · rename_i hc
        rw [if_neg hc]

/-- A mark is read before anything, but `=` not before `>`. -/
theorem mark?_append {count : Nat} (h : mark? (front ++ rest) = some count)
    (hcount : count ≤ front.length) (hfront : front ≠ [])
    (harrow : front = ['='] → rest'.head? ≠ some '>') : mark? (front ++ rest') = some count := by
  cases front with
  | nil => exact absurd rfl hfront
  | cons c front =>
      cases front with
      | cons d front =>
          by_cases hboth : c = '=' ∧ d = '>'
          · obtain ⟨rfl, rfl⟩ := hboth
            exact h
          · simp only [List.cons_append, mark?] at h ⊢
            grind
      | nil =>
          simp only [List.cons_append, List.nil_append, List.length_singleton] at h hcount harrow ⊢
          unfold mark? at h ⊢
          grind

theorem mark?_append_none (h : mark? (front ++ rest) = none) (hfront : front ≠ []) :
    mark? (front ++ rest') = none := by
  cases front with
  | nil => exact absurd rfl hfront
  | cons c front =>
      simp only [List.cons_append, mark?] at h ⊢
      have hequals : marks.contains '=' = true := by decide
      grind

end Words

/-! ## Tokens -/

/-- What stands at the head of a text, if the text is not empty. -/
def ofText? : List Char → Option Lexeme
  | [] => none
  | c :: rest => some (ofText c rest)

/-- How a token at the head of a text is read: by the first reader that finds one. -/
inductive ReadsAs (text : List Char) : TokenKind → Nat → Prop where
  | string {count : Nat} (found : string? text = some (.ok count)) : ReadsAs text .stringLiteral count
  | character {count : Nat} (noString : string? text = none)
      (found : character? text = some (.ok count)) : ReadsAs text .charLiteral count
  | integer {count : Nat} (noString : string? text = none) (noCharacter : character? text = none)
      (found : integer? text = some count) : ReadsAs text .integerLiteral count
  | number {count : Nat} (noString : string? text = none) (noCharacter : character? text = none)
      (noInteger : integer? text = none) (found : number? text = some count) :
      ReadsAs text .numberLiteral count
  | word {count : Nat} (noString : string? text = none) (noCharacter : character? text = none)
      (noNumber : number? text = none) (found : word? text = some count) :
      ReadsAs text (.ofWord (String.ofList (text.take count))) count
  | mark {count : Nat} (noString : string? text = none) (noCharacter : character? text = none)
      (noNumber : number? text = none) (noWord : word? text = none)
      (found : mark? text = some count) : ReadsAs text .punctuation count
  | symbol (noString : string? text = none) (noCharacter : character? text = none)
      (noNumber : number? text = none) (noWord : word? text = none) (noMark : mark? text = none)
      (printable : headIs isControl text = false) : ReadsAs text .symbol 1

/-- What the reader gives is what the characters are read as. -/
theorem readsAs_of_readToken {c : Char} {rest : List Char} {kind : TokenKind} {count : Nat}
    (h : readToken c rest = .token kind count) : ReadsAs (c :: rest) kind count := by
  unfold readToken at h
  simp only at h
  split at h
  · rename_i found hstring
    cases found with
    | error fault => cases h
    | ok count =>
        cases h
        exact .string hstring
  · rename_i hstring
    split at h
    · rename_i found hcharacter
      cases found with
      | error fault => cases h
      | ok count =>
          cases h
          exact .character hstring hcharacter
    · rename_i hcharacter
      split at h
      · rename_i count hinteger
        cases h
        exact .integer hstring hcharacter hinteger
      · rename_i hinteger
        split at h
        · rename_i count hnumber
          cases h
          exact .number hstring hcharacter hinteger hnumber
        · rename_i hnumber
          split at h
          · rename_i count hword
            cases h
            exact .word hstring hcharacter hnumber hword
          · rename_i hword
            split at h
            · rename_i count hmark
              cases h
              exact .mark hstring hcharacter hnumber hword hmark
            · rename_i hmark
              split at h
              · cases h
              · rename_i hcontrol
                cases h
                exact .symbol hstring hcharacter hnumber hword hmark (Bool.eq_false_iff.mpr hcontrol)

/-- What the characters are read as is what the reader gives. -/
theorem readToken_of_readsAs {c : Char} {rest : List Char} {kind : TokenKind} {count : Nat}
    (h : ReadsAs (c :: rest) kind count) : readToken c rest = .token kind count := by
  unfold readToken
  cases h with
  | string found => simp [found, ofLiteral]
  | character noString found => simp [noString, found, ofLiteral]
  | integer noString noCharacter found => simp [noString, noCharacter, found]
  | number noString noCharacter noInteger found => simp [noString, noCharacter, noInteger, found]
  | word noString noCharacter noNumber found =>
      simp [noString, noCharacter, integer?_eq_none noNumber, noNumber, found]
  | mark noString noCharacter noNumber noWord found =>
      simp [noString, noCharacter, integer?_eq_none noNumber, noNumber, noWord, found]
  | symbol noString noCharacter noNumber noWord noMark printable =>
      rw [headIs_cons] at printable
      simp [noString, noCharacter, integer?_eq_none noNumber, noNumber, noWord, noMark, printable]

theorem trivia?_ne_token {text : List Char} {kind : TokenKind} {count : Nat} :
    trivia? text ≠ some (.token kind count) := by
  intro h
  unfold trivia? at h
  split at h
  · cases h
  · split at h <;> cases h
  · cases h
  · split at h <;> cases h

/-- A token is read where no trivia is. -/
theorem ofText?_eq_token_iff {text : List Char} {kind : TokenKind} {count : Nat} :
    ofText? text = some (.token kind count) ↔
      text ≠ [] ∧ trivia? text = none ∧ ReadsAs text kind count := by
  cases text with
  | nil =>
      constructor
      · intro h
        cases h
      · exact fun h => absurd rfl h.1
  | cons c rest =>
      rw [ofText?, Option.some.injEq, ofText]
      cases htrivia : trivia? (c :: rest) with
      | some lexeme =>
          constructor
          · rintro rfl
            exact absurd htrivia trivia?_ne_token
          · intro h
            exact absurd h.2.1 (Option.some_ne_none lexeme)
      | none =>
          constructor
          · exact fun h => ⟨List.cons_ne_nil c rest, rfl, readsAs_of_readToken h⟩
          · exact fun h => readToken_of_readsAs h.2.2

section Tokens

variable {front rest rest' : List Char} {kind : TokenKind} {count : Nat}

/-- A string that ends within the front is read before any stop. -/
theorem string?_append (h : string? (front ++ rest) = some (.ok count)) (hcount : count ≤ front.length)
    (hrest' : Stops rest') : string? (front ++ rest') = some (.ok count) := by
  unfold string? at h
  split at h
  · rename_i opened frame hopener
    obtain hclose := Option.some.inj h
    have hle := le_of_close hclose
    have hsome : opener? 0 (front ++ rest') = some (opened, frame) :=
      opener?_append_some hopener (by omega)
    rw [List.drop_append_of_le_length (by omega)] at hclose
    unfold string?
    rw [hsome]
    simp only
    rw [List.drop_append_of_le_length (by omega), close_append hclose ?_ hrest']
    rw [List.length_drop]
    omega
  · cases h

/-- No stop makes a string of what is none. -/
theorem string?_append_none (h : string? (front ++ rest) = none) (hfront : front ≠ [])
    (hrest' : Stops rest') : string? (front ++ rest') = none := by
  unfold string? at h
  split at h
  · cases h
  · rename_i hopener
    unfold string?
    rw [opener?_append_none hopener hfront hrest']

/-- A character that ends within the front is read before any stop. -/
theorem character?_append (h : character? (front ++ rest) = some (.ok count))
    (hcount : count ≤ front.length) (hfront : front ≠ []) (hrest' : Stops rest') :
    character? (front ++ rest') = some (.ok count) := by
  cases front with
  | nil => exact absurd rfl hfront
  | cons c front =>
      unfold character? at h
      split at h
      · rename_i more htext
        obtain ⟨rfl, rfl⟩ := List.cons.inj htext
        have hclose := Option.some.inj h
        simp only [List.length_cons] at hcount
        show some (close [.character 0 false] 1 (front ++ rest')) = _
        rw [close_append hclose (by omega) hrest']
      · cases h

theorem character?_append_none (h : character? (front ++ rest) = none) (hfront : front ≠ []) :
    character? (front ++ rest') = none := by
  cases front with
  | nil => exact absurd rfl hfront
  | cons c front =>
      unfold character? at h ⊢
      grind

/-- Trivia begins with a blank, a `#`, or a slash with the second character of a comment. -/
theorem trivia?_eq_none_iff {c : Char} :
    trivia? (c :: rest) = none ↔ isBlank c = false ∧ c ≠ '#' ∧
      (c = '/' → rest.head? ≠ some '/' ∧ rest.head? ≠ some '*') := by
  unfold trivia?
  split
  · rename_i more htext
    obtain ⟨rfl, rfl⟩ := List.cons.inj htext
    simp
  · rename_i more htext
    obtain ⟨rfl, rfl⟩ := List.cons.inj htext
    split <;> simp
  · rename_i more htext
    obtain ⟨rfl, rfl⟩ := List.cons.inj htext
    simp
  · rename_i hline hblock hdirective
    cases hc : isBlank c with
    | true => simp [hc]
    | false =>
        simp only [List.takeWhile_cons, hc, Bool.false_eq_true, if_false, List.length_nil, true_and,
          true_iff]
        refine ⟨fun hhash => hdirective rest (by rw [hhash]), fun hslash => ⟨?_, ?_⟩⟩
        · intro hhead
          obtain ⟨more, rfl⟩ := List.head?_eq_some_iff.mp hhead
          exact hline more (by rw [hslash])
        · intro hhead
          obtain ⟨more, rfl⟩ := List.head?_eq_some_iff.mp hhead
          exact hblock more (by rw [hslash])

theorem trivia?_append_none (h : trivia? (front ++ rest) = none) (hfront : front ≠ [])
    (hrest' : Stops rest') : trivia? (front ++ rest') = none := by
  have hslash : rest'.head? ≠ some '/' := hrest'.head_ne (by decide)
  have hstar : rest'.head? ≠ some '*' := hrest'.head_ne (by decide)
  cases front with
  | nil => exact absurd rfl hfront
  | cons c front =>
      obtain ⟨hblank, hhash, hcomment⟩ := trivia?_eq_none_iff.mp h
      refine trivia?_eq_none_iff.mpr ⟨hblank, hhash, fun hc => ?_⟩
      cases front with
      | nil => exact ⟨hslash, hstar⟩
      | cons d front => exact hcomment hc

/-- A token that ends within a front is read there before every text that stops it: with the same extent,
and with the same kind, unless it was kept from being an integer by what followed. -/
theorem ofText?_token_append (h : ofText? (front ++ rest) = some (.token kind count))
    (hcount : count ≤ front.length) (hfront : front ≠ []) (hrest' : Stops rest')
    (harrow : front = ['='] → rest'.head? ≠ some '>') :
    ∃ kind', ofText? (front ++ rest') = some (.token kind' count) ∧
      (kind' = kind ∨ kind' = .integerLiteral ∧ kind = .numberLiteral ∧
        headIs endsInteger rest = true) := by
  obtain ⟨_, htrivia, hreads⟩ := ofText?_eq_token_iff.mp h
  have hne : front ++ rest' ≠ [] := by simp [hfront]
  have htrivia' := trivia?_append_none htrivia hfront hrest'
  suffices hreads' : ∃ kind', ReadsAs (front ++ rest') kind' count ∧
      (kind' = kind ∨ kind' = .integerLiteral ∧ kind = .numberLiteral ∧
        headIs endsInteger rest = true) by
    obtain ⟨kind', hreads', hkind⟩ := hreads'
    exact ⟨kind', ofText?_eq_token_iff.mpr ⟨hne, htrivia', hreads'⟩, hkind⟩
  cases hreads with
  | string found => exact ⟨_, .string (string?_append found hcount hrest'), Or.inl rfl⟩
  | character noString found =>
      exact ⟨_, .character (string?_append_none noString hfront hrest')
        (character?_append found hcount hfront hrest'), Or.inl rfl⟩
  | integer noString noCharacter found =>
      exact ⟨_, .integer (string?_append_none noString hfront hrest')
        (character?_append_none noCharacter hfront)
        (integer?_append found hcount hfront (stops_endsInteger hrest')), Or.inl rfl⟩
  | number noString noCharacter noInteger found =>
      have hstring := string?_append_none noString hfront hrest'
      have hcharacter : character? (front ++ rest') = none := character?_append_none noCharacter hfront
      have hnumber := number?_append found hcount hfront hrest'
      cases hinteger : integer? (front ++ rest') with
      | none => exact ⟨_, .number hstring hcharacter hinteger hnumber, Or.inl rfl⟩
      | some other =>
          -- It is an integer now, as long as the number was, so what followed was in the way before.
          have hsame := number?_of_integer? hinteger
          rw [hnumber] at hsame
          obtain rfl := Option.some.inj hsame
          refine ⟨_, .integer hstring hcharacter hinteger, Or.inr ⟨rfl, rfl, ?_⟩⟩
          rw [← Bool.not_eq_false]
          intro hends
          rw [integer?_append hinteger hcount hfront hends] at noInteger
          cases noInteger
  | word noString noCharacter noNumber found =>
      have hword := word?_append found hcount hfront hrest'
      refine ⟨_, .word (string?_append_none noString hfront hrest')
        (character?_append_none noCharacter hfront) (number?_append_none noNumber hfront hrest') hword,
        Or.inl ?_⟩
      rw [List.take_append_of_le_length hcount, List.take_append_of_le_length hcount]
  | mark noString noCharacter noNumber noWord found =>
      exact ⟨_, .mark (string?_append_none noString hfront hrest')
        (character?_append_none noCharacter hfront) (number?_append_none noNumber hfront hrest')
        (word?_append_none noWord hfront) (mark?_append found hcount hfront harrow), Or.inl rfl⟩
  | symbol noString noCharacter noNumber noWord noMark printable =>
      rw [headIs_append hfront] at printable
      refine ⟨_, .symbol (string?_append_none noString hfront hrest')
        (character?_append_none noCharacter hfront) (number?_append_none noNumber hfront hrest')
        (word?_append_none noWord hfront) (mark?_append_none noMark hfront) ?_, Or.inl rfl⟩
      rwa [headIs_append hfront]

end Tokens

/-! ## Marks and kinds -/

/-- No mark begins trivia. -/
theorem marks_not_comment : ∀ c ∈ marks, isBlank c = false ∧ c ≠ '#' ∧ c ≠ '/' := by decide

/-- No mark begins a number or a word. -/
theorem marks_not_word : ∀ c ∈ marks, c.isDigit = false ∧ isSign c = false ∧ startsName c = false := by
  decide

theorem marks_not_quote : ∀ c ∈ marks, c ≠ '\x27' ∧ c ≠ '"' ∧ c ≠ '$' ∧ c ≠ '@' := by decide

/-- A mark other than the equals sign is read whatever follows it. -/
theorem ofText?_mark {c : Char} (hc : c ∈ marks) (hequals : c ≠ '=') (rest : List Char) :
    ofText? (c :: rest) = some (.token .punctuation 1) := by
  obtain ⟨hblank, hhash, hslash⟩ := marks_not_comment c hc
  obtain ⟨hdigit, hsign, hname⟩ := marks_not_word c hc
  obtain ⟨hquote, hdouble, hdollar, hat⟩ := marks_not_quote c hc
  refine ofText?_eq_token_iff.mpr ⟨List.cons_ne_nil c rest, ?_, .mark ?_ ?_ ?_ ?_ ?_⟩
  · exact trivia?_eq_none_iff.mpr ⟨hblank, hhash, fun h => absurd h hslash⟩
  · have hopener : opener? 0 (c :: rest) = none := by
      unfold opener?
      grind
    rw [string?, hopener]
  · unfold character?
    grind
  · simp [number?, signLength, headIs_cons, hsign, hdigit]
  · simp [word?, hname]
  · unfold mark?
    grind

end Lexeme

end ClassChart
