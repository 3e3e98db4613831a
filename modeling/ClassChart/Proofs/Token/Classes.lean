/-
# ClassChart.Proofs.Token.Classes — the lexical class of each kind of token

What the kind of a token promises of its text and of what stands behind it, said by the rules of the
language and not by the order in which readers are tried. Names and numbers take as much as they can:
behind a word there is nothing that would go on with it, and a number is followed by no longer run.

The rules agree with the readers: a text has a token of a kind and an extent at its head exactly where
the rule for the kind holds of that extent. So the rules exclude one another, and no text begins with two
tokens by them.
-/
import ClassChart.Proofs.Token.Lossless
import ClassChart.Proofs.Token.Quoted

namespace ClassChart

open Text Literal

namespace Lexeme

/-! ## Words -/

/-- A letter or an underscore, and further letters, digits and underscores. -/
inductive IsSegment : List Char → Prop where
  | mk {c : Char} {more : List Char} (starts : startsName c = true)
      (continues : ∀ d ∈ more, continuesName d = true) : IsSegment (c :: more)

/-- Segments with points between them. -/
inductive IsWord : List Char → Prop where
  | segment {s : List Char} (isSegment : IsSegment s) : IsWord s
  | dotted {s x : List Char} (isSegment : IsSegment s) (more : IsWord x) : IsWord (s ++ '.' :: x)

/-- The text goes on with no further character of a name, and with no point and a further name. -/
def EndsWord (rest : List Char) : Prop :=
  headIs continuesName rest = false ∧ (rest.head? = some '.' → headIs startsName rest.tail = false)

section Words

variable {s x rest : List Char}

theorem IsSegment.concat (h : IsSegment s) {c : Char} (hc : continuesName c = true) :
    IsSegment (s ++ [c]) := by
  obtain ⟨hstarts, hcontinues⟩ := h
  refine .mk hstarts ?_
  intro d hd
  rcases List.mem_append.mp hd with hd | hd
  · exact hcontinues d hd
  · rwa [List.mem_singleton.mp hd]

theorem IsWord.cons_eq (h : IsWord x) : ∃ c more, x = c :: more ∧ startsName c = true := by
  cases h with
  | segment isSegment =>
      obtain ⟨starts, _⟩ := isSegment
      exact ⟨_, _, rfl, starts⟩
  | dotted isSegment _ =>
      obtain ⟨starts, _⟩ := isSegment
      exact ⟨_, _, rfl, starts⟩

theorem continuesName_point : continuesName '.' = false := by decide

theorem wordTail_eq_zero_iff : wordTail rest = 0 ↔ EndsWord rest := by
  cases rest with
  | nil => simp [wordTail, EndsWord, headIs]
  | cons c rest =>
      simp only [wordTail, EndsWord, headIs_cons, List.head?_cons, List.tail_cons, Option.some.injEq]
      cases hc : continuesName c with
      | true => simp
      | false => cases hstart : headIs startsName rest <;> simp

theorem wordTail_segment (hs : ∀ d ∈ s, continuesName d = true) (rest : List Char) :
    wordTail (s ++ rest) = s.length + wordTail rest := by
  induction s with
  | nil => simp
  | cons d s ih =>
      rw [List.forall_mem_cons] at hs
      simp only [List.cons_append, wordTail, hs.1, Bool.true_or, if_true, ih hs.2, List.length_cons]
      omega

/-- What goes on a word makes a word with the segment before it, and what follows a point is a word of its
own. -/
theorem isWord_of_wordTail (h : wordTail (x ++ rest) = x.length) :
    (∀ s, IsSegment s → IsWord (s ++ x)) ∧ (headIs startsName x = true → IsWord x) ∧ EndsWord rest := by
  induction x with
  | nil =>
      refine ⟨fun s hs => ?_, fun hstart => Bool.noConfusion hstart, wordTail_eq_zero_iff.mp h⟩
      rw [List.append_nil]
      exact .segment hs
  | cons c x ih =>
      simp only [List.cons_append, wordTail, List.length_cons] at h
      split at h
      · rename_i hc
        obtain ⟨hsegment, hstart, hends⟩ := ih (by omega)
        refine ⟨fun s hs => ?_, fun hc => hsegment [c] (.mk hc (by simp)), hends⟩
        rcases Bool.or_eq_true_iff.mp hc with hname | hpoint
        · have hlonger := hsegment (s ++ [c]) (hs.concat hname)
          rwa [List.append_assoc] at hlonger
        · rw [Bool.and_eq_true, beq_iff_eq] at hpoint
          obtain ⟨rfl, hnext⟩ := hpoint
          refine .dotted hs (hstart ?_)
          -- The name behind the point is part of the word, or the word would go on.
          cases x with
          | cons d x => exact hnext
          | nil =>
              cases rest with
              | nil => exact Bool.noConfusion hnext
              | cons d rest =>
                  have hcontinues : continuesName d = true := startsName_continuesName hnext
                  rw [EndsWord, headIs_cons, hcontinues] at hends
                  exact Bool.noConfusion hends.1
      · omega

/-- A word goes on to its end, and not further. -/
theorem IsWord.wordTail_eq (h : IsWord x) (hends : EndsWord rest) :
    ∃ c more, x = c :: more ∧ startsName c = true ∧ wordTail (more ++ rest) = more.length := by
  induction h with
  | segment isSegment =>
      cases isSegment with
      | @mk c s starts continues =>
          refine ⟨c, s, rfl, starts, ?_⟩
          rw [wordTail_segment continues, wordTail_eq_zero_iff.mpr hends, Nat.add_zero]
  | dotted isSegment _ ih =>
      obtain ⟨d, more, rfl, hd, htail⟩ := ih
      cases isSegment with
      | @mk c s starts continues =>
          have hfurther : wordTail ('.' :: (d :: more ++ rest)) = more.length + 2 := by
            have hname : continuesName d = true := startsName_continuesName hd
            simp only [wordTail, continuesName_point, List.cons_append, headIs_cons, hd, BEq.rfl,
              Bool.false_or, Bool.and_self, if_true, hname, Bool.true_or, htail]
            omega
          refine ⟨c, s ++ '.' :: d :: more, rfl, starts, ?_⟩
          rw [List.append_assoc, wordTail_segment continues, List.cons_append, hfurther]
          simp

/-- The reader of words finds the words that end where it stops, and nothing else. -/
theorem word?_eq_some_iff :
    word? (x ++ rest) = some x.length ↔ IsWord x ∧ EndsWord rest := by
  constructor
  · intro h
    cases x with
    | nil =>
        cases rest with
        | nil => cases h
        | cons c rest =>
            simp only [List.nil_append, word?, List.length_nil] at h
            grind
    | cons c x =>
        simp only [List.cons_append, word?, List.length_cons] at h
        split at h
        · rename_i hc
          have htail : wordTail (x ++ rest) = x.length := by
            have hcount := Option.some.inj h
            omega
          obtain ⟨hsegment, _, hends⟩ := isWord_of_wordTail htail
          exact ⟨hsegment [c] (.mk hc (by simp)), hends⟩
        · cases h
  · rintro ⟨hword, hends⟩
    obtain ⟨c, more, rfl, hc, htail⟩ := hword.wordTail_eq hends
    simp only [List.cons_append, word?, hc, if_true, htail, List.length_cons, Nat.add_comm]

end Words

/-! ## Numbers -/

/-- A sign, or none. -/
def IsSignPart (s : List Char) : Prop := s = [] ∨ s = ['+'] ∨ s = ['-']

/-- A zero, or digits that do not begin with one. -/
inductive IsPlain : List Char → Prop where
  | zero : IsPlain ['0']
  | digits {d : Char} {more : List Char} (isDigit : d.isDigit = true) (nonzero : d ≠ '0')
      (digits : ∀ e ∈ more, e.isDigit = true) : IsPlain (d :: more)

/-- `[+-]?(0|[1-9][0-9]*)` -/
def IsInteger (x : List Char) : Prop := ∃ s digits, x = s ++ digits ∧ IsSignPart s ∧ IsPlain digits

/-- Alphanumerics, underscores, points and signed exponents, in any order. -/
inductive NumberRun : List Char → Prop where
  | nil : NumberRun []
  | char {c : Char} {x : List Char} (continues : continuesNumber c = true) (more : NumberRun x) :
      NumberRun (c :: x)
  | exponent {mark sign : Char} {digits x : List Char} (isMark : mark = 'e' ∨ mark = 'E')
      (signed : isSign sign = true) (nonempty : digits ≠ []) (isDigit : ∀ d ∈ digits, d.isDigit = true)
      (more : NumberRun x) : NumberRun (mark :: sign :: (digits ++ x))

/-- A digit, with a sign before it or not, and the longest run that stands behind it. -/
def IsNumber (x rest : List Char) : Prop :=
  ∃ s d run, x = s ++ d :: run ∧ IsSignPart s ∧ d.isDigit = true ∧ NumberRun run ∧
    ∀ more, more <+: rest → NumberRun (run ++ more) → more = []

/-- An integer stands at the head of the text, and nothing goes on with it. -/
def BeginsInteger (text : List Char) : Prop :=
  ∃ x rest, text = x ++ rest ∧ IsInteger x ∧ headIs endsInteger rest = false

section Numbers

variable {s x run digits rest text : List Char}

theorem numberTail_le (afterMark : Bool) (text : List Char) : numberTail afterMark text ≤ text.length := by
  induction text generalizing afterMark with
  | nil => exact Nat.le_refl 0
  | cons c text ih =>
      have hmark := ih (c == 'e' || c == 'E')
      have hplain := ih false
      simp only [numberTail, List.length_cons]
      split
      · omega
      · split <;> omega

theorem isMark_of_isDigit {c : Char} (hc : c.isDigit = true) : (c == 'e' || c == 'E') = false := by
  rw [Bool.eq_false_iff]
  intro hmark
  simp only [Bool.or_eq_true, beq_iff_eq] at hmark
  rcases hmark with rfl | rfl
  · exact absurd hc (by decide)
  · exact absurd hc (by decide)

theorem continuesNumber_of_isSign {c : Char} (hc : isSign c = true) : continuesNumber c = false := by
  simp only [isSign, Bool.or_eq_true, beq_iff_eq] at hc
  rcases hc with rfl | rfl
  · decide
  · decide

theorem numberTail_digits_append (hdigits : ∀ d ∈ digits, d.isDigit = true) (rest : List Char) :
    numberTail false (digits ++ rest) = digits.length + numberTail false rest := by
  induction digits with
  | nil => simp
  | cons d digits ih =>
      rw [List.forall_mem_cons] at hdigits
      rw [List.cons_append, numberTail, if_pos (isDigit_continuesNumber hdigits.1),
        isMark_of_isDigit hdigits.1, ih hdigits.2, List.length_cons]
      omega

theorem NumberRun.tail_of_isDigit {d : Char} (h : NumberRun (d :: x)) (hd : d.isDigit = true) :
    NumberRun x := by
  cases h with
  | char _ more => exact more
  | exponent isMark _ _ _ _ =>
      rcases isMark with rfl | rfl
      · exact absurd hd (by decide)
      · exact absurd hd (by decide)

/-- What is read is a run, and with an exponent mark before it, where one is known to stand there. -/
theorem numberRun_take (text : List Char) :
    NumberRun (text.take (numberTail false text)) ∧
      ∀ mark, mark = 'e' ∨ mark = 'E' → NumberRun (mark :: text.take (numberTail true text)) := by
  have hcontinues {mark : Char} (hmark : mark = 'e' ∨ mark = 'E') : continuesNumber mark = true := by
    rcases hmark with rfl | rfl
    · decide
    · decide
  induction text with
  | nil => exact ⟨.nil, fun mark hmark => .char (hcontinues hmark) .nil⟩
  | cons c text ih =>
      obtain ⟨hplain, hmarked⟩ := ih
      by_cases hc : continuesNumber c = true
      · have hrun : NumberRun (c :: text.take (numberTail (c == 'e' || c == 'E') text)) := by
          cases hmark : (c == 'e' || c == 'E') with
          | false => exact .char hc hplain
          | true =>
              simp only [Bool.or_eq_true, beq_iff_eq] at hmark
              exact hmarked c hmark
        simp only [numberTail, hc, if_true, Nat.add_comm 1, List.take_succ_cons]
        exact ⟨hrun, fun mark hmark => .char (hcontinues hmark) hrun⟩
      · simp only [numberTail, hc, Bool.false_eq_true, if_false, Bool.false_and, Bool.true_and,
          List.take_zero]
        refine ⟨.nil, fun mark hmark => ?_⟩
        split
        · -- The digit behind the sign is the first of the run that follows.
          rename_i hsigned
          rw [Bool.and_eq_true] at hsigned
          obtain ⟨hsign, hdigit⟩ := hsigned
          cases text with
          | nil => exact Bool.noConfusion hdigit
          | cons d text =>
              rw [headIs_cons] at hdigit
              have hd := isDigit_continuesNumber hdigit
              simp only [numberTail, hd, if_true, Nat.add_comm 1, List.take_succ_cons] at hplain ⊢
              exact .exponent hmark hsign (List.cons_ne_nil d []) (by simpa using hdigit)
                (hplain.tail_of_isDigit hdigit)
        · exact .char (hcontinues hmark) .nil

/-- No run at the head of a text is longer than what is read. -/
theorem NumberRun.length_le (h : NumberRun run) (afterMark : Bool) (rest : List Char) :
    run.length ≤ numberTail afterMark (run ++ rest) := by
  induction h generalizing afterMark with
  | nil => exact Nat.zero_le _
  | @char c x continues _ ih =>
      have hle := ih (c == 'e' || c == 'E')
      rw [List.cons_append, numberTail, if_pos continues, List.length_cons]
      omega
  | @exponent mark sign digits x isMark signed nonempty isDigit _ ih =>
      have hle := ih false
      have hmark : (mark == 'e' || mark == 'E') = true := by
        simpa only [Bool.or_eq_true, beq_iff_eq] using isMark
      have hcontinues : continuesNumber mark = true := by
        rcases isMark with rfl | rfl
        · decide
        · decide
      have hhead : headIs Char.isDigit (digits ++ (x ++ rest)) = true := by
        obtain ⟨d, more, rfl⟩ := List.exists_cons_of_ne_nil nonempty
        exact isDigit d (by simp)
      have hread : numberTail afterMark (mark :: sign :: (digits ++ x) ++ rest) =
          digits.length + numberTail false (x ++ rest) + 2 := by
        simp only [List.cons_append, List.append_assoc, numberTail, hcontinues, if_true, hmark,
          continuesNumber_of_isSign signed, Bool.false_eq_true, if_false, signed, hhead, Bool.and_self,
          numberTail_digits_append isDigit]
        omega
      rw [hread, List.length_cons, List.length_cons, List.length_append]
      omega

theorem numberTail_eq_iff :
    numberTail false (run ++ rest) = run.length ↔
      NumberRun run ∧ ∀ more, more <+: rest → NumberRun (run ++ more) → more = [] := by
  constructor
  · intro h
    refine ⟨?_, ?_⟩
    · have hrun := (numberRun_take (run ++ rest)).1
      rwa [h, List.take_left] at hrun
    · rintro more ⟨behind, rfl⟩ hrun
      have hle := hrun.length_le false behind
      rw [List.append_assoc, h, List.length_append] at hle
      exact List.eq_nil_of_length_eq_zero (by omega)
  · rintro ⟨hrun, hlongest⟩
    have hle := hrun.length_le false rest
    have hread := (numberRun_take (run ++ rest)).1
    rw [List.take_append, List.take_of_length_le hle] at hread
    have hnone := hlongest _ (List.take_prefix _ rest) hread
    have hlt := numberTail_le false (run ++ rest)
    rw [List.length_append] at hlt
    rcases List.take_eq_nil_iff.mp hnone with hzero | hrest
    · omega
    · subst hrest
      simp only [List.length_nil] at hlt
      omega

theorem signLength_eq (hs : IsSignPart s) (hrest : headIs isSign rest = false) :
    signLength (s ++ rest) = s.length := by
  rcases hs with rfl | rfl | rfl
  · rw [List.nil_append, signLength, hrest]
    rfl
  · rfl
  · rfl

theorem exists_signPart (text : List Char) :
    ∃ s rest, text = s ++ rest ∧ IsSignPart s ∧ signLength text = s.length := by
  cases hhead : headIs isSign text with
  | false => exact ⟨[], text, rfl, .inl rfl, by simp [signLength, hhead]⟩
  | true =>
      cases text with
      | nil => exact Bool.noConfusion hhead
      | cons c rest =>
          refine ⟨[c], rest, rfl, .inr ?_, by simp [signLength, hhead]⟩
          simpa [headIs_cons, isSign] using hhead

theorem isSign_of_isDigit {c : Char} (hc : c.isDigit = true) : isSign c = false := by
  rw [Bool.eq_false_iff]
  intro hsign
  have hnone := continuesNumber_of_isSign hsign
  rw [isDigit_continuesNumber hc] at hnone
  exact Bool.noConfusion hnone

/-- The reader of numbers finds the numbers that are as long as they can be, and nothing else. -/
theorem number?_eq_some_iff : number? (x ++ rest) = some x.length ↔ IsNumber x rest := by
  constructor
  · intro h
    obtain ⟨s, body, htext, hs, hsign⟩ := exists_signPart (x ++ rest)
    simp only [number?] at h
    rw [hsign, htext, List.drop_left] at h
    cases body with
    | nil => cases h
    | cons d body =>
        simp only at h
        split at h
        · rename_i hd
          have hcount := Option.some.inj h
          have hlen : (body.take (numberTail false body)).length = numberTail false body :=
            List.length_take_of_le (numberTail_le false body)
          have hsplit : x ++ rest = (s ++ d :: body.take (numberTail false body)) ++
              body.drop (numberTail false body) := by
            simp [htext]
          obtain ⟨hx, hrest⟩ := List.append_inj hsplit (by simp [hlen]; omega)
          refine ⟨s, d, _, hx, hs, hd, numberTail_eq_iff.mp ?_⟩
          rw [hrest, List.take_append_drop, hlen]
        · cases h
  · rintro ⟨s, d, run, rfl, hs, hd, hrun⟩
    have hsign : signLength (s ++ (d :: run ++ rest)) = s.length :=
      signLength_eq hs (isSign_of_isDigit hd)
    have htail := numberTail_eq_iff.mpr hrun
    simp only [number?, List.append_assoc]
    rw [hsign, List.drop_left]
    simp only [List.cons_append, hd, if_true, htail, List.length_append, List.length_cons,
      Option.some.injEq]
    omega

theorem exists_plain (h : plainDigits text ≠ 0) :
    ∃ digits rest, text = digits ++ rest ∧ IsPlain digits ∧ plainDigits text = digits.length := by
  unfold plainDigits at h ⊢
  split at h
  · exact ⟨['0'], _, rfl, .zero, rfl⟩
  · rename_i hzero
    refine ⟨text.takeWhile Char.isDigit, text.dropWhile Char.isDigit,
      List.takeWhile_append_dropWhile.symm, ?_, rfl⟩
    cases text with
    | nil => exact absurd rfl h
    | cons d text =>
        cases hd : d.isDigit with
        | false =>
            rw [List.takeWhile_cons, hd] at h
            exact absurd rfl h
        | true =>
            rw [List.takeWhile_cons, hd, if_pos rfl]
            refine .digits hd (fun heq => hzero text (by rw [heq])) ?_
            exact List.all_eq_true.mp List.all_takeWhile

theorem IsPlain.plainDigits_eq (h : IsPlain digits) (hrest : headIs Char.isDigit rest = false) :
    plainDigits (digits ++ rest) = digits.length := by
  cases h with
  | zero => rfl
  | @digits d more isDigit nonzero digits =>
      unfold plainDigits
      split
      · rename_i htext
        exact absurd (List.cons.inj htext).1 nonzero
      · have hall : ∀ e ∈ d :: more, e.isDigit = true := List.forall_mem_cons.mpr ⟨isDigit, digits⟩
        rw [List.takeWhile_append_of_pos hall, takeWhile_eq_nil hrest, List.append_nil]

theorem IsPlain.cons_eq (h : IsPlain digits) : ∃ d more, digits = d :: more ∧ d.isDigit = true := by
  cases h with
  | zero => exact ⟨'0', [], rfl, by decide⟩
  | digits isDigit _ _ => exact ⟨_, _, rfl, isDigit⟩

/-- The reader of integers finds the integers that nothing goes on with, and nothing else. -/
theorem integer?_eq_some_iff :
    integer? (x ++ rest) = some x.length ↔ IsInteger x ∧ headIs endsInteger rest = false := by
  constructor
  · intro h
    obtain ⟨s, body, htext, hs, hsign⟩ := exists_signPart (x ++ rest)
    simp only [integer?] at h
    rw [hsign, htext, List.drop_left] at h
    split at h
    · cases h
    · rename_i hdigits
      obtain ⟨digits, behind, rfl, hplain, hcount⟩ := exists_plain hdigits
      rw [hcount, ← List.append_assoc, ← List.length_append, List.drop_left] at h
      split at h
      · cases h
      · rename_i hends
        rw [← List.append_assoc] at htext
        obtain ⟨rfl, rfl⟩ := List.append_inj htext (Option.some.inj h).symm
        exact ⟨⟨s, digits, rfl, hs, hplain⟩, Bool.eq_false_iff.mpr hends⟩
  · rintro ⟨⟨s, digits, rfl, hs, hplain⟩, hends⟩
    obtain ⟨d, more, rfl, hd⟩ := hplain.cons_eq
    have hsign : signLength (s ++ (d :: more ++ rest)) = s.length :=
      signLength_eq hs (isSign_of_isDigit hd)
    have hcount := hplain.plainDigits_eq (isDigit_of_endsInteger hends)
    simp only [integer?, List.append_assoc]
    rw [hsign, List.drop_left, hcount, ← List.append_assoc, ← List.length_append, List.drop_left,
      if_neg (by simp), if_neg]
    exact Bool.eq_false_iff.mp hends

end Numbers

/-! ## Marks and symbols -/

/-- One of the marks of a single character, or an arrow. -/
def IsMark (x : List Char) : Prop := x = ['=', '>'] ∨ ∃ c ∈ marks, x = [c]

/-- The character begins no lexeme of another kind where it stands, and is no control character. -/
structure IsSymbol (c : Char) (rest : List Char) : Prop where
  notBlank : isBlank c = false
  notControl : isControl c = false
  notName : startsName c = false
  notDigit : c.isDigit = false
  notMark : c ∉ marks
  notQuote : c ∉ ['"', '\x27', '#']
  notComment : c = '/' → rest.head? ≠ some '/' ∧ rest.head? ≠ some '*'
  notSign : isSign c = true → headIs Char.isDigit rest = false
  notString : ∀ o ∈ openings, ¬ o <+: c :: rest

section Marks

variable {x rest : List Char} {c : Char}

/-- The reader of marks finds the marks, the equals sign only where it is not part of an arrow. -/
theorem mark?_eq_some_iff :
    mark? (x ++ rest) = some x.length ↔ IsMark x ∧ (x = ['='] → rest.head? ≠ some '>') := by
  have hequals : '=' ∈ marks := by decide
  unfold IsMark
  rcases x with _ | ⟨c, _ | ⟨d, x⟩⟩
  · simp only [List.nil_append, List.length_nil]
    unfold mark?
    grind
  · simp only [List.cons_append, List.nil_append, List.length_cons, List.length_nil]
    cases rest <;>
      unfold mark? <;>
      grind
  · simp only [List.cons_append, List.length_cons]
    unfold mark?
    grind

end Marks

/-! ## Classes -/

/-- The keywords and their kinds. -/
def keywords : List (String × TokenKind) :=
  [("namespace", .namespaceKeyword), ("using", .usingKeyword), ("class", .classKeyword),
    ("enum", .enumKeyword), ("partial", .partialKeyword), ("override", .overrideKeyword),
    ("void", .voidKeyword), ("public", .visibility), ("private", .visibility),
    ("protected", .visibility), ("static", .staticKeyword), ("out", .direction), ("ref", .direction)]

/-- The text, with `rest` behind it, is a lexeme of the class that the kind stands for. Regions have no
class, since they are no lexemes. -/
inductive InClass (x rest : List Char) : TokenKind → Prop where
  | identifier (isWord : IsWord x) (ends : EndsWord rest)
      (other : ∀ keyword ∈ keywords, String.ofList x ≠ keyword.1) : InClass x rest .identifier
  | keyword {kind : TokenKind} (isWord : IsWord x) (ends : EndsWord rest)
      (isKeyword : (String.ofList x, kind) ∈ keywords) : InClass x rest kind
  | integer (isInteger : IsInteger x) (ends : headIs endsInteger rest = false) :
      InClass x rest .integerLiteral
  | number (isNumber : IsNumber x rest) (noInteger : ¬ BeginsInteger (x ++ rest)) :
      InClass x rest .numberLiteral
  | string {form : StringForm} (isString : IsString form x rest)
      (ends : form.isVerbatim = true → rest.head? ≠ some '"') : InClass x rest .stringLiteral
  | character (isCharacter : IsCharacter x) : InClass x rest .charLiteral
  | punctuation (isMark : IsMark x) (whole : x = ['='] → rest.head? ≠ some '>') :
      InClass x rest .punctuation
  | symbol {c : Char} (single : x = [c]) (isSymbol : IsSymbol c rest) : InClass x rest .symbol

section Classes

variable {x rest : List Char} {kind : TokenKind} {c : Char}

theorem ofWord_eq_iff {word : String} :
    TokenKind.ofWord word = kind ↔ (word, kind) ∈ keywords ∨
      kind = .identifier ∧ ∀ keyword ∈ keywords, word ≠ keyword.1 := by
  have htable : ∀ keyword ∈ keywords, TokenKind.ofWord keyword.1 = keyword.2 := by decide
  have hother (h : ∀ keyword ∈ keywords, word ≠ keyword.1) : TokenKind.ofWord word = .identifier := by
    simp only [keywords, List.forall_mem_cons, List.not_mem_nil, false_implies, implies_true,
      and_true] at h
    simp [TokenKind.ofWord, Terminal.ofWord, Terminal.kind, h]
  constructor
  · rintro rfl
    by_cases hword : ∃ keyword ∈ keywords, word = keyword.1
    · obtain ⟨keyword, hmem, rfl⟩ := hword
      rw [htable keyword hmem]
      exact .inl hmem
    · have hnone : ∀ keyword ∈ keywords, word ≠ keyword.1 := fun keyword hmem heq =>
        hword ⟨keyword, hmem, heq⟩
      exact .inr ⟨hother hnone, hnone⟩
  · rintro (hmem | ⟨rfl, hnone⟩)
    · exact htable _ hmem
    · exact hother hnone

theorem isSymbol_of_readers (htrivia : trivia? (c :: rest) = none) (hstring : string? (c :: rest) = none)
    (hcharacter : character? (c :: rest) = none) (hnumber : number? (c :: rest) = none)
    (hword : word? (c :: rest) = none) (hmark : mark? (c :: rest) = none)
    (hprintable : isControl c = false) : IsSymbol c rest := by
  obtain ⟨hblank, hhash, hcomment⟩ := trivia?_eq_none_iff.mp htrivia
  have hopener : ∀ o ∈ openings, ¬ o <+: c :: rest := by
    apply opener?_eq_none_iff.mp
    unfold string? at hstring
    split at hstring
    · cases hstring
    · assumption
  have hdouble : c ≠ '"' := by
    rintro rfl
    exact hopener ['"'] (by decide) ⟨rest, rfl⟩
  have hsingle : c ≠ '\x27' := by
    rintro rfl
    cases hcharacter
  refine
    { notBlank := hblank
      notControl := hprintable
      notName := ?_
      notDigit := ?_
      notMark := ?_
      notQuote := by simp [hdouble, hsingle, hhash]
      notComment := hcomment
      notSign := ?_
      notString := hopener }
  · rw [Bool.eq_false_iff]
    intro hc
    simp [word?, hc] at hword
  · rw [Bool.eq_false_iff]
    intro hc
    simp [number?, signLength, headIs_cons, isSign_of_isDigit hc, hc] at hnumber
  · intro hc
    unfold mark? at hmark
    grind
  · intro hc
    rw [Bool.eq_false_iff]
    intro hdigit
    cases rest with
    | nil => cases hdigit
    | cons d rest =>
        rw [headIs_cons] at hdigit
        simp [number?, signLength, headIs_cons, hc, hdigit] at hnumber

/-- What is read as a token of a kind is in its class. -/
theorem inClass_of_readsAs (htrivia : trivia? (x ++ rest) = none)
    (h : ReadsAs (x ++ rest) kind x.length) : InClass x rest kind := by
  generalize hcount : x.length = count at h
  cases h with
  | string found =>
      obtain ⟨form, hstring⟩ := string?_eq_ok_iff.mp (hcount ▸ found)
      exact .string hstring hstring.head?_ne
  | character _ found => exact .character (character?_eq_ok_iff.mp (hcount ▸ found))
  | integer _ _ found =>
      obtain ⟨hinteger, hends⟩ := integer?_eq_some_iff.mp (hcount ▸ found)
      exact .integer hinteger hends
  | number _ _ noInteger found =>
      refine .number (number?_eq_some_iff.mp (hcount ▸ found)) ?_
      rintro ⟨y, behind, htext, hinteger⟩
      rw [htext, integer?_eq_some_iff.mpr hinteger] at noInteger
      cases noInteger
  | word _ _ _ found =>
      obtain ⟨hword, hends⟩ := word?_eq_some_iff.mp (hcount ▸ found)
      rw [← hcount, List.take_left]
      rcases ofWord_eq_iff.mp rfl with hkeyword | ⟨hkind, hother⟩
      · exact .keyword hword hends hkeyword
      · rw [hkind]
        exact .identifier hword hends hother
  | mark _ _ _ _ found =>
      obtain ⟨hmark, hwhole⟩ := mark?_eq_some_iff.mp (hcount ▸ found)
      exact .punctuation hmark hwhole
  | symbol noString noCharacter noNumber noWord noMark printable =>
      obtain ⟨c, rfl⟩ := List.length_eq_one_iff.mp hcount
      exact .symbol rfl
        (isSymbol_of_readers htrivia noString noCharacter noNumber noWord noMark printable)

/-- The characters that begin trivia, a string or a character literal, apart from blanks. -/
def leadChars : List Char := ['#', '/', '"', '\x27', '$', '@']

/-- Where none of these characters stands, only the readers of numbers, words, marks and symbols are left. -/
theorem readers_of_head (hblank : isBlank c = false) (hc : c ∉ leadChars) (rest : List Char) :
    trivia? (c :: rest) = none ∧ string? (c :: rest) = none ∧ character? (c :: rest) = none := by
  simp only [leadChars, List.mem_cons, List.not_mem_nil, or_false, not_or] at hc
  have hopener : opener? 0 (c :: rest) = none := by
    unfold opener?
    grind
  refine ⟨trivia?_eq_none_iff.mpr ⟨hblank, hc.1, fun hslash => absurd hslash hc.2.1⟩, ?_, ?_⟩
  · rw [string?, hopener]
  · unfold character?
    grind

theorem not_leads {p : Char → Bool} (hp : ∀ c ∈ leadChars, p c = false) (hc : p c = true) :
    c ∉ leadChars := by
  intro hmem
  rw [hp c hmem] at hc
  exact Bool.noConfusion hc

theorem startsName_of_isDigit (hc : c.isDigit = true) : startsName c = false := by
  have hnames : ∀ d ∈ "0123456789".toList, startsName d = false := by decide
  have hcode : c.toNat ∈ "0123456789".toList.map Char.toNat := by
    simp only [Char.isDigit, Bool.and_eq_true, decide_eq_true_eq, UInt32.le_iff_toNat_le] at hc
    have hle : 48 ≤ c.toNat := hc.1
    have hge : c.toNat ≤ 57 := hc.2
    show c.toNat ∈ [48, 49, 50, 51, 52, 53, 54, 55, 56, 57]
    simp only [List.mem_cons, List.not_mem_nil, or_false]
    omega
  obtain ⟨d, hd, hcode⟩ := List.mem_map.mp hcode
  rw [← Char.toNat_inj.mp hcode]
  exact hnames d hd

theorem startsName_of_isSign (hc : isSign c = true) : startsName c = false := by
  simp only [isSign, Bool.or_eq_true, beq_iff_eq] at hc
  rcases hc with rfl | rfl
  · decide
  · decide

theorem readers_of_number {s : List Char} {d : Char} (hs : IsSignPart s) (hd : d.isDigit = true)
    (rest : List Char) : trivia? (s ++ d :: rest) = none ∧ string? (s ++ d :: rest) = none ∧
      character? (s ++ d :: rest) = none := by
  rcases hs with rfl | rfl | rfl
  · exact readers_of_head (not_isBlank stops_isDigit hd) (not_leads (by decide) hd) rest
  · exact readers_of_head (by decide) (by decide) _
  · exact readers_of_head (by decide) (by decide) _

theorem readers_of_word (hc : startsName c = true) (rest : List Char) :
    trivia? (c :: rest) = none ∧ string? (c :: rest) = none ∧ character? (c :: rest) = none ∧
      number? (c :: rest) = none := by
  obtain ⟨htrivia, hstring, hcharacter⟩ :=
    readers_of_head (not_isBlank stops_startsName hc) (not_leads (by decide) hc) rest
  have hsign : isSign c = false := by
    rw [Bool.eq_false_iff]
    intro hsign
    rw [startsName_of_isSign hsign] at hc
    exact Bool.noConfusion hc
  have hdigit : c.isDigit = false := by
    rw [Bool.eq_false_iff]
    intro hdigit
    rw [startsName_of_isDigit hdigit] at hc
    exact Bool.noConfusion hc
  refine ⟨htrivia, hstring, hcharacter, ?_⟩
  simp [number?, signLength, headIs_cons, hsign, hdigit]

theorem readers_of_mark (hc : c ∈ marks) (rest : List Char) :
    trivia? (c :: rest) = none ∧ string? (c :: rest) = none ∧ character? (c :: rest) = none ∧
      number? (c :: rest) = none ∧ word? (c :: rest) = none := by
  obtain ⟨hdigit, hsign, hname⟩ := marks_not_word c hc
  have hlead : ∀ c ∈ marks, c ∉ leadChars := by decide
  obtain ⟨htrivia, hstring, hcharacter⟩ :=
    readers_of_head (marks_not_comment c hc).1 (hlead c hc) rest
  refine ⟨htrivia, hstring, hcharacter, ?_, ?_⟩
  · simp [number?, signLength, headIs_cons, hsign, hdigit]
  · simp [word?, hname]

theorem readsAs_of_isWord (isWord : IsWord x) (ends : EndsWord rest) :
    x ++ rest ≠ [] ∧ trivia? (x ++ rest) = none ∧
      ReadsAs (x ++ rest) (.ofWord (String.ofList x)) x.length := by
  have hfound := word?_eq_some_iff.mpr ⟨isWord, ends⟩
  obtain ⟨c, more, rfl, hc⟩ := isWord.cons_eq
  obtain ⟨htrivia, hstring, hcharacter, hnumber⟩ := readers_of_word hc (more ++ rest)
  have hreads := ReadsAs.word hstring hcharacter hnumber hfound
  rw [← List.cons_append, List.take_left] at hreads
  exact ⟨by simp, htrivia, hreads⟩

theorem readsAs_of_isSymbol (h : IsSymbol c rest) :
    trivia? (c :: rest) = none ∧ ReadsAs (c :: rest) .symbol 1 := by
  have hquote := h.notQuote
  simp only [List.mem_cons, List.not_mem_nil, or_false, not_or] at hquote
  refine ⟨trivia?_eq_none_iff.mpr ⟨h.notBlank, hquote.2.2, h.notComment⟩, ?_⟩
  refine .symbol ?_ ?_ ?_ ?_ ?_ h.notControl
  · rw [string?, opener?_eq_none_iff.mpr h.notString]
  · unfold character?
    grind
  · cases hsign : isSign c with
    | false => simp [number?, signLength, headIs_cons, hsign, h.notDigit]
    | true =>
        have hnext := h.notSign hsign
        cases rest with
        | nil => simp [number?, signLength, headIs_cons, hsign]
        | cons d rest =>
            rw [headIs_cons] at hnext
            simp [number?, signLength, headIs_cons, hsign, hnext]
  · simp [word?, h.notName]
  · have hmark := h.notMark
    have hequals : '=' ∈ marks := by decide
    unfold mark?
    grind

/-- What is in the class of a kind is read as a token of the kind. -/
theorem readsAs_of_inClass (h : InClass x rest kind) :
    x ++ rest ≠ [] ∧ trivia? (x ++ rest) = none ∧ ReadsAs (x ++ rest) kind x.length := by
  cases h with
  | identifier isWord ends other =>
      obtain ⟨hne, htrivia, hreads⟩ := readsAs_of_isWord isWord ends
      rw [ofWord_eq_iff.mpr (.inr ⟨rfl, other⟩)] at hreads
      exact ⟨hne, htrivia, hreads⟩
  | keyword isWord ends isKeyword =>
      obtain ⟨hne, htrivia, hreads⟩ := readsAs_of_isWord isWord ends
      rw [ofWord_eq_iff.mpr (.inl isKeyword)] at hreads
      exact ⟨hne, htrivia, hreads⟩
  | integer isInteger ends =>
      have hfound := integer?_eq_some_iff.mpr ⟨isInteger, ends⟩
      obtain ⟨s, digits, rfl, hs, hplain⟩ := isInteger
      obtain ⟨d, more, rfl, hd⟩ := hplain.cons_eq
      rw [List.append_assoc, List.cons_append] at hfound ⊢
      obtain ⟨htrivia, hstring, hcharacter⟩ := readers_of_number hs hd (more ++ rest)
      exact ⟨by simp, htrivia, .integer hstring hcharacter hfound⟩
  | number isNumber noInteger =>
      have hfound := number?_eq_some_iff.mpr isNumber
      have hinteger : integer? (x ++ rest) = none := by
        cases hread : integer? (x ++ rest) with
        | none => rfl
        | some count =>
            -- An integer is as long as the number, so it is the number that is one.
            obtain rfl : x.length = count :=
              Option.some.inj (hfound.symm.trans (number?_of_integer? hread))
            exact absurd ⟨x, rest, rfl, integer?_eq_some_iff.mp hread⟩ noInteger
      obtain ⟨s, d, run, rfl, hs, hd, _⟩ := isNumber
      rw [List.append_assoc, List.cons_append] at hfound hinteger ⊢
      obtain ⟨htrivia, hstring, hcharacter⟩ := readers_of_number hs hd (run ++ rest)
      exact ⟨by simp, htrivia, .number hstring hcharacter hinteger hfound⟩
  | string isString _ =>
      have hfound := string?_eq_ok_iff.mpr ⟨_, isString⟩
      obtain ⟨o, hopens, y, rfl, _⟩ := isString
      obtain ⟨c, o, rfl, hc⟩ := StringForm.opening_cons hopens
      simp only [List.mem_cons, List.not_mem_nil, or_false] at hc
      have htrivia : trivia? (c :: (o ++ y ++ rest)) = none := by
        rcases hc with rfl | rfl | rfl
        · exact trivia?_eq_none_iff.mpr ⟨by decide, by decide, by simp⟩
        · exact trivia?_eq_none_iff.mpr ⟨by decide, by decide, by simp⟩
        · exact trivia?_eq_none_iff.mpr ⟨by decide, by decide, by simp⟩
      exact ⟨by simp, htrivia, .string hfound⟩
  | character isCharacter =>
      have hfound : character? (x ++ rest) = some (.ok x.length) := character?_eq_ok_iff.mpr isCharacter
      obtain ⟨y, rfl⟩ := isCharacter.cons_eq
      have htrivia : trivia? ('\x27' :: (y ++ rest)) = none :=
        trivia?_eq_none_iff.mpr ⟨by decide, by decide, by simp⟩
      exact ⟨by simp, htrivia, .character rfl hfound⟩
  | punctuation isMark whole =>
      have hfound := mark?_eq_some_iff.mpr ⟨isMark, whole⟩
      have hhead : ∃ c ∈ marks, ∃ more, x = c :: more := by
        rcases isMark with rfl | ⟨c, hc, rfl⟩
        · exact ⟨'=', by decide, _, rfl⟩
        · exact ⟨c, hc, _, rfl⟩
      obtain ⟨c, hc, more, rfl⟩ := hhead
      obtain ⟨htrivia, hstring, hcharacter, hnumber, hword⟩ := readers_of_mark hc (more ++ rest)
      exact ⟨by simp, htrivia, .mark hstring hcharacter hnumber hword hfound⟩
  | @symbol c single isSymbol =>
      subst single
      exact ⟨by simp, readsAs_of_isSymbol isSymbol⟩

/-- The readers find the classes: a text has a token of a kind at its head, with an extent, exactly where
what stands there is in the class of the kind. -/
theorem ofText?_eq_token_iff_inClass :
    ofText? (x ++ rest) = some (.token kind x.length) ↔ InClass x rest kind := by
  rw [ofText?_eq_token_iff]
  constructor
  · exact fun h => inClass_of_readsAs h.2.1 h.2.2
  · exact readsAs_of_inClass

/-- No text begins with lexemes of two classes, or with two lexemes of one. -/
theorem InClass.unique {y behind : List Char} {other : TokenKind} (h : InClass x rest kind)
    (h' : InClass y behind other) (htext : y ++ behind = x ++ rest) : other = kind ∧ y = x := by
  have hread := ofText?_eq_token_iff_inClass.mpr h'
  rw [htext, ofText?_eq_token_iff_inClass.mpr h, Option.some.injEq, Lexeme.token.injEq] at hread
  exact ⟨hread.1.symm, (List.append_inj htext hread.2.symm).1⟩

end Classes

end Lexeme

open Lexeme

/-- A token of a run is in the class of its kind, before the text that stands behind it. -/
theorem Run.inClass {rest text : List Char} {base : Nat} {ts : List Token} {t : Token}
    (h : Run rest base text ts) (ht : t ∈ ts) {front : List Char} (hfront : byteLength front = base) :
    ∃ behind, t.span.Marks (front ++ (text ++ rest)) t.text.toList behind ∧
      InClass t.text.toList behind t.kind := by
  obtain ⟨before, after, rfl⟩ := List.append_of_mem ht
  obtain ⟨kind, gap, x, behind, rfl, rfl, _, hread, _⟩ := h.split
  simp only [Token.placed, String.toList_ofList]
  refine ⟨behind ++ rest, ⟨front ++ gap, by simp, ?_⟩, ofText?_eq_token_iff_inClass.mp hread⟩
  rw [byteLength_append, hfront]

/-- Every token of a source is, where it stands, in the class of its kind, and what begins there is in no
other class and in this one with no other extent. -/
theorem tokenize_inClass {source : String} {tokens : List Token} (h : tokenize source = .ok tokens) :
    ∀ t ∈ tokens, ∃ rest, t.span.Marks source.toList t.text.toList rest ∧
      InClass t.text.toList rest t.kind ∧
      ∀ kind y behind, y ++ behind = t.text.toList ++ rest → InClass y behind kind →
        kind = t.kind ∧ y = t.text.toList := by
  intro t ht
  obtain ⟨rest, hmarks, hclass⟩ := (run_of_tokenize h).inClass ht byteLength_nil
  rw [List.nil_append, List.append_nil] at hmarks
  exact ⟨rest, hmarks, hclass, fun kind y behind htext hother => hclass.unique hother htext⟩

/-- A lexeme of each class: a number that the letter behind it keeps from being an integer, a number with
a signed exponent, a string in a hole, and a sign that belongs to no number. -/
def classedSource : String :=
  "static a.b0 -10 1f 1e+5 $\"\x7b@\"\"\"\"\x7d\" '\\x41'=>+"

theorem tokenize_inClass_classed :
    ∃ tokens, tokenize classedSource = .ok tokens ∧
      tokens.map Token.kind = [.staticKeyword, .identifier, .integerLiteral, .numberLiteral,
        .numberLiteral, .stringLiteral, .charLiteral, .punctuation, .symbol] ∧
      ∀ t ∈ tokens, ∃ rest, t.span.Marks classedSource.toList t.text.toList rest ∧
        InClass t.text.toList rest t.kind ∧
        ∀ kind y behind, y ++ behind = t.text.toList ++ rest → InClass y behind kind →
          kind = t.kind ∧ y = t.text.toList := by
  have htokens : tokenize classedSource = .ok
      [⟨.staticKeyword, "static", ⟨0, 6⟩⟩, ⟨.identifier, "a.b0", ⟨7, 11⟩⟩,
        ⟨.integerLiteral, "-10", ⟨12, 15⟩⟩, ⟨.numberLiteral, "1f", ⟨16, 18⟩⟩,
        ⟨.numberLiteral, "1e+5", ⟨19, 23⟩⟩, ⟨.stringLiteral, "$\"\x7b@\"\"\"\"\x7d\"", ⟨24, 34⟩⟩,
        ⟨.charLiteral, "'\\x41'", ⟨35, 41⟩⟩, ⟨.punctuation, "=>", ⟨41, 43⟩⟩,
        ⟨.symbol, "+", ⟨43, 44⟩⟩] := by
    apply tokenize_ok.mpr
    decide +kernel
  exact ⟨_, htokens, rfl, tokenize_inClass htokens⟩

end ClassChart
