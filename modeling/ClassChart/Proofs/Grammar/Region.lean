/-
# ClassChart.Proofs.Grammar.Region — the searches for the ends of regions find them

`bodyEnd?` and `valueEnd?` walk through a token list with a counter. Here each of them is shown to stop
exactly at the end of the region as the grammar describes it: `IsBody` speaks of the shortest run with
as many closing braces as opening ones, `IsValue` of the first semicolon outside brackets, and neither
mentions a search.
-/
import ClassChart.Proofs.Grammar.Laws
import Mathlib.Data.List.Induction

namespace ClassChart.Grammar

/-! ## Marks exclude one another -/

/-- A token is one mark at most. -/
theorem isMark_inj {t : Token} {first second : String} (hfirst : t.isMark first = true)
    (hsecond : t.isMark second = true) : first = second := by
  simp only [Token.isMark, Bool.and_eq_true, beq_iff_eq] at hfirst hsecond
  rw [← hfirst.2, ← hsecond.2]

/-- A token that is one mark is no other. -/
theorem isMark_other {t : Token} {first second : String} (hfirst : t.isMark first = true)
    (hne : first ≠ second) : t.isMark second = false := by
  rw [Bool.eq_false_iff]
  intro hsecond
  exact hne (isMark_inj hfirst hsecond)

/-! ## Bodies -/

/-- The number of opening braces of a run. -/
abbrev opened (run : List Token) : Nat := run.countP (·.isMark "\x7b")

/-- The number of closing braces of a run. -/
abbrev closed (run : List Token) : Nat := run.countP (·.isMark "\x7d")

/-- Inside `depth` open braces, no part of the run from its start on closes more of them than there
are. -/
def StaysInside (depth : Nat) (inner : List Token) : Prop :=
  ∀ front, front <+: inner → closed front ≤ depth + opened front

theorem staysInside_nil (depth : Nat) : StaysInside depth [] := by
  intro front hfront
  rw [List.prefix_nil.mp hfront]
  exact Nat.zero_le _

/-- What the search for a closing brace stops at, with `inner` before it. -/
structure ClosesAt (depth : Nat) (inner : List Token) (closing : Token) : Prop where
  closes : closing.isMark "\x7d" = true
  inside : StaysInside depth inner
  level : depth + opened inner = closed inner

/-- The first token moves the depth, and the search goes on from there. -/
theorem closesAt_cons {depth next : Nat} {t closing : Token} {inner : List Token}
    (step : depth + opened [t] = next + closed [t]) :
    ClosesAt depth (t :: inner) closing ↔ ClosesAt next inner closing := by
  simp only [opened, closed, List.countP_cons, List.countP_nil] at step
  constructor
  · rintro ⟨hcloses, hinside, hlevel⟩
    refine ⟨hcloses, ?_, ?_⟩
    · intro front hfront
      have hlong := hinside (t :: front) ((List.prefix_cons_inj t).mpr hfront)
      simp only [opened, closed, List.countP_cons] at hlong ⊢
      omega
    · simp only [opened, closed, List.countP_cons] at hlevel ⊢
      omega
  · rintro ⟨hcloses, hinside, hlevel⟩
    refine ⟨hcloses, ?_, ?_⟩
    · intro front hfront
      rcases List.prefix_cons_iff.mp hfront with rfl | ⟨more, rfl, hmore⟩
      · exact Nat.zero_le _
      · have hshort := hinside more hmore
        simp only [opened, closed, List.countP_cons] at hshort ⊢
        omega
    · simp only [opened, closed, List.countP_cons] at hlevel ⊢
      omega

/-- The brace that the search stops at closes the body. -/
theorem bodyEnd?_sound {depth : Nat} {ts after : List Token} {closing : Token}
    (hend : bodyEnd? depth ts = some (closing, after)) :
    ∃ inner, ts = inner ++ closing :: after ∧ ClosesAt depth inner closing := by
  fun_induction bodyEnd? depth ts with
  | case1 => cases hend
  | case2 depth t rest hopen ih =>
      obtain ⟨inner, rfl, hat⟩ := ih hend
      have hclose := isMark_other hopen (by decide : "\x7b" ≠ "\x7d")
      have step : depth + opened [t] = (depth + 1) + closed [t] := by
        simp [opened, closed, hopen, hclose]
      exact ⟨t :: inner, rfl, (closesAt_cons step).mpr hat⟩
  | case3 t rest hopen hclose =>
      cases hend
      exact ⟨[], rfl, hclose, staysInside_nil 0, rfl⟩
  | case4 t rest hopen hclose outer ih =>
      obtain ⟨inner, rfl, hat⟩ := ih hend
      have step : (outer + 1) + opened [t] = outer + closed [t] := by
        simp [opened, closed, hopen, hclose]
      exact ⟨t :: inner, rfl, (closesAt_cons step).mpr hat⟩
  | case5 depth t rest hopen hclose ih =>
      obtain ⟨inner, rfl, hat⟩ := ih hend
      have step : depth + opened [t] = depth + closed [t] := by
        simp [opened, closed, hopen, hclose]
      exact ⟨t :: inner, rfl, (closesAt_cons step).mpr hat⟩

/-- The brace that closes a body is where the search stops, whatever follows. -/
theorem bodyEnd?_complete {depth : Nat} {inner : List Token} {closing : Token}
    (after : List Token) (hat : ClosesAt depth inner closing) :
    bodyEnd? depth (inner ++ closing :: after) = some (closing, after) := by
  induction inner generalizing depth with
  | nil =>
      have hopen := isMark_other hat.closes (by decide : "\x7d" ≠ "\x7b")
      have hdepth : depth = 0 := by simpa [opened, closed] using hat.level
      subst hdepth
      simp [bodyEnd?, hopen, hat.closes]
  | cons t inner ih =>
      rw [List.cons_append, bodyEnd?.eq_def]
      dsimp only
      by_cases hopen : t.isMark "\x7b" = true
      · have hclose := isMark_other hopen (by decide : "\x7b" ≠ "\x7d")
        have step : depth + opened [t] = (depth + 1) + closed [t] := by
          simp [opened, closed, hopen, hclose]
        rw [if_pos hopen]
        exact ih ((closesAt_cons step).mp hat)
      · rw [if_neg hopen]
        by_cases hclose : t.isMark "\x7d" = true
        · -- The prefix that consists of this brace alone shows that one is still open.
          have hfirst := hat.inside [t] ((List.prefix_cons_inj t).mpr List.nil_prefix)
          have hdepth : depth ≠ 0 := by
            rintro rfl
            simp [opened, closed, hopen, hclose] at hfirst
          obtain ⟨outer, rfl⟩ := Nat.exists_eq_succ_of_ne_zero hdepth
          have step : (outer + 1) + opened [t] = outer + closed [t] := by
            simp [opened, closed, hopen, hclose]
          rw [if_pos hclose]
          exact ih ((closesAt_cons step).mp hat)
        · have step : depth + opened [t] = depth + closed [t] := by
            simp [opened, closed, hopen, hclose]
          rw [if_neg hclose]
          exact ih ((closesAt_cons step).mp hat)

/-- Where at least as many braces were closed as opened, the braces balanced somewhere before. -/
theorem exists_balanced_prefix {opening : Token} (hopen : opening.isMark "\x7b" = true)
    (front : List Token) (hlow : opened (opening :: front) ≤ closed (opening :: front)) :
    ∃ shorter, shorter <+: opening :: front ∧ shorter ≠ [] ∧ Balanced shorter := by
  induction front using List.reverseRecOn with
  | nil =>
      have hclose := isMark_other hopen (by decide : "\x7b" ≠ "\x7d")
      simp [opened, closed, hopen, hclose] at hlow
  | append_singleton front t ih =>
      by_cases hlevel : Balanced (opening :: (front ++ [t]))
      · exact ⟨_, List.prefix_rfl, List.cons_ne_nil _ _, hlevel⟩
      · -- One token changes the difference by at most one.
        have hbefore : opened (opening :: front) ≤ closed (opening :: front) := by
          have hboth : ¬ (t.isMark "\x7b" = true ∧ t.isMark "\x7d" = true) := by
            rintro ⟨hone, hother⟩
            exact absurd (isMark_inj hone hother) (by decide)
          simp only [Balanced, opened, closed, List.countP_cons, List.countP_append,
            List.countP_nil] at hlow hlevel ⊢
          split at hlow <;> split at hlow <;> simp_all <;> omega
        obtain ⟨shorter, hpre, hne, hbal⟩ := ih hbefore
        refine ⟨shorter, hpre.trans ?_, hne, hbal⟩
        exact (List.prefix_cons_inj opening).mpr (List.prefix_append front [t])

/-- Where no proper part of a run from its start on balances, no brace is closed too early in it. -/
theorem staysInside_of_shortest {opening closing : Token} {inner : List Token}
    (hopen : opening.isMark "\x7b" = true)
    (hshort : ∀ shorter, shorter <+: opening :: (inner ++ [closing]) → shorter ≠ [] →
      Balanced shorter → shorter = opening :: (inner ++ [closing])) : StaysInside 0 inner := by
  have hclose := isMark_other hopen (by decide : "\x7b" ≠ "\x7d")
  intro front hfront
  by_contra hlow
  have hlow' : opened (opening :: front) ≤ closed (opening :: front) := by
    simp only [opened, closed, List.countP_cons, hopen, hclose] at hlow ⊢
    simp only [if_true, Bool.false_eq_true, if_false]
    omega
  obtain ⟨shorter, hpre, hne, hlevel⟩ := exists_balanced_prefix hopen front hlow'
  have hlong : opening :: front <+: opening :: (inner ++ [closing]) :=
    (List.prefix_cons_inj opening).mpr (hfront.trans (List.prefix_append _ _))
  -- The balanced part would be the whole run, which is longer than it.
  have hwhole := hshort shorter (hpre.trans hlong) hne hlevel
  have hlen := hpre.length_le
  have hinner := hfront.length_le
  rw [hwhole] at hlen
  simp only [List.length_cons, List.length_append, List.length_nil] at hlen
  omega

/-- A body is an opening brace, a part that stays inside it, and the brace that closes it. -/
theorem isBody_iff {run : List Token} :
    IsBody run ↔ ∃ opening inner closing, run = opening :: (inner ++ [closing]) ∧
      opening.isMark "\x7b" = true ∧ ClosesAt 0 inner closing := by
  constructor
  · rintro ⟨hopens, hbal, hshort⟩
    obtain ⟨opening, hhead, hopen⟩ := (Option.any_eq_true _ _).mp hopens
    have hclose := isMark_other hopen (by decide : "\x7b" ≠ "\x7d")
    obtain ⟨more, rfl⟩ := List.head?_eq_some_iff.mp hhead
    rcases List.eq_nil_or_concat more with rfl | ⟨inner, closing, rfl⟩
    · simp [Balanced, hopen, hclose] at hbal
    · rw [List.concat_eq_append] at *
      have hinside : StaysInside 0 inner := staysInside_of_shortest hopen hshort
      -- All that was opened inside is closed inside, so the last token closes the body.
      have hwhole := hinside inner List.prefix_rfl
      simp only [Balanced, opened, closed, List.countP_cons, List.countP_append, List.countP_nil,
        hopen, hclose] at hbal hwhole
      refine ⟨opening, inner, closing, rfl, hopen, ?_, hinside, ?_⟩
      · by_contra hnot
        simp only [Bool.not_eq_true] at hnot
        simp only [hnot, if_true, Bool.false_eq_true, if_false] at hbal
        omega
      · simp only [if_true, Bool.false_eq_true, if_false] at hbal
        simp only [opened, closed]
        split at hbal <;> split at hbal <;> omega
  · rintro ⟨opening, inner, closing, rfl, hopen, hat⟩
    have hclose := isMark_other hopen (by decide : "\x7b" ≠ "\x7d")
    have hlast := isMark_other hat.closes (by decide : "\x7d" ≠ "\x7b")
    have hlevel := hat.level
    refine ⟨hopen, ?_, ?_⟩
    · simp only [Balanced, opened, closed, List.countP_cons, List.countP_append, List.countP_nil,
        hopen, hclose, hlast, hat.closes] at hlevel ⊢
      simp only [if_true, Bool.false_eq_true, if_false]
      omega
    · intro shorter hpre hne hbal
      rcases List.prefix_cons_iff.mp hpre with rfl | ⟨front, rfl, hfront⟩
      · exact absurd rfl hne
      · rcases List.prefix_concat_iff.mp hfront with rfl | hinner
        · rfl
        · have hinside := hat.inside front hinner
          simp only [Balanced, opened, closed, List.countP_cons, hopen, hclose] at hbal hinside
          simp only [if_true, Bool.false_eq_true, if_false] at hbal
          omega

/-- The leaf of a region goes from its first token to its last. -/
theorem runLeaf_cons_concat (source : List Char) (kind : TokenKind) (first last : Token)
    (inner : List Token) :
    runLeaf source kind (first :: (inner ++ [last])) = [regionLeaf source kind first last] := by
  simp [runLeaf, List.getLast?_cons]

/-- A body that is read is the shortest run with as many braces of both kinds. -/
theorem body_sound (source : List Char) (expected : Option Expectation) :
    Sound source (body source expected) .body := by
  intro ts trees rest hread
  cases ts with
  | nil => exact Outcome.noConfusion hread
  | cons opening more =>
      rw [body] at hread
      split at hread
      · rename_i hopen
        split at hread
        · rename_i closing after hend
          cases hread
          obtain ⟨inner, rfl, hat⟩ := bodyEnd?_sound hend
          refine ⟨.body (opening :: (inner ++ [closing])) ?_, ?_, ?_⟩
          · exact isBody_iff.mpr ⟨opening, inner, closing, rfl, hopen, hat⟩
          · simp [Derivation.yield]
          · exact (runLeaf_cons_concat source .body opening closing inner).symm
        · exact Outcome.noConfusion hread
      · exact Outcome.noConfusion hread

/-- The shortest such run is the one that is read. -/
theorem body_reads (source : List Char) (n : Nat) (expected : Option Expectation) :
    Reads source n (body source expected) .body anything where
  complete d rest _ _ := by
    cases d with
    | body run hrun =>
        obtain ⟨opening, inner, closing, rfl, hopen, hat⟩ := isBody_iff.mp hrun
        have hend := bodyEnd?_complete rest hat
        show body source expected (opening :: ((inner ++ [closing]) ++ rest)) = _
        rw [List.append_assoc, List.singleton_append, body, if_pos hopen, hend]
        show Outcome.ok _ rest = Outcome.ok (runLeaf source .body _) rest
        rw [runLeaf_cons_concat]
  unique d d' rest _ _ hyield := by
    cases d with
    | body run hrun =>
        cases d' with
        | body run' hrun' =>
            cases hyield
            rfl

theorem body_starts : Starts .body (·.isMark "\x7b") := by
  intro d rest _
  cases d with
  | body run hrun =>
      obtain ⟨opening, inner, closing, rfl, hopen, -⟩ := isBody_iff.mp hrun
      exact hopen

/-! ## Values -/

/-- What the search for the end of a value stops at, when `depth` brackets are open where it begins. -/
structure EndsAt (depth : Nat) (front : List Token) (last : Token) : Prop where
  ends : last.isMark ";" = true
  level : front.foldl countBracket depth = 0
  first : ∀ before t more, front = before ++ t :: more → t.isMark ";" = true →
    before.foldl countBracket depth ≠ 0

/-- The first token moves the counter, and the search goes on from there. -/
theorem endsAt_cons {depth : Nat} {t last : Token} {front : List Token}
    (inside : t.isMark ";" = true → depth ≠ 0) :
    EndsAt depth (t :: front) last ↔ EndsAt (countBracket depth t) front last := by
  constructor
  · rintro ⟨hends, hlevel, hfirst⟩
    refine ⟨hends, hlevel, ?_⟩
    intro before u more hfront
    exact hfirst (t :: before) u more (by rw [hfront, List.cons_append])
  · rintro ⟨hends, hlevel, hfirst⟩
    refine ⟨hends, hlevel, ?_⟩
    intro before u more hfront hu
    cases before with
    | nil =>
        cases hfront
        exact inside hu
    | cons v before =>
        cases hfront
        exact hfirst before u more rfl hu

/-- The search counts the brackets that the counter counts. -/
theorem countBracket_eq (depth : Nat) (t : Token) : countBracket depth t =
    if opensBracket t then depth + 1 else if closesBracket t then depth - 1 else depth := rfl

/-- A semicolon is no bracket. -/
theorem isMark_semicolon_not_bracket {t : Token} (h : t.isMark ";" = true) :
    opensBracket t = false ∧ closesBracket t = false := by
  simp only [opensBracket, closesBracket, isMark_other h (by decide : ";" ≠ "("),
    isMark_other h (by decide : ";" ≠ "["), isMark_other h (by decide : ";" ≠ "\x7b"),
    isMark_other h (by decide : ";" ≠ ")"), isMark_other h (by decide : ";" ≠ "]"),
    isMark_other h (by decide : ";" ≠ "\x7d"), Bool.or_self, and_self]

/-- One step of the search, with the counter named. -/
theorem valueEnd?_cons (depth : Nat) (t : Token) (rest : List Token) :
    valueEnd? depth (t :: rest) =
      if t.isMark ";" = true ∧ depth = 0 then some (t, rest)
      else valueEnd? (countBracket depth t) rest := by
  rw [valueEnd?, countBracket_eq]
  by_cases hsemi : t.isMark ";" = true
  · obtain ⟨hopen, hclose⟩ := isMark_semicolon_not_bracket hsemi
    by_cases hdepth : depth = 0 <;> simp [hsemi, hopen, hclose, hdepth]
  · simp only [hsemi]
    split
    · rfl
    · split <;> simp

/-- The semicolon that the search stops at is the first one outside brackets. -/
theorem valueEnd?_sound {depth : Nat} {ts after : List Token} {last : Token}
    (hend : valueEnd? depth ts = some (last, after)) :
    ∃ front, ts = front ++ last :: after ∧ EndsAt depth front last := by
  induction ts generalizing depth with
  | nil => cases hend
  | cons t ts ih =>
      rw [valueEnd?_cons] at hend
      split at hend
      · rename_i hstop
        cases hend
        refine ⟨[], rfl, hstop.1, hstop.2, ?_⟩
        intro before u more hnil
        exact absurd hnil.symm (by simp)
      · rename_i hgo
        obtain ⟨front, rfl, hat⟩ := ih hend
        have inside : t.isMark ";" = true → depth ≠ 0 := fun ht hdepth => hgo ⟨ht, hdepth⟩
        exact ⟨t :: front, rfl, (endsAt_cons inside).mpr hat⟩

/-- The first semicolon outside brackets is where the search stops, whatever follows. -/
theorem valueEnd?_complete {depth : Nat} {front : List Token} {last : Token} (after : List Token)
    (hat : EndsAt depth front last) :
    valueEnd? depth (front ++ last :: after) = some (last, after) := by
  induction front generalizing depth with
  | nil => exact (valueEnd?_cons depth last after).trans (if_pos ⟨hat.ends, hat.level⟩)
  | cons t front ih =>
      have inside : t.isMark ";" = true → depth ≠ 0 := fun ht => hat.first [] t front rfl ht
      have hgo : ¬ (t.isMark ";" = true ∧ depth = 0) := fun hstop => inside hstop.1 hstop.2
      rw [List.cons_append, valueEnd?_cons, if_neg hgo]
      exact ih ((endsAt_cons inside).mp hat)

/-- A value is a token other than a semicolon and what follows it up to the end that is searched for. -/
theorem isValue_iff {run : List Token} :
    IsValue run ↔ ∃ first inner last, run = first :: (inner ++ [last]) ∧
      first.isMark ";" = false ∧ EndsAt 0 (first :: inner) last := by
  constructor
  · rintro ⟨hbegins, ⟨front, last, rfl, hlast, hlevel⟩, hfirst⟩
    obtain ⟨first, hhead, hother⟩ := (Option.any_eq_true _ _).mp hbegins
    rw [Bool.not_eq_true'] at hother
    cases front with
    | nil =>
        cases hhead
        rw [hother] at hlast
        exact Bool.noConfusion hlast
    | cons t inner =>
        cases hhead
        refine ⟨first, inner, last, rfl, hother, hlast, hlevel, ?_⟩
        intro before t more hfront ht hzero
        have hpre : before ++ [t] <+: first :: inner ++ [last] := by
          rw [hfront]
          exact ⟨more ++ [last], by simp⟩
        have hwhole := congrArg List.length (hfirst before t hpre ⟨ht, hzero⟩)
        rw [hfront] at hwhole
        simp only [List.length_append, List.length_cons, List.length_nil] at hwhole
        omega
  · rintro ⟨first, inner, last, rfl, hother, hat⟩
    refine ⟨?_, ⟨first :: inner, last, rfl, hat.ends, hat.level⟩, ?_⟩
    · simp [hother]
    · intro front t hpre hends
      rw [← List.cons_append] at hpre ⊢
      rcases List.prefix_concat_iff.mp hpre with hwhole | hinner
      · exact hwhole
      · obtain ⟨more, hmore⟩ := hinner
        have hsplit : first :: inner = front ++ t :: more := by rw [← hmore]; simp
        exact absurd hends.2 (hat.first front t more hsplit hends.1)

/-- A value that is read ends with its first semicolon outside brackets. -/
theorem valueLiteral_sound (source : List Char) : Sound source (valueLiteral source) .value := by
  intro ts trees rest hread
  cases ts with
  | nil => exact Outcome.noConfusion hread
  | cons first more =>
      rw [valueLiteral] at hread
      split at hread
      · exact Outcome.noConfusion hread
      · rename_i hother
        rw [Bool.not_eq_true] at hother
        split at hread
        · rename_i last after hend
          cases hread
          obtain ⟨front, hts, hat⟩ := valueEnd?_sound hend
          cases front with
          | nil =>
              cases hts
              exact absurd hat.ends (Bool.eq_false_iff.mp hother)
          | cons t inner =>
              cases hts
              refine ⟨.value (first :: (inner ++ [last])) ?_, ?_, ?_⟩
              · exact isValue_iff.mpr ⟨first, inner, last, rfl, hother, hat⟩
              · simp [Derivation.yield]
              · exact (runLeaf_cons_concat source .valueLiteral first last inner).symm
        · exact Outcome.noConfusion hread

/-- The value that ends there is the one that is read. -/
theorem valueLiteral_reads (source : List Char) (n : Nat) :
    Reads source n (valueLiteral source) .value anything where
  complete d rest _ _ := by
    cases d with
    | value run hrun =>
        obtain ⟨first, inner, last, rfl, hother, hat⟩ := isValue_iff.mp hrun
        have hend := valueEnd?_complete rest hat
        show valueLiteral source (first :: ((inner ++ [last]) ++ rest)) = _
        rw [List.append_assoc, List.singleton_append, valueLiteral,
          if_neg (Bool.eq_false_iff.mp hother)]
        rw [List.cons_append] at hend
        rw [hend]
        show Outcome.ok _ rest = Outcome.ok (runLeaf source .valueLiteral _) rest
        rw [runLeaf_cons_concat]
  unique d d' rest _ _ hyield := by
    cases d with
    | value run hrun =>
        cases d' with
        | value run' hrun' =>
            cases hyield
            rfl

end ClassChart.Grammar
