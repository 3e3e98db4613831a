/-
# ClassChart.Proofs.Grammar.Viable — what stands before a refused token can be completed

A front of a phrase can be completed when new tokens behind it make it something the phrase derives. A
reader never takes more than such a front before it refuses; here is what that means, with a law for each
way to build readers. Where a sequence stops in its first part, the second part still has to be derived,
from new tokens alone.

Two readers refuse where the tokens end and not at a token they look at: a body that is not closed, and a
value without its semicolon. These are completed by closing what is open.
-/
import ClassChart.Proofs.Grammar.Unit
import ClassChart.Proofs.Token.Word

namespace ClassChart.Grammar

open Reader

/-! ## Fronts of phrases -/

/-- There are words that complete the front of a phrase. Each of them is read as a token of its kind, and
it does not matter where the tokens stand. -/
def Completable (e : Phrase) (front : List Token) : Prop :=
  ∃ words : List (TokenKind × String), (∀ w ∈ words, IsToken w.1 w.2) ∧
    ∀ xs : List Token, xs.map Token.word = words → ∃ d : Derivation e, d.yield = front ++ xs

namespace Completable

variable {e f : Phrase} {front run : List Token}

/-- A front is completed behind a run if its completion can stand there. -/
theorem behind (h : Completable e front)
    (place : ∀ d : Derivation e, ∃ d' : Derivation f, d'.yield = run ++ d.yield) :
    Completable f (run ++ front) := by
  obtain ⟨words, htoken, hderive⟩ := h
  refine ⟨words, htoken, fun xs hxs => ?_⟩
  obtain ⟨d, hd⟩ := hderive xs hxs
  obtain ⟨d', hd'⟩ := place d
  exact ⟨d', by rw [hd', hd, List.append_assoc]⟩

/-- What completes a front of one phrase completes it in another that derives the same. -/
theorem map (h : Completable e front)
    (place : ∀ d : Derivation e, ∃ d' : Derivation f, d'.yield = d.yield) : Completable f front :=
  @behind e f front [] h place

theorem left (h : Completable e front) : Completable (e ||| f) front := h.map fun d => ⟨.left d, rfl⟩

theorem right (h : Completable f front) : Completable (e ||| f) front := h.map fun d => ⟨.right d, rfl⟩

theorem optional (h : Completable e front) : Completable (.opt e) front := h.map fun d => ⟨.some d, rfl⟩

theorem rule {r : Rule} (h : Completable (.production r) front) : Completable (.rule r) front :=
  h.map fun d => ⟨.rule d, rfl⟩

theorem item (h : Completable e front) : Completable (.many e) front :=
  h.map fun d => ⟨.cons d .nil, List.append_nil _⟩

/-- Phrases that derive the same have the same fronts. -/
theorem alike (alike : Alike e f) (h : Completable f front) : Completable e front := by
  refine h.map fun d => ⟨alike.back d, ?_⟩
  rw [← alike.yield_forth, alike.forth_back]

/-- A front in the second part of a sequence. -/
theorem second (a : Derivation e) (h : Completable f front) :
    Completable (e ++ f) (a.yield ++ front) :=
  h.behind fun d => ⟨.seq a d, rfl⟩

/-- A front in a later item of a repetition. -/
theorem later (a : Derivation e) (h : Completable (.many e) front) :
    Completable (.many e) (a.yield ++ front) :=
  h.behind fun d => ⟨.cons a d, rfl⟩

/-- What is derived needs no completion. -/
theorem complete (d : Derivation e) : Completable e d.yield := by
  refine ⟨[], by simp, fun xs hxs => ⟨d, ?_⟩⟩
  rw [List.map_eq_nil_iff.mp hxs, List.append_nil]

/-- What may be left out needs no token. -/
theorem opt_nil : Completable (.opt e) [] := complete .none

theorem many_nil : Completable (.many e) [] := complete .nil

/-- A front in the first part of a sequence: the second part is derived from new tokens alone. -/
theorem append (h : Completable e front) (h' : Completable f []) : Completable (e ++ f) front := by
  obtain ⟨words, htoken, hderive⟩ := h
  obtain ⟨words', htoken', hderive'⟩ := h'
  refine ⟨words ++ words', ?_, fun xs hxs => ?_⟩
  · intro w hw
    exact (List.mem_append.mp hw).elim (htoken w) (htoken' w)
  · obtain ⟨ys, zs, rfl, hys, hzs⟩ := List.map_eq_append_iff.mp hxs
    obtain ⟨a, ha⟩ := hderive ys hys
    obtain ⟨b, hb⟩ := hderive' zs hzs
    refine ⟨.seq a b, ?_⟩
    rw [Derivation.yield, ha, hb, List.append_assoc, List.nil_append]

/-- A token of the class completes the empty front of it. -/
theorem token {admits : Token → Bool} {k : TokenKind} {text : String} (h : IsToken k text)
    (hadmits : ∀ span, admits ⟨k, text, span⟩ = true) : Completable (.terminal admits) [] := by
  refine ⟨[(k, text)], by simpa using h, fun xs hxs => ?_⟩
  obtain ⟨t, rfl, ht⟩ := List.map_eq_singleton_iff.mp hxs
  obtain ⟨kind, word, span⟩ := t
  cases ht
  exact ⟨.token _ (hadmits span), rfl⟩

theorem kind {k : TokenKind} {text : String} (h : IsToken k text) : Completable (.kind k) [] :=
  token h fun _ => beq_self_eq_true k

theorem mark {text : String} (h : IsToken .punctuation text) : Completable (.mark text) [] :=
  token h fun _ => by simp [Token.isMark]

end Completable

/-! ## Readers -/

/-- The refusal of an outcome, if it is one. -/
def Outcome.refusal? : Outcome → Option Refusal
  | ok _ _ => none
  | plain refusal => some refusal
  | final refusal => some refusal

@[simp] theorem Outcome.refusal?_map (f : List Tree → List Tree) (o : Outcome) :
    (o.map f).refusal? = o.refusal? := by
  cases o <;> rfl

/-- The refusal of a phrase at the head of `ts` stands behind a front that can be completed, and the
construct it names begins within `ts`. -/
structure Refusal.Viable (refusal : Refusal) (e : Phrase) (ts : List Token) : Prop where
  front : ∃ front, ts = front ++ refusal.rest ∧ Completable e front
  construct : ∀ construct ∈ refusal.construct, construct <:+ ts

/-- The reader gives what the phrase derives, and each of its refusals is viable. -/
structure Completes (source : List Char) (read : Reader) (e : Phrase) : Prop where
  sound : Sound source read e
  viable : ∀ ts refusal, (read ts).refusal? = some refusal → refusal.Viable e ts

section Refusals

variable {refusal : Refusal} {e f : Phrase} {ts run : List Token}

/-- What was read before a refused part stands before its front. -/
theorem Refusal.Viable.behind (h : refusal.Viable e ts)
    (place : ∀ front, Completable e front → Completable f (run ++ front)) :
    refusal.Viable f (run ++ ts) := by
  obtain ⟨front, hts, hfront⟩ := h.front
  refine ⟨⟨run ++ front, by rw [List.append_assoc, ← hts], place front hfront⟩, fun c hc => ?_⟩
  exact (h.construct c hc).trans (List.suffix_append run ts)

/-- A refusal in a part is one in the whole, if the fronts of the part are fronts of the whole. -/
theorem Refusal.Viable.map (h : refusal.Viable e ts)
    (place : ∀ front, Completable e front → Completable f front) : refusal.Viable f ts :=
  @behind refusal e f ts [] h place

/-- A refusal at the first token. -/
theorem viable_start (expected : Option Expectation) (h : Completable e []) (ts : List Token) :
    Refusal.Viable ⟨ts, expected, none⟩ e ts :=
  ⟨⟨[], rfl, h⟩, by simp⟩

end Refusals

namespace Completes

variable {source : List Char} {p q : Reader} {e f : Phrase} {test : Token → Bool}

/-! ### One law for each way to build readers -/

/-- A reader of one phrase is one of another that it is sound for and that has the same fronts. -/
theorem map (h : Completes source p e) (sound : Sound source p f)
    (place : ∀ front, Completable e front → Completable f front) : Completes source p f :=
  ⟨sound, fun ts refusal hread => (h.viable ts refusal hread).map place⟩

/-- A token that is refused leaves the empty front. -/
theorem token {expected : Option Expectation} (h : Completable (.terminal test) []) :
    Completes source (Reader.token test expected) (.terminal test) := by
  refine ⟨Sound.token, fun ts refusal hread => ?_⟩
  cases ts with
  | nil =>
      cases hread
      exact viable_start expected h []
  | cons t rest =>
      rw [Reader.token] at hread
      split at hread
      · cases hread
      · cases hread
        exact viable_start expected h (t :: rest)

theorem nothing_opt : Completes source nothing (.opt e) :=
  ⟨Sound.nothing_opt, fun _ _ hread => nomatch hread⟩

/-- A sequence is refused in its first part, and then the second one must be completable from nothing;
or in its second part, behind something the first one derives. -/
theorem append (hp : Completes source p e) (hq : Completes source q f) (hf : Completable f []) :
    Completes source (p ++ q) (e ++ f) := by
  refine ⟨hp.sound.append hq.sound, fun ts refusal hread => ?_⟩
  have hfirst : ∀ found, (p ts).refusal? = some found → found.Viable (e ++ f) ts := fun found hfound =>
    (hp.viable ts found hfound).map fun _ hfront => hfront.append hf
  change ((p ts).andThen fun first rest => (q rest).map (first ++ ·)).refusal? = some refusal at hread
  cases houtcome : p ts with
  | ok first rest =>
      rw [houtcome] at hread
      change ((q rest).map _).refusal? = _ at hread
      rw [Outcome.refusal?_map] at hread
      obtain ⟨a, rfl, _⟩ := hp.sound ts first rest houtcome
      exact (hq.viable rest refusal hread).behind fun _ hfront => hfront.second a
  | plain found =>
      rw [houtcome] at hread
      exact hfirst refusal (by rw [houtcome]; exact hread)
  | final found =>
      rw [houtcome] at hread
      exact hfirst refusal (by rw [houtcome]; exact hread)

/-- A token behind a phrase: where it is refused, one of its class completes the sequence. -/
theorem thenToken {expected : Option Expectation} (hp : Completes source p e)
    (h : Completable (.terminal test) []) :
    Completes source (p ++ Reader.token test expected) (e ++ .terminal test) :=
  hp.append (token h) h

/-- Names do not change the fronts of a phrase. -/
theorem node {r : Rule} (hp : Completes source p (.production r)) :
    Completes source (Reader.node r p) (.rule r) := by
  refine ⟨hp.sound.node, fun ts refusal hread => ?_⟩
  change ((p ts).map _).refusal? = _ at hread
  rw [Outcome.refusal?_map] at hread
  exact (hp.viable ts refusal hread).map fun _ hfront => hfront.rule

theorem left (hp : Completes source p e) : Completes source p (e ||| f) :=
  hp.map hp.sound.left fun _ hfront => hfront.left

theorem right (hp : Completes source p f) : Completes source p (e ||| f) :=
  hp.map hp.sound.right fun _ hfront => hfront.right

theorem optional (hp : Completes source p e) : Completes source p (.opt e) :=
  hp.map hp.sound.some fun _ hfront => hfront.optional

theorem alike (alike : Alike e f) (hp : Completes source p f) : Completes source p e :=
  hp.map (alike.sound hp.sound) fun _ hfront => hfront.alike alike

/-- Whichever reader the next token chooses, its fronts are those of the phrase. -/
theorem byNext {choose : Option Token → Reader} (h : ∀ next, Completes source (choose next) e) :
    Completes source (Reader.byNext choose) e :=
  ⟨Sound.byNext fun next => (h next).sound, fun ts => (h ts.head?).viable ts⟩

/-- What is optional is refused only where it was begun. -/
theorem ifNext (hp : Completes source p e) : Completes source (Reader.ifNext test p) (.opt e) := by
  refine byNext fun next => ?_
  split
  · exact hp.optional
  · exact nothing_opt

/-- Where both readers refuse, the second refusal is given, unless the first one is final. -/
theorem orElse (hp : Completes source p e) (hq : Completes source q e) :
    Completes source (Reader.orElse p q) e := by
  refine ⟨hp.sound.orElse hq.sound, fun ts refusal hread => ?_⟩
  unfold Reader.orElse at hread
  split at hread
  · exact hq.viable ts refusal hread
  · exact hp.viable ts refusal hread

theorem committed (hp : Completes source p e) : Completes source (Reader.committed p) e := by
  refine ⟨hp.sound.committed, fun ts refusal hread => ?_⟩
  -- The construct that is remembered is one from inside, or begins here.
  have hcommitted : ∀ found, (p ts).refusal? = some found →
      Refusal.Viable { found with construct := found.construct <|> some ts } e ts := by
    intro found hfound
    have hviable := hp.viable ts found hfound
    refine ⟨hviable.front, fun c hc => ?_⟩
    cases hconstruct : found.construct with
    | none =>
        rw [hconstruct] at hc
        cases hc
        exact List.suffix_refl ts
    | some inner =>
        rw [hconstruct] at hc
        exact hviable.construct c (hconstruct ▸ hc)
  unfold Reader.committed at hread
  split at hread
  · cases hread
  · rename_i found houtcome
    cases hread
    exact hcommitted found (by rw [houtcome]; rfl)
  · rename_i found houtcome
    cases hread
    exact hcommitted found (by rw [houtcome]; rfl)

/-- A repetition is refused in one of its items, behind those that were read. -/
theorem whileNext {goOn : Option Token → Bool} (hp : Completes source p e) :
    Completes source (Reader.whileNext goOn p) (.many e) := by
  refine ⟨hp.sound.whileNext, fun ts refusal hread => ?_⟩
  fun_induction Reader.whileNext goOn p ts with
  | case1 ts _ first after hitem _ ih =>
      rw [Outcome.refusal?_map] at hread
      obtain ⟨a, rfl, _⟩ := hp.sound ts first after hitem
      exact (ih hread).behind fun _ hfront => hfront.later a
  | case2 => cases hread
  | case3 ts _ found hitem =>
      have hfound : (p ts).refusal? = some refusal := by rw [hitem]; exact hread
      exact (hp.viable ts refusal hfound).map fun _ hfront => hfront.item
  | case4 ts _ found hitem =>
      have hfound : (p ts).refusal? = some refusal := by rw [hitem]; exact hread
      exact (hp.viable ts refusal hfound).map fun _ hfront => hfront.item
  | case5 => cases hread

end Completes

/-! ## Regions -/

section Regions

variable {xs : List Token}

/-- The tokens that spell a word some number of times. -/
theorem exists_of_replicate {count : Nat} {w : TokenKind × String}
    (h : xs.map Token.word = List.replicate (count + 1) w) :
    ∃ x more, xs = x :: more ∧ x.word = w ∧ more.map Token.word = List.replicate count w := by
  rw [List.replicate_succ] at h
  exact List.map_eq_cons_iff.mp h

/-- A punctuation token is told by its word. -/
theorem isMark_of_word {t : Token} {text : String} (h : t.word = (.punctuation, text)) :
    t.isMark text = true := by
  obtain ⟨kind, word, span⟩ := t
  cases h
  simp [Token.isMark]

/-- A body that is not closed is closed by a brace for each open one. -/
theorem exists_bodyEnd {depth : Nat} {ts : List Token} (h : bodyEnd? depth ts = none) :
    ∃ count, ∀ xs, xs.map Token.word = List.replicate (count + 1) (.punctuation, "\x7d") →
      ∃ closing, bodyEnd? depth (ts ++ xs) = some (closing, []) := by
  fun_induction bodyEnd? depth ts with
  | case1 depth =>
      refine ⟨depth, fun xs hxs => ?_⟩
      induction depth generalizing xs with
      | zero =>
          obtain ⟨x, more, rfl, hx, hmore⟩ := exists_of_replicate hxs
          have hclose := isMark_of_word hx
          have hopen := isMark_other hclose (by decide : "\x7d" ≠ "\x7b")
          rw [List.replicate_zero, List.map_eq_nil_iff] at hmore
          subst hmore
          exact ⟨x, by simp [bodyEnd?, hopen, hclose]⟩
      | succ depth ih =>
          obtain ⟨x, more, rfl, hx, hmore⟩ := exists_of_replicate hxs
          have hclose := isMark_of_word hx
          have hopen := isMark_other hclose (by decide : "\x7d" ≠ "\x7b")
          obtain ⟨closing, hend⟩ := ih more hmore
          exact ⟨closing, by simpa [bodyEnd?, hopen, hclose] using hend⟩
  | case2 depth t rest hopen ih =>
      obtain ⟨count, hcount⟩ := ih h
      exact ⟨count, fun xs hxs => by simpa [bodyEnd?, hopen] using hcount xs hxs⟩
  | case3 => cases h
  | case4 t rest hopen hclose outer ih =>
      obtain ⟨count, hcount⟩ := ih h
      exact ⟨count, fun xs hxs => by simpa [bodyEnd?, hopen, hclose] using hcount xs hxs⟩
  | case5 depth t rest hopen hclose ih =>
      obtain ⟨count, hcount⟩ := ih h
      exact ⟨count, fun xs hxs => by simpa [bodyEnd?, hopen, hclose] using hcount xs hxs⟩

/-- A body that does not end is completed by as many braces as are open. -/
theorem completable_open_body {opening : Token} {rest : List Token}
    (hopen : opening.isMark "\x7b" = true) (h : bodyEnd? 0 rest = none) :
    Completable .body (opening :: rest) := by
  obtain ⟨count, hcount⟩ := exists_bodyEnd h
  refine ⟨List.replicate (count + 1) (.punctuation, "\x7d"), ?_, fun xs hxs => ?_⟩
  · intro w hw
    rw [List.eq_of_mem_replicate hw]
    decide
  · obtain ⟨closing, hend⟩ := hcount xs hxs
    obtain ⟨inner, hinner, hcloses⟩ := bodyEnd?_sound hend
    exact ⟨.body (opening :: (inner ++ [closing])) (isBody_iff.mpr ⟨_, _, _, rfl, hopen, hcloses⟩),
      congrArg (opening :: ·) hinner.symm⟩

theorem completable_body : Completable .body [] := by
  refine ⟨[(.punctuation, "\x7b"), (.punctuation, "\x7d")], by decide, fun xs hxs => ?_⟩
  obtain ⟨opening, more, rfl, hopen, hmore⟩ := List.map_eq_cons_iff.mp hxs
  obtain ⟨closing, rfl, hclose⟩ := List.map_eq_singleton_iff.mp hmore
  exact ⟨.body _ (isBody_iff.mpr ⟨opening, [], closing, rfl, isMark_of_word hopen,
    isMark_of_word hclose, staysInside_nil 0, rfl⟩), rfl⟩

/-- A body is refused before its brace, or because it does not end. -/
theorem body_completes {source : List Char} (expected : Option Expectation) :
    Completes source (body source expected) .body := by
  refine ⟨body_sound source expected, fun ts refusal hread => ?_⟩
  cases ts with
  | nil =>
      cases hread
      exact viable_start expected completable_body []
  | cons opening rest =>
      rw [body] at hread
      split at hread
      · rename_i hopen
        split at hread
        · cases hread
        · rename_i hend
          cases hread
          refine ⟨⟨opening :: rest, (List.append_nil _).symm, completable_open_body hopen hend⟩, ?_⟩
          intro c hc
          cases hc
          exact List.suffix_cons opening rest
      · cases hread
        exact viable_start expected completable_body (opening :: rest)

/-- A value without its end is ended by a closing bracket for each open one, and a semicolon. -/
theorem exists_valueEnd {depth : Nat} {ts : List Token} (h : valueEnd? depth ts = none) :
    ∃ count, ∀ xs, xs.map Token.word =
        List.replicate count (.punctuation, ")") ++ [(.punctuation, ";")] →
      ∃ last, valueEnd? depth (ts ++ xs) = some (last, []) := by
  induction ts generalizing depth with
  | nil =>
      refine ⟨depth, fun xs hxs => ?_⟩
      induction depth generalizing xs with
      | zero =>
          obtain ⟨last, rfl, hlast⟩ := List.map_eq_singleton_iff.mp hxs
          exact ⟨last, by rw [List.nil_append, valueEnd?_cons, if_pos ⟨isMark_of_word hlast, rfl⟩]⟩
      | succ depth ih =>
          rw [List.replicate_succ, List.cons_append] at hxs
          obtain ⟨x, more, rfl, hx, hmore⟩ := List.map_eq_cons_iff.mp hxs
          have hclose := isMark_of_word hx
          have hbracket : countBracket (depth + 1) x = depth := by
            have hparen := isMark_other hclose (by decide : ")" ≠ "(")
            have hsquare := isMark_other hclose (by decide : ")" ≠ "[")
            have hbrace := isMark_other hclose (by decide : ")" ≠ "\x7b")
            simp [countBracket, hparen, hsquare, hbrace, hclose]
          obtain ⟨last, hend⟩ := ih rfl more hmore
          refine ⟨last, ?_⟩
          rw [List.nil_append, valueEnd?_cons, if_neg (by simp), hbracket]
          exact hend
  | cons t rest ih =>
      rw [valueEnd?_cons] at h
      split at h
      · cases h
      · rename_i hgoes
        obtain ⟨count, hcount⟩ := ih h
        refine ⟨count, fun xs hxs => ?_⟩
        rw [List.cons_append, valueEnd?_cons, if_neg hgoes]
        exact hcount xs hxs

/-- What the search for a semicolon accepts to the end is a value. -/
theorem exists_value {first last : Token} {rest : List Token} (hfirst : first.isMark ";" = false)
    (hend : valueEnd? 0 (first :: rest) = some (last, [])) :
    ∃ d : Derivation .value, d.yield = first :: rest := by
  obtain ⟨front, hfront, hat⟩ := valueEnd?_sound hend
  cases front with
  | nil =>
      rw [(List.cons.inj hfront).1] at hfirst
      exact absurd hat.ends (by simp [hfirst])
  | cons begin inner =>
      obtain ⟨rfl, hrest⟩ := List.cons.inj hfront
      exact ⟨.value _ (isValue_iff.mpr ⟨_, inner, last, rfl, hfirst, hat⟩),
        congrArg (first :: ·) hrest.symm⟩

/-- A value that does not end is completed by closing its brackets, and a semicolon. -/
theorem completable_open_value {first : Token} {rest : List Token} (hfirst : first.isMark ";" = false)
    (h : valueEnd? 0 (first :: rest) = none) : Completable .value (first :: rest) := by
  obtain ⟨count, hcount⟩ := exists_valueEnd h
  refine ⟨List.replicate count (.punctuation, ")") ++ [(.punctuation, ";")], ?_, fun xs hxs => ?_⟩
  · intro w hw
    rcases List.mem_append.mp hw with hw | hw
    · rw [List.eq_of_mem_replicate hw]
      decide
    · rw [List.mem_singleton.mp hw]
      decide
  · obtain ⟨last, hend⟩ := hcount xs hxs
    exact exists_value hfirst hend

theorem completable_value : Completable .value [] := by
  refine ⟨[(.integerLiteral, "0"), (.punctuation, ";")], by decide, fun xs hxs => ?_⟩
  obtain ⟨first, more, rfl, hfirst, hmore⟩ := List.map_eq_cons_iff.mp hxs
  obtain ⟨last, rfl, hlast⟩ := List.map_eq_singleton_iff.mp hmore
  -- A number is no mark at all.
  have hmark (text : String) : first.isMark text = false := by
    rw [Token.isMark, (Prod.mk.inj hfirst).1]
    rfl
  have hbracket : countBracket 0 first = 0 := by
    simp [countBracket, hmark]
  have hend : valueEnd? 0 [first, last] = some (last, []) := by
    rw [valueEnd?_cons, if_neg (by simp [hmark]), hbracket, valueEnd?_cons,
      if_pos ⟨isMark_of_word hlast, rfl⟩]
  exact exists_value (hmark ";") hend

/-- A value is refused before its first token, or because it does not end. -/
theorem valueLiteral_completes {source : List Char} :
    Completes source (valueLiteral source) .value := by
  refine ⟨valueLiteral_sound source, fun ts refusal hread => ?_⟩
  cases ts with
  | nil =>
      cases hread
      exact viable_start _ completable_value []
  | cons first rest =>
      rw [valueLiteral] at hread
      split at hread
      · cases hread
        exact viable_start _ completable_value (first :: rest)
      · rename_i hfirst
        split at hread
        · cases hread
        · rename_i hend
          cases hread
          exact ⟨⟨first :: rest, (List.append_nil _).symm,
            completable_open_value (Bool.eq_false_iff.mpr hfirst) hend⟩, by simp⟩

end Regions

end ClassChart.Grammar
