/-
# ClassChart.Proofs.Grammar.Laws — one law per combinator

What ties a reader to a phrase is said in two halves. `Sound` says that whatever the reader accepts is
derived, with the trees it gives. `Reads` says the converse, for derivations that stand before a token
the phrase cannot go on with: the reader accepts them, and no other derivation has the same yield.
`Leads` carries the one fact about neighbours that this needs, what the first token of a derivation can
be. Each combinator of readers has a law for each half, and the laws compose in the way readers do.
-/
import ClassChart.Proofs.Grammar.Derivation

namespace ClassChart.Grammar

open Reader

/-- A condition on the next token. -/
abbrev Lookahead := Option Token → Prop

/-- No condition. -/
def anything (_ : Option Token) : Prop := True

/-- A token of the given class comes next. -/
def isNext (test : Token → Bool) (next : Option Token) : Prop := next.any test = true

/-- No token of the given class comes next. -/
def notNext (test : Token → Bool) (next : Option Token) : Prop := next.any test = false

/-! ## First tokens -/

/-- Where `F` holds behind a derivation of the phrase, `G` holds before it. -/
def Leads (e : Phrase) (F G : Lookahead) : Prop :=
  ∀ (d : Derivation e) (rest : List Token), F rest.head? → G (d.yield ++ rest).head?

/-- Every derivation of the phrase begins with a token of the class. -/
abbrev Starts (e : Phrase) (test : Token → Bool) : Prop := Leads e anything (isNext test)

namespace Leads

variable {e f : Phrase} {F G H : Lookahead} {test : Token → Bool}

/-- Before a token of the class holds what holds of all of them. -/
theorem terminal (h : ∀ t, test t = true → G (some t)) : Leads (.terminal test) F G := by
  intro d rest _
  obtain ⟨t, ht, rfl⟩ := d.exists_token
  exact h t ht

theorem starts_terminal : Starts (.terminal test) test :=
  terminal fun _ ht => ht

/-- The second part of a sequence leads to the first one. -/
theorem append (he : Leads e G H) (hf : Leads f F G) : Leads (e ++ f) F H := by
  intro d rest hF
  obtain ⟨a, b, rfl⟩ := d.exists_seq
  show H ((a.yield ++ b.yield) ++ rest).head?
  rw [List.append_assoc]
  exact he a _ (hf b rest hF)

/-- Nothing behind a phrase matters that begins with a token of its own. -/
theorem append_left (he : Leads e anything H) : Leads (e ++ f) F H :=
  append he fun _ _ _ => trivial

/-- Both alternatives have to lead there. -/
theorem alt (he : Leads e F G) (hf : Leads f F G) : Leads (e ||| f) F G := by
  intro d rest hF
  rcases d.left_or_right with ⟨a, rfl⟩ | ⟨b, rfl⟩
  · exact he a rest hF
  · exact hf b rest hF

/-- What may be left out changes nothing when it is. -/
theorem opt (he : Leads e anything G) (stay : ∀ next, F next → G next) : Leads (.opt e) F G := by
  intro d rest hF
  rcases d.none_or_some with rfl | ⟨a, rfl⟩
  · exact stay _ hF
  · exact he a rest trivial

/-- An optional first part and what follows it lead the same way. -/
theorem opt_append (he : Leads e anything H) (hf : Leads f F H) : Leads (.opt e ++ f) F H :=
  append (opt he fun _ hnext => hnext) hf

/-- A repetition begins with its first item, or with what follows it. -/
theorem many (he : Leads e anything G) (stay : ∀ next, F next → G next) : Leads (.many e) F G := by
  intro d rest hF
  cases d with
  | nil => exact stay _ hF
  | cons a more =>
      show G ((a.yield ++ more.yield) ++ rest).head?
      rw [List.append_assoc]
      exact he a _ trivial

theorem rule {r : Rule} (h : Leads (.production r) F G) : Leads (.rule r) F G := by
  intro d rest hF
  obtain ⟨a, rfl⟩ := d.exists_rule
  exact h a rest hF

/-- What follows from the first token alone holds before the phrase. -/
theorem of_starts (h : Starts e test) (imp : ∀ t, test t = true → G (some t)) : Leads e F G := by
  intro d rest _
  obtain ⟨t, hnext, ht⟩ := (Option.any_eq_true _ _).mp (h d rest trivial)
  rw [hnext]
  exact imp t ht

/-- A phrase that begins with a token of a class derives no empty list. -/
theorem yield_ne_nil (h : Starts e test) (d : Derivation e) : d.yield ≠ [] := by
  intro hd
  have hnext := h d [] trivial
  rw [hd] at hnext
  exact Bool.noConfusion hnext

end Leads

/-! ## Sound readers -/

/-- A reader whose trees are changed afterwards accepts what it accepted before. -/
theorem Outcome.map_eq_ok {f : List Tree → List Tree} {o : Outcome} {trees : List Tree}
    {rest : List Token} (h : o.map f = .ok trees rest) :
    ∃ found, o = .ok found rest ∧ trees = f found := by
  cases o with
  | plain refusal => exact Outcome.noConfusion h
  | final refusal => exact Outcome.noConfusion h
  | ok found after =>
      cases h
      exact ⟨found, rfl, rfl⟩

/-- Where a sequence is read, both parts of it are. -/
theorem Reader.append_eq_ok {p q : Reader} {ts rest : List Token} {trees : List Tree}
    (h : (p ++ q) ts = .ok trees rest) :
    ∃ first more second, p ts = .ok first more ∧ q more = .ok second rest ∧
      trees = first ++ second := by
  change (p ts).andThen (fun first more => (q more).map (first ++ ·)) = _ at h
  cases hfirst : p ts with
  | plain refusal => rw [hfirst] at h; exact Outcome.noConfusion h
  | final refusal => rw [hfirst] at h; exact Outcome.noConfusion h
  | ok first more =>
      rw [hfirst] at h
      obtain ⟨second, hsecond, htrees⟩ := Outcome.map_eq_ok h
      exact ⟨first, more, second, rfl, hsecond, htrees⟩

/-- Whatever the reader accepts is derived by the phrase. -/
def Sound (source : List Char) (read : Reader) (e : Phrase) : Prop :=
  ∀ ts trees rest, read ts = .ok trees rest →
    ∃ d : Derivation e, ts = d.yield ++ rest ∧ trees = d.trees source

namespace Sound

variable {source : List Char} {p q : Reader} {e f : Phrase} {test : Token → Bool}

/-- A token that is accepted belongs to the class. -/
theorem token {expected : Option Expectation} :
    Sound source (Reader.token test expected) (.terminal test) := by
  intro ts trees rest hread
  cases ts with
  | nil => exact Outcome.noConfusion hread
  | cons t more =>
      rw [Reader.token] at hread
      split at hread
      · rename_i ht
        cases hread
        exact ⟨.token t ht, rfl, rfl⟩
      · exact Outcome.noConfusion hread

/-- Reading nothing is sound for every phrase that may be left out. -/
theorem nothing_opt : Sound source nothing (.opt e) := by
  intro ts trees rest hread
  cases hread
  exact ⟨.none, rfl, rfl⟩

/-- Trees and tokens of the parts are put one behind the other, on both sides. -/
theorem append (hp : Sound source p e) (hq : Sound source q f) : Sound source (p ++ q) (e ++ f) := by
  intro ts trees rest hread
  obtain ⟨first, more, second, hfirst, hsecond, rfl⟩ := Reader.append_eq_ok hread
  obtain ⟨a, rfl, rfl⟩ := hp ts first more hfirst
  obtain ⟨b, rfl, rfl⟩ := hq more second rest hsecond
  exact ⟨.seq a b, (List.append_assoc _ _ _).symm, rfl⟩

/-- A named phrase gives one node with the trees of its production. -/
theorem node {r : Rule} (hp : Sound source p (.production r)) :
    Sound source (Reader.node r p) (.rule r) := by
  intro ts trees rest hread
  obtain ⟨children, hbody, rfl⟩ := Outcome.map_eq_ok hread
  obtain ⟨a, rfl, rfl⟩ := hp ts children rest hbody
  exact ⟨.rule a, rfl, rfl⟩

/-- What is derived by an alternative is derived by the choice. -/
theorem left (hp : Sound source p e) : Sound source p (e ||| f) := by
  intro ts trees rest hread
  obtain ⟨a, rfl, rfl⟩ := hp ts trees rest hread
  exact ⟨.left a, rfl, rfl⟩

theorem right (hp : Sound source p f) : Sound source p (e ||| f) := by
  intro ts trees rest hread
  obtain ⟨b, rfl, rfl⟩ := hp ts trees rest hread
  exact ⟨.right b, rfl, rfl⟩

theorem some (hp : Sound source p e) : Sound source p (.opt e) := by
  intro ts trees rest hread
  obtain ⟨a, rfl, rfl⟩ := hp ts trees rest hread
  exact ⟨.some a, rfl, rfl⟩

/-- Looking at the next token adds nothing to what is accepted. -/
theorem byNext {choose : Option Token → Reader} (h : ∀ next, Sound source (choose next) e) :
    Sound source (Reader.byNext choose) e := by
  intro ts trees rest hread
  exact h ts.head? ts trees rest hread

/-- A reader that is left out accepts nothing, and nothing is an optional phrase. -/
theorem ifNext (hp : Sound source p e) : Sound source (Reader.ifNext test p) (.opt e) := by
  apply byNext
  intro next
  split
  · exact hp.some
  · exact nothing_opt

/-- The second reader starts where the first one did. -/
theorem orElse (hp : Sound source p e) (hq : Sound source q e) :
    Sound source (Reader.orElse p q) e := by
  intro ts trees rest hread
  unfold Reader.orElse at hread
  split at hread
  · exact hq ts trees rest hread
  · exact hp ts trees rest hread

/-- Making refusals final does not change what is accepted. -/
theorem committed (hp : Sound source p e) : Sound source (Reader.committed p) e := by
  intro ts trees rest hread
  unfold Reader.committed at hread
  split at hread
  · rename_i found after hok
    cases hread
    exact hp ts _ _ hok
  · exact Outcome.noConfusion hread
  · exact Outcome.noConfusion hread

/-- By the recursion of the loop: one item, and then the rest of the repetition. -/
theorem whileNext {test : Option Token → Bool} (hp : Sound source p e) :
    Sound source (Reader.whileNext test p) (.many e) := by
  intro ts trees rest hread
  fun_induction Reader.whileNext test p ts generalizing trees rest with
  | case1 ts _ first after hitem _ ih =>
      obtain ⟨a, hts, rfl⟩ := hp ts first after hitem
      obtain ⟨others, hmore, rfl⟩ := Outcome.map_eq_ok hread
      obtain ⟨more, rfl, rfl⟩ := ih others rest hmore
      refine ⟨.cons a more, ?_, rfl⟩
      rw [hts]
      exact (List.append_assoc _ _ _).symm
  | case2 ts _ first after hitem _ =>
      -- An item without tokens ends the repetition.
      cases hread
      obtain ⟨a, rfl, rfl⟩ := hp ts _ _ hitem
      refine ⟨.cons a .nil, ?_, ?_⟩
      · exact congrArg (· ++ after) (List.append_nil a.yield).symm
      · exact (List.append_nil _).symm
  | case3 => exact Outcome.noConfusion hread
  | case4 => exact Outcome.noConfusion hread
  | case5 ts _ =>
      cases hread
      exact ⟨.nil, rfl, rfl⟩

/-- A repetition whose items take tokens ends only where its test fails. -/
theorem whileNext_stops {test : Option Token → Bool} {first : Token → Bool}
    (hp : Sound source p e) (starts : Starts e first) {ts rest : List Token} {trees : List Tree}
    (hread : Reader.whileNext test p ts = .ok trees rest) : test rest.head? = false := by
  fun_induction Reader.whileNext test p ts generalizing trees rest with
  | case1 ts _ found after hitem _ ih =>
      obtain ⟨others, hmore, rfl⟩ := Outcome.map_eq_ok hread
      exact ih hmore
  | case2 ts _ found after hitem hshort =>
      obtain ⟨a, rfl, _⟩ := hp ts _ _ hitem
      have hlong := List.length_pos_iff.mpr (starts.yield_ne_nil a)
      rw [List.length_append] at hshort
      omega
  | case3 => exact Outcome.noConfusion hread
  | case4 => exact Outcome.noConfusion hread
  | case5 ts htest =>
      cases hread
      exact Bool.not_eq_true _ ▸ htest

end Sound

/-! ## Refusals -/

/-- The reader refuses the tokens and leaves the choice to others. -/
def Refuses (read : Reader) (ts : List Token) : Prop := ∃ refusal, read ts = .plain refusal

namespace Refuses

variable {p q : Reader} {ts rest : List Token} {trees : List Tree} {test : Token → Bool}

/-- A token is refused where none of its class comes next. -/
theorem token {expected : Option Expectation} (h : notNext test ts.head?) :
    Refuses (Reader.token test expected) ts := by
  cases ts with
  | nil => exact ⟨_, rfl⟩
  | cons t more => exact ⟨_, if_neg (Bool.eq_false_iff.mp h)⟩

/-- A sequence is refused if its first part is. -/
theorem append_first (hp : Refuses p ts) : Refuses (p ++ q) ts := by
  obtain ⟨refusal, hplain⟩ := hp
  refine ⟨refusal, ?_⟩
  show (p ts).andThen _ = _
  rw [hplain]
  rfl

/-- It is refused, too, if the second part is refused behind the first one. -/
theorem append_second (hp : p ts = .ok trees rest) (hq : Refuses q rest) : Refuses (p ++ q) ts := by
  obtain ⟨refusal, hplain⟩ := hq
  refine ⟨refusal, ?_⟩
  show (p ts).andThen _ = _
  rw [hp]
  show (q rest).map _ = _
  rw [hplain]
  rfl

/-- Names are read back from the nodes. -/
theorem node {r : Rule} (hp : Refuses p ts) : Refuses (Reader.node r p) ts := by
  obtain ⟨refusal, hplain⟩ := hp
  refine ⟨refusal, ?_⟩
  rw [Reader.node, hplain]
  rfl

/-- A choice is refused if both ways are, neither of them for good. -/
theorem orElse (hp : Refuses p ts) (hq : Refuses q ts) : Refuses (Reader.orElse p q) ts := by
  obtain ⟨refusal, hplain⟩ := hp
  obtain ⟨other, hother⟩ := hq
  refine ⟨other, ?_⟩
  rw [Reader.orElse, hplain]
  exact hother

end Refuses

/-! ## Complete readers -/

/-- Before a token that satisfies `F`, the reader accepts every derivation of the phrase with fewer than
`n` tokens, and the yield determines the derivation. The bound serves types, which nest. -/
structure Reads (source : List Char) (n : Nat) (read : Reader) (e : Phrase) (F : Lookahead) :
    Prop where
  complete : ∀ (d : Derivation e) (rest : List Token), d.yield.length < n → F rest.head? →
    read (d.yield ++ rest) = .ok (d.trees source) rest
  unique : ∀ (d d' : Derivation e) (rest : List Token), d.yield.length < n → F rest.head? →
    d.yield = d'.yield → d = d'

namespace Reads

variable {source : List Char} {n : Nat} {p q : Reader} {e f : Phrase} {F G : Lookahead}
  {test : Token → Bool}

/-- Where the bound does not matter, every derivation is accepted. -/
theorem accepts (h : ∀ n, Reads source n p e F) (d : Derivation e) (rest : List Token)
    (hF : F rest.head?) : p (d.yield ++ rest) = .ok (d.trees source) rest :=
  (h (d.yield.length + 1)).complete d rest (Nat.lt_succ_self _) hF

/-- More may be asked of the next token. -/
theorem mono (h : Reads source n p e G) (strengthen : ∀ next, F next → G next) :
    Reads source n p e F where
  complete d rest hlen hF := h.complete d rest hlen (strengthen _ hF)
  unique d d' rest hlen hF := h.unique d d' rest hlen (strengthen _ hF)

/-- A token of the class is read, whatever follows it. -/
theorem token {expected : Option Expectation} :
    Reads source n (Reader.token test expected) (.terminal test) anything where
  complete d rest _ _ := by
    obtain ⟨t, ht, rfl⟩ := d.exists_token
    show Reader.token test expected (t :: rest) = _
    rw [Reader.token, if_pos ht]
    rfl
  unique d d' rest _ _ hyield := by
    obtain ⟨t, ht, rfl⟩ := d.exists_token
    obtain ⟨t', ht', rfl⟩ := d'.exists_token
    cases hyield
    rfl

theorem mark (text : String) : Reads source n (Reader.mark text) (.mark text) anything := token

theorem expectMark (text : String) (expected : Expectation) :
    Reads source n (Reader.expectMark text expected) (.mark text) anything := token

theorem keyword (kind : TokenKind) : Reads source n (Reader.keyword kind) (.kind kind) anything :=
  token

theorem identifier : Reads source n Reader.identifier .ident anything := token

theorem semicolon : Reads source n Reader.semicolon (.mark ";") anything := token

/-- Two derivations of a first part leave the same tokens, so a sequence splits in one way only. -/
theorem split (hp : Reads source n p e G) (a a' : Derivation e) (rest rest' : List Token)
    (hlen : a.yield.length < n) (hlen' : a'.yield.length < n) (hG : G rest.head?)
    (hG' : G rest'.head?) (hyield : a.yield ++ rest = a'.yield ++ rest') :
    a.yield = a'.yield ∧ rest = rest' := by
  -- Both are read from the same tokens, and a reader gives one outcome.
  have hread := hp.complete a rest hlen hG
  rw [hyield, hp.complete a' rest' hlen' hG'] at hread
  injection hread with _ hrest
  subst hrest
  exact ⟨List.append_cancel_right hyield, rfl⟩

/-- Where the bound does not matter, a derivation is told from what stands behind it. -/
theorem separates (h : ∀ n, Reads source n p e F) {a a' : Derivation e} {rest rest' : List Token}
    (hF : F rest.head?) (hF' : F rest'.head?) (hyield : a.yield ++ rest = a'.yield ++ rest') :
    a = a' ∧ rest = rest' := by
  have reads := h (a.yield.length + a'.yield.length + 1)
  have hsplit := reads.split a a' rest rest' (by omega) (by omega) hF hF' hyield
  exact ⟨reads.unique a a' rest (by omega) hF hsplit.1, hsplit.2⟩

/-- One phrase behind another, when `m` bounds what the first leaves to the second. -/
theorem append_within {m : Nat} (hp : Reads source n p e G) (hq : Reads source m q f F)
    (fits : ∀ (a : Derivation e) (k : Nat), a.yield.length + k < n → k < m) (next : Leads f F G) :
    Reads source n (p ++ q) (e ++ f) F where
  complete d rest hlen hF := by
    obtain ⟨a, b, rfl⟩ := d.exists_seq
    change (a.yield ++ b.yield).length < n at hlen
    rw [List.length_append] at hlen
    show (p ((a.yield ++ b.yield) ++ rest)).andThen _ = _
    rw [List.append_assoc, hp.complete a _ (by omega) (next b rest hF)]
    show (q (b.yield ++ rest)).map _ = _
    rw [hq.complete b rest (fits a _ hlen) hF]
    rfl
  unique d d' rest hlen hF hyield := by
    obtain ⟨a, b, rfl⟩ := d.exists_seq
    obtain ⟨a', b', rfl⟩ := d'.exists_seq
    change a.yield ++ b.yield = a'.yield ++ b'.yield at hyield
    have hlen' : (a'.yield ++ b'.yield).length < n := by rw [← hyield]; exact hlen
    change (a.yield ++ b.yield).length < n at hlen
    rw [List.length_append] at hlen hlen'
    have hsplit := hp.split a a' (b.yield ++ rest) (b'.yield ++ rest) (by omega) (by omega)
      (next b rest hF) (next b' rest hF)
      (by rw [← List.append_assoc, hyield, List.append_assoc])
    have hb := List.append_cancel_right hsplit.2
    rw [hp.unique a a' _ (by omega) (next b rest hF) hsplit.1,
      hq.unique b b' rest (fits a _ hlen) hF hb]

/-- Behind the first part comes the second one, so the condition on the first part is what the second
one leads to. -/
theorem append (hp : Reads source n p e G) (hq : Reads source n q f F) (next : Leads f F G) :
    Reads source n (p ++ q) (e ++ f) F :=
  append_within hp hq (fun _ _ hlen => by omega) next

/-- One phrase behind another that ends on its own. -/
theorem append_any (hp : Reads source n p e anything) (hq : Reads source n q f F) :
    Reads source n (p ++ q) (e ++ f) F :=
  append hp hq fun _ _ _ => trivial

/-- Behind a first token a sequence has at least one token less to read. -/
theorem append_shorter {first : Token → Bool} (hp : Reads source (n + 1) p e G)
    (hq : Reads source n q f F) (starts : Starts e first) (next : Leads f F G) :
    Reads source (n + 1) (p ++ q) (e ++ f) F := by
  refine append_within hp hq ?_ next
  intro a k hlen
  have hpos := List.length_pos_iff.mpr (starts.yield_ne_nil a)
  omega

theorem node {r : Rule} (hp : Reads source n p (.production r) F) :
    Reads source n (Reader.node r p) (.rule r) F where
  complete d rest hlen hF := by
    obtain ⟨a, rfl⟩ := d.exists_rule
    show (p (a.yield ++ rest)).map _ = _
    rw [hp.complete a rest hlen hF]
    rfl
  unique d d' rest hlen hF hyield := by
    obtain ⟨a, rfl⟩ := d.exists_rule
    obtain ⟨a', rfl⟩ := d'.exists_rule
    rw [hp.unique a a' rest hlen hF hyield]

/-- Two alternatives that one reader reads, told apart by their first tokens. -/
theorem alt {first second : Token → Bool} (he : Reads source n p e F) (hf : Reads source n p f F)
    (left : Starts e first) (right : Starts f second)
    (apart : ∀ t, first t = true → second t = false) : Reads source n p (e ||| f) F where
  complete d rest hlen hF := by
    rcases d.left_or_right with ⟨a, rfl⟩ | ⟨b, rfl⟩
    · exact he.complete a rest hlen hF
    · exact hf.complete b rest hlen hF
  unique d d' rest hlen hF hyield := by
    refine Derivation.alt_unique hyield ?_ ?_ ?_
    · intro a a' ha
      exact he.unique a a' rest (by rw [ha]; exact hlen) hF
    · intro b b' hb
      exact hf.unique b b' rest (by rw [hb]; exact hlen) hF
    · intro a b _ hab
      obtain ⟨t, hnext, ht⟩ := (Option.any_eq_true _ _).mp (left a rest trivial)
      have hother := right b rest trivial
      rw [← hab, isNext, hnext] at hother
      exact Bool.noConfusion ((apart t ht).symm.trans hother)

/-- A choice by the next token, where every derivation begins with one that chooses `p`. -/
theorem byNext {choose : Option Token → Reader} (hp : Reads source n p e F)
    (chosen : Leads e F fun next => choose next = p) :
    Reads source n (Reader.byNext choose) e F where
  complete d rest hlen hF := by
    show choose (d.yield ++ rest).head? (d.yield ++ rest) = _
    rw [chosen d rest hF]
    exact hp.complete d rest hlen hF
  unique := hp.unique

/-- A part that may be left out, when the reader decides by the next token. -/
theorem opt {choose : Option Token → Reader} {P : Lookahead} {first : Token → Bool}
    (hp : Reads source n p e F) (starts : Starts e first)
    (chosen : ∀ t, first t = true → choose (some t) = p)
    (skipped : ∀ next, P next → choose next = nothing) :
    Reads source n (Reader.byNext choose) (.opt e) fun next => F next ∧ P next where
  complete d rest hlen hF := by
    rcases d.none_or_some with rfl | ⟨a, rfl⟩
    · show choose rest.head? rest = _
      rw [skipped _ hF.2]
      rfl
    · exact (byNext hp (starts.of_starts chosen)).complete a rest hlen hF.1
  unique d d' rest hlen hF hyield := by
    refine Derivation.opt_unique hyield starts.yield_ne_nil ?_
    intro a a' ha
    exact hp.unique a a' rest (by rw [ha]; exact hlen) hF.1

/-- What is optional is left out only if its first token does not come next, and must not seem to follow
then. -/
theorem ifNext (hp : Reads source n p e F) (starts : Starts e test) :
    Reads source n (Reader.ifNext test p) (.opt e) fun next => F next ∧ notNext test next := by
  refine opt hp starts ?_ ?_
  · intro t ht
    exact if_pos ht
  · intro next hnext
    exact if_neg (Bool.eq_false_iff.mp hnext)

/-- A single token that may be left out. -/
theorem optToken {expected : Option Expectation} :
    Reads source n (Reader.ifNext test (Reader.token test expected)) (.opt (.terminal test))
      (notNext test) :=
  (ifNext token Leads.starts_terminal).mono fun _ hnext => ⟨trivial, hnext⟩

/-- A part that is left out where a closing token comes next. -/
theorem unlessNext {stop : Option Token → Bool} {first : Token → Bool} (hp : Reads source n p e F)
    (starts : Starts e first) (apart : ∀ t, first t = true → stop (some t) = false) :
    Reads source n (Reader.byNext fun next => if stop next then nothing else p) (.opt e)
      fun next => F next ∧ stop next = true := by
  refine opt hp starts ?_ ?_
  · intro t ht
    exact if_neg (Bool.eq_false_iff.mp (apart t ht))
  · intro next hnext
    exact if_pos hnext

/-- A repetition goes on exactly as long as an item can come, so the first token behind it must not look
like one. -/
theorem whileNext {goOn : Option Token → Bool} {first : Token → Bool} (hp : Reads source n p e F)
    (starts : Starts e first) (goes : ∀ t, first t = true → goOn (some t) = true ∧ F (some t)) :
    Reads source n (Reader.whileNext goOn p) (.many e)
      fun next => F next ∧ goOn next = false := by
  -- Behind an item comes another one or the end, and either way what `F` asks for.
  have before : Leads (.many e) (fun next => F next ∧ goOn next = false) F :=
    Leads.many (starts.of_starts fun t ht => (goes t ht).2) fun _ hF => hF.1
  constructor
  · intro d rest hlen hF
    induction d using Derivation.many_induction with
    | nil =>
        rw [Reader.whileNext, if_neg]
        · rfl
        · rw [Bool.not_eq_true]
          exact hF.2
    | cons a more ih =>
        have hpos := List.length_pos_iff.mpr (starts.yield_ne_nil a)
        have hgo : goOn (a.yield ++ (more.yield ++ rest)).head? = true :=
          starts.of_starts (F := anything) (G := fun next => goOn next = true)
            (fun t ht => (goes t ht).1) a _ trivial
        change (a.yield ++ more.yield).length < n at hlen
        rw [List.length_append] at hlen
        show Reader.whileNext goOn p ((a.yield ++ more.yield) ++ rest) = _
        rw [List.append_assoc, Reader.whileNext, if_pos hgo,
          hp.complete a _ (by omega) (before more rest hF)]
        have hshort : (more.yield ++ rest).length < (a.yield ++ (more.yield ++ rest)).length := by
          simp only [List.length_append]
          omega
        simp only [if_pos hshort, ih (by omega)]
        rfl
  · intro d d' rest hlen hF
    induction d using Derivation.many_induction generalizing d' with
    | nil =>
        intro hyield
        cases d' with
        | nil => rfl
        | cons a' more' =>
            have hnil := List.append_eq_nil_iff.mp hyield.symm
            exact absurd hnil.1 (starts.yield_ne_nil a')
    | cons a more ih =>
        intro hyield
        cases d' with
        | nil => exact absurd (List.append_eq_nil_iff.mp hyield).1 (starts.yield_ne_nil a)
        | cons a' more' =>
            change a.yield ++ more.yield = a'.yield ++ more'.yield at hyield
            have hlen' : (a'.yield ++ more'.yield).length < n := by rw [← hyield]; exact hlen
            change (a.yield ++ more.yield).length < n at hlen
            rw [List.length_append] at hlen hlen'
            have hsplit := hp.split a a' (more.yield ++ rest) (more'.yield ++ rest) (by omega)
              (by omega) (before more rest hF) (before more' rest hF)
              (by rw [← List.append_assoc, hyield, List.append_assoc])
            have hmore := List.append_cancel_right hsplit.2
            rw [hp.unique a a' _ (by omega) (before more rest hF) hsplit.1,
              ih more' (by omega) hmore]

/-- What is accepted stays so if refusals become final. -/
theorem committed (hp : Reads source n p e F) : Reads source n (Reader.committed p) e F where
  complete d rest hlen hF := by
    unfold Reader.committed
    rw [hp.complete d rest hlen hF]
  unique := hp.unique

/-- An ordered choice, when the first alternative refuses whatever the second derives without having
committed itself. -/
theorem orElse (hp : Reads source n p e F) (hq : Reads source n q f F)
    (refuses : ∀ (d : Derivation f) (rest : List Token), d.yield.length < n → F rest.head? →
      Refuses p (d.yield ++ rest)) :
    Reads source n (Reader.orElse p q) (e ||| f) F where
  complete d rest hlen hF := by
    unfold Reader.orElse
    rcases d.left_or_right with ⟨a, rfl⟩ | ⟨b, rfl⟩
    · simp only [Derivation.yield, hp.complete a rest hlen hF]
      rfl
    · obtain ⟨refusal, hplain⟩ := refuses b rest hlen hF
      simp only [Derivation.yield, hplain]
      exact hq.complete b rest hlen hF
  unique d d' rest hlen hF hyield := by
    refine Derivation.alt_unique hyield ?_ ?_ ?_
    · intro a a' ha
      exact hp.unique a a' rest (by rw [ha]; exact hlen) hF
    · intro b b' hb
      exact hq.unique b b' rest (by rw [hb]; exact hlen) hF
    · -- A list that both alternatives derive would be accepted and refused at once.
      intro a b ha hab
      rw [← ha] at hlen
      obtain ⟨refusal, hplain⟩ := refuses b rest (by rw [← hab]; exact hlen) hF
      rw [← hab, hp.complete a rest hlen hF] at hplain
      exact Outcome.noConfusion hplain

/-- A part that is left out where its reader refuses at its first token. -/
theorem attempt {P : Lookahead} {first : Token → Bool} (hp : Reads source n p e F)
    (starts : Starts e first)
    (refuses : ∀ ts, P ts.head? → Refuses p ts) :
    Reads source n (Reader.attempt p) (.opt e) fun next => F next ∧ P next where
  complete d rest hlen hF := by
    unfold Reader.attempt Reader.orElse
    rcases d.none_or_some with rfl | ⟨a, rfl⟩
    · obtain ⟨refusal, hplain⟩ := refuses rest hF.2
      simp only [Derivation.yield, List.nil_append, hplain]
      rfl
    · simp only [Derivation.yield, hp.complete a rest hlen hF.1]
      rfl
  unique d d' rest hlen hF hyield := by
    refine Derivation.opt_unique hyield starts.yield_ne_nil ?_
    intro a a' ha
    exact hp.unique a a' rest (by rw [ha]; exact hlen) hF.1

end Reads

/-! ## Regrouping -/

/-- Reading one thing after another does not depend on how the sequence is grouped. -/
theorem Reader.append_assoc (p q r : Reader) : p ++ q ++ r = p ++ (q ++ r) := by
  funext ts
  show ((p ts).andThen fun first rest => (q rest).map (first ++ ·)).andThen
      (fun first rest => (r rest).map (first ++ ·)) =
    (p ts).andThen fun first rest =>
      ((q rest).andThen fun second rest => (r rest).map (second ++ ·)).map (first ++ ·)
  cases p ts with
  | plain refusal => rfl
  | final refusal => rfl
  | ok first rest =>
      show ((q rest).map (first ++ ·)).andThen _ = ((q rest).andThen _).map _
      cases q rest with
      | plain refusal => rfl
      | final refusal => rfl
      | ok second rest =>
          show (r rest).map _ = ((r rest).map _).map _
          cases r rest with
          | plain refusal => rfl
          | final refusal => rfl
          | ok third rest => exact congrArg (Outcome.ok · rest) (List.append_assoc _ _ _)

/-- Two phrases with the same derivations up to grouping: they correspond one to one, and yields and
trees are the same. -/
structure Alike (e f : Phrase) where
  forth : Derivation e → Derivation f
  back : Derivation f → Derivation e
  back_forth : ∀ d, back (forth d) = d
  forth_back : ∀ d, forth (back d) = d
  yield_forth : ∀ d, (forth d).yield = d.yield
  trees_forth : ∀ source d, (forth d).trees source = d.trees source

namespace Alike

variable {source : List Char} {n : Nat} {p : Reader} {e f s : Phrase} {F : Lookahead}

/-- Trees of one phrase are trees of another that is derived alike. -/
theorem sound (alike : Alike e f) (hp : Sound source p f) : Sound source p e := by
  intro ts trees rest hread
  obtain ⟨d, rfl, rfl⟩ := hp ts trees rest hread
  refine ⟨alike.back d, ?_, ?_⟩
  · rw [← alike.yield_forth, alike.forth_back]
  · rw [← alike.trees_forth, alike.forth_back]

/-- A reader of one phrase reads another that is derived alike. -/
theorem reads (alike : Alike e f) (hp : Reads source n p f F) : Reads source n p e F where
  complete d rest hlen hF := by
    rw [← alike.yield_forth] at hlen ⊢
    rw [← alike.trees_forth]
    exact hp.complete _ rest hlen hF
  unique d d' rest hlen hF hyield := by
    rw [← alike.yield_forth] at hlen
    rw [← alike.yield_forth, ← alike.yield_forth d'] at hyield
    have hforth := hp.unique _ _ rest hlen hF hyield
    rw [← alike.back_forth d, hforth, alike.back_forth]

/-- `e | e f` is `e f?`. -/
def factor (e f : Phrase) : Alike (e ||| e ++ f) (e ++ .opt f) where
  forth
    | .left a => .seq a .none
    | .right (.seq a b) => .seq a (.some b)
  back
    | .seq a .none => .left a
    | .seq a (.some b) => .right (.seq a b)
  back_forth d := by
    rcases d.left_or_right with ⟨a, rfl⟩ | ⟨b, rfl⟩
    · rfl
    · obtain ⟨a, b, rfl⟩ := b.exists_seq
      rfl
  forth_back d := by
    obtain ⟨a, b, rfl⟩ := d.exists_seq
    rcases b.none_or_some with rfl | ⟨b, rfl⟩ <;> rfl
  yield_forth d := by
    rcases d.left_or_right with ⟨a, rfl⟩ | ⟨b, rfl⟩
    · exact List.append_nil _
    · obtain ⟨a, b, rfl⟩ := b.exists_seq
      rfl
  trees_forth source d := by
    rcases d.left_or_right with ⟨a, rfl⟩ | ⟨b, rfl⟩
    · exact List.append_nil _
    · obtain ⟨a, b, rfl⟩ := b.exists_seq
      rfl

/-- `e? f` is `e f | f`. -/
def expand (e f : Phrase) : Alike (.opt e ++ f) (e ++ f ||| f) where
  forth
    | .seq .none b => .right b
    | .seq (.some a) b => .left (.seq a b)
  back
    | .left (.seq a b) => .seq (.some a) b
    | .right b => .seq .none b
  back_forth d := by
    obtain ⟨a, b, rfl⟩ := d.exists_seq
    rcases a.none_or_some with rfl | ⟨a, rfl⟩ <;> rfl
  forth_back d := by
    rcases d.left_or_right with ⟨a, rfl⟩ | ⟨b, rfl⟩
    · obtain ⟨a, b, rfl⟩ := a.exists_seq
      rfl
    · rfl
  yield_forth d := by
    obtain ⟨a, b, rfl⟩ := d.exists_seq
    rcases a.none_or_some with rfl | ⟨a, rfl⟩ <;> rfl
  trees_forth source d := by
    obtain ⟨a, b, rfl⟩ := d.exists_seq
    rcases a.none_or_some with rfl | ⟨a, rfl⟩ <;> rfl

/-- Moves the separators of a list from behind its items to before them. -/
def lead (last : Derivation e) :
    Derivation (.many (e ++ s)) → Derivation e × Derivation (.many (s ++ e))
  | .nil => (last, .nil)
  | .cons (.seq a c) more => (a, .cons (.seq c (lead last more).1) (lead last more).2)

/-- Moves the separators of a list from before its items to behind them. -/
def trail (first : Derivation e) :
    Derivation (.many (s ++ e)) → Derivation (.many (e ++ s)) × Derivation e
  | .nil => (.nil, first)
  | .cons (.seq c a) more => (.cons (.seq first c) (trail a more).1, (trail a more).2)

/-- Moving separators to the front and back again changes nothing. -/
theorem trail_lead (last : Derivation e) (items : Derivation (.many (e ++ s))) :
    trail (lead last items).1 (lead last items).2 = (items, last) := by
  induction items using Derivation.many_induction with
  | nil => simp only [lead, trail]
  | cons a more ih =>
      obtain ⟨a, c, rfl⟩ := a.exists_seq
      simp only [lead, trail, ih]

theorem lead_trail (first : Derivation e) (items : Derivation (.many (s ++ e))) :
    lead (trail first items).2 (trail first items).1 = (first, items) := by
  induction items using Derivation.many_induction generalizing first with
  | nil => simp only [lead, trail]
  | cons a more ih =>
      obtain ⟨c, a, rfl⟩ := a.exists_seq
      simp only [lead, trail, ih]

/-- Moving separators keeps the tokens in their order. -/
theorem yield_lead (last : Derivation e) (items : Derivation (.many (e ++ s))) :
    (lead last items).1.yield ++ (lead last items).2.yield = items.yield ++ last.yield := by
  induction items using Derivation.many_induction with
  | nil => simp only [lead, Derivation.yield, List.append_nil, List.nil_append]
  | cons a more ih =>
      obtain ⟨a, c, rfl⟩ := a.exists_seq
      simp only [lead, Derivation.yield, List.append_assoc, ih]

/-- It keeps the trees in their order, too. -/
theorem trees_lead (source : List Char) (last : Derivation e) (items : Derivation (.many (e ++ s))) :
    (lead last items).1.trees source ++ (lead last items).2.trees source =
      items.trees source ++ last.trees source := by
  induction items using Derivation.many_induction with
  | nil => simp only [lead, Derivation.trees, List.append_nil, List.nil_append]
  | cons a more ih =>
      obtain ⟨a, c, rfl⟩ := a.exists_seq
      simp only [lead, Derivation.trees, List.append_assoc, ih]

/-- `(e s)* e` is `e (s e)*`. -/
def separated (e s : Phrase) : Alike (.many (e ++ s) ++ e) (e ++ .many (s ++ e)) where
  forth | .seq items last => .seq (lead last items).1 (lead last items).2
  back | .seq first items => .seq (trail first items).1 (trail first items).2
  back_forth d := by
    obtain ⟨items, last, rfl⟩ := d.exists_seq
    simp only [trail_lead]
  forth_back d := by
    obtain ⟨first, items, rfl⟩ := d.exists_seq
    simp only [lead_trail]
  yield_forth d := by
    obtain ⟨items, last, rfl⟩ := d.exists_seq
    exact yield_lead last items
  trees_forth source d := by
    obtain ⟨items, last, rfl⟩ := d.exists_seq
    exact trees_lead source last items

end Alike

end ClassChart.Grammar
