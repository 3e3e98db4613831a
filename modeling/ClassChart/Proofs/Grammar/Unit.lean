/-
# ClassChart.Proofs.Grammar.Unit — units are read exactly as the grammar has them

The rules from enum values up to the unit, and the main result: `buildTree` accepts a token list exactly
when the grammar derives a unit from it, the tree it gives is the derivation, and there is only one.
Nothing is assumed about the tokens, so this holds in particular of those that were read from the source.
-/
import ClassChart.Proofs.Grammar.Member

namespace ClassChart.Grammar

open Reader

variable {source : List Char} {n : Nat}

/-! ## Enums -/

/-- Whether an enum value may consist of the token behind `=`. -/
def isEnumNumber (t : Token) : Bool := t.isKind .integerLiteral || t.isKind .numberLiteral

theorem enumValue_starts : Starts (.rule .enumValue) (·.isKind .identifier) :=
  Leads.rule (Leads.append_left Leads.starts_terminal)

theorem enumValue_sound : Sound source enumValue (.rule .enumValue) :=
  Sound.node (Sound.token.append (Sound.ifNext (Sound.token.append Sound.token)))

/-- A value without a number must not be followed by `=`. -/
theorem enumValue_reads : Reads source n enumValue (.rule .enumValue) (notNext (·.isMark "=")) := by
  have number : Reads source n
      (ifNext (·.isMark "=") (mark "=" ++ token isEnumNumber (some .enumNumber)))
      (.opt (.mark "=" ++ .terminal isEnumNumber)) (notNext (·.isMark "=")) :=
    (Reads.ifNext (Reads.append_any (Reads.mark "=") Reads.token)
      (Leads.append_left Leads.starts_terminal)).mono (by grind)
  exact Reads.node (Reads.append_any Reads.identifier number)

/-- The enum ends here. -/
def endsEnum (next : Option Token) : Prop := isNext (·.isMark "\x7d") next

theorem optionalEnumValue_sound : Sound source optionalEnumValue (.opt (.rule .enumValue)) := by
  refine Sound.byNext fun next => ?_
  split
  · exact Sound.nothing_opt
  · exact enumValue_sound.some

/-- A value is left out exactly where the enum ends. -/
theorem optionalEnumValue_reads :
    Reads source n optionalEnumValue (.opt (.rule .enumValue)) endsEnum := by
  refine (Reads.unlessNext enumValue_reads enumValue_starts (by grind)).mono ?_
  intro next hnext
  cases next <;> grind [endsEnum]

-- The rule groups values with the commas behind them, and a comma may also be the last token. The
-- reader takes commas with the values behind them, so it is compared with the rule by hand.

/-- The part of an enum behind its first value. -/
def enumTail : Reader := whileNext (nextIsMark ",") (mark "," ++ optionalEnumValue)

/-- Where the enum ends, the list of values does. -/
theorem enumTail_stops {ts : List Token} (hend : endsEnum ts.head?) : enumTail ts = .ok [] ts := by
  have hstop : nextIsMark "," ts.head? = false := by
    cases hnext : ts.head? <;> grind [endsEnum]
  rw [enumTail, Reader.whileNext, if_neg (Bool.eq_false_iff.mp hstop)]

/-- Where an optional value is left out, the enum ends. -/
theorem optionalEnumValue_ok {ts rest : List Token} {trees : List Tree}
    (hread : optionalEnumValue ts = .ok trees rest) :
    (endsEnum ts.head? ∧ trees = [] ∧ rest = ts) ∨ enumValue ts = .ok trees rest := by
  by_cases hend : nextIsMark "\x7d" ts.head? = true
  · refine Or.inl ⟨hend, ?_⟩
    rw [optionalEnumValue, Reader.byNext, if_pos hend] at hread
    cases hread
    exact ⟨rfl, rfl⟩
  · rw [optionalEnumValue, Reader.byNext, if_neg hend] at hread
    exact Or.inr hread

/-- What is read behind a value, together with that value, is a list of values. -/
theorem enumTail_sound (v : Derivation (.rule .enumValue)) {ts rest : List Token} {trees : List Tree}
    (hread : enumTail ts = .ok trees rest) :
    ∃ d : Derivation (.production .enumBody),
      v.yield ++ ts = d.yield ++ rest ∧ v.trees source ++ trees = d.trees source := by
  have values : Sound source enumValue (.rule .enumValue) := enumValue_sound
  have commas : Sound source (mark ",") (.mark ",") := Sound.token
  unfold enumTail at hread
  fun_induction Reader.whileNext (nextIsMark ",") (mark "," ++ optionalEnumValue) ts
    generalizing v trees rest with
  | case1 ts _ found after hitem _ ih =>
      obtain ⟨others, hmore, rfl⟩ := Outcome.map_eq_ok hread
      obtain ⟨comma, behind, value, hcomma, hvalue, rfl⟩ := Reader.append_eq_ok hitem
      obtain ⟨c, rfl, rfl⟩ := commas ts comma behind hcomma
      rcases optionalEnumValue_ok hvalue with ⟨hend, rfl, rfl⟩ | hvalue
      · -- The comma was the last token of the enum.
        obtain ⟨rfl, rfl⟩ := Outcome.ok.inj (hmore.symm.trans (enumTail_stops hend))
        refine ⟨.seq (.cons (.seq v c) .nil) .none, ?_, ?_⟩ <;>
          simp only [Derivation.yield, Derivation.trees, List.append_assoc, List.append_nil]
      · obtain ⟨w, rfl, rfl⟩ := values behind value after hvalue
        obtain ⟨d, hyield, htrees⟩ := ih w hmore
        obtain ⟨items, last, rfl⟩ := d.exists_seq
        refine ⟨.seq (.cons (.seq v c) items) last, ?_, ?_⟩
        · simp only [Derivation.yield, List.append_assoc] at hyield ⊢
          rw [hyield]
        · simp only [Derivation.trees, List.append_assoc] at htrees ⊢
          rw [htrees]
  | case2 ts _ found after hitem hshort =>
      have comma : Starts (.mark "," ++ .opt (.rule .enumValue)) (·.isMark ",") :=
        Leads.append_left Leads.starts_terminal
      obtain ⟨a, rfl, _⟩ := (commas.append optionalEnumValue_sound) ts _ _ hitem
      have hlong := List.length_pos_iff.mpr (comma.yield_ne_nil a)
      rw [List.length_append] at hshort
      omega
  | case3 => exact Outcome.noConfusion hread
  | case4 => exact Outcome.noConfusion hread
  | case5 ts _ =>
      cases hread
      refine ⟨.seq .nil (.some v), rfl, ?_⟩
      simp only [Derivation.trees, List.nil_append, List.append_nil]

/-- The reader takes commas before values and the grammar puts them behind, so its values are laid out
anew. -/
theorem enumBody_sound : Sound source enumBody (.rule .enumBody) := by
  refine Sound.node (Sound.byNext fun next => ?_)
  split
  · intro ts trees rest hread
    cases hread
    exact ⟨.seq .nil .none, rfl, rfl⟩
  · intro ts trees rest hread
    obtain ⟨first, behind, others, hfirst, hmore, rfl⟩ := Reader.append_eq_ok hread
    have values : Sound source enumValue (.rule .enumValue) := enumValue_sound
    obtain ⟨v, rfl, rfl⟩ := values ts first behind hfirst
    exact enumTail_sound v hmore

/-- A comma and what may follow it, before the rest of the enum. -/
theorem enumTail_step (source : List Char) (c : Derivation (.mark ",")) {ts after rest : List Token}
    {found others : List Tree} (hitem : optionalEnumValue ts = .ok found after)
    (hlen : after.length ≤ ts.length) (hmore : enumTail after = .ok others rest) :
    enumTail (c.yield ++ ts) = .ok (c.trees source ++ (found ++ others)) rest := by
  obtain ⟨t, ht, rfl⟩ := c.exists_token
  have hread : (mark "," ++ optionalEnumValue) (t :: ts) = .ok (.leaf t :: found) after := by
    show (mark "," (t :: ts)).andThen _ = _
    rw [mark, Reader.token, if_pos ht]
    show (optionalEnumValue ts).map _ = _
    rw [hitem]
    rfl
  have hnext : nextIsMark "," (t :: ts).head? = true := ht
  have hshort : after.length < (t :: ts).length := Nat.lt_succ_of_le hlen
  show enumTail (t :: ts) = _
  unfold enumTail at hmore ⊢
  rw [Reader.whileNext, if_pos hnext, hread]
  simp only [if_pos hshort, hmore]
  rfl

/-- A value that is there is read, also where it could be left out. -/
theorem optionalEnumValue_accepts (source : List Char) (v : Derivation (.rule .enumValue))
    (rest : List Token) (hrest : notNext (·.isMark "=") rest.head?) :
    optionalEnumValue (v.yield ++ rest) = .ok (v.trees source) rest := by
  have reads (n : Nat) : Reads source n optionalEnumValue (.rule .enumValue) (notNext (·.isMark "=")) :=
    Reads.byNext enumValue_reads (enumValue_starts.of_starts (by grind))
  exact Reads.accepts reads v rest hrest

theorem comma_lead : Leads (.mark ",") anything (notNext (·.isMark "=")) :=
  Leads.terminal (by grind)

/-- Behind a comma, further values are read to the end of the enum. -/
theorem enumTail_complete (source : List Char)
    (items : Derivation (.many (.rule .enumValue ++ .mark ",")))
    (last : Derivation (.opt (.rule .enumValue))) (c : Derivation (.mark ","))
    (rest : List Token) (hend : endsEnum rest.head?) :
    enumTail (c.yield ++ (items.yield ++ (last.yield ++ rest))) =
      .ok (c.trees source ++ (items.trees source ++ last.trees source)) rest := by
  induction items using Derivation.many_induction generalizing c with
  | nil =>
      have hlast : optionalEnumValue (last.yield ++ rest) = .ok (last.trees source) rest :=
        Reads.accepts (fun _ => optionalEnumValue_reads) last rest hend
      have hlen : rest.length ≤ (last.yield ++ rest).length := by
        rw [List.length_append]
        omega
      have hread := enumTail_step source c hlast hlen (enumTail_stops hend)
      rw [List.append_nil] at hread
      exact hread
  | cons a more ih =>
      obtain ⟨v, c', rfl⟩ := a.exists_seq
      have hvalue := optionalEnumValue_accepts source v
        (c'.yield ++ (more.yield ++ (last.yield ++ rest))) (comma_lead c' _ trivial)
      have hread := enumTail_step source c hvalue (List.suffix_append _ _).length_le (ih c')
      simp only [Derivation.yield, Derivation.trees, List.append_assoc]
      exact hread

/-- The values of an enum, before they are put under a node. -/
def enumValues : Reader :=
  byNext fun next => if nextIsMark "\x7d" next then nothing else enumValue ++ enumTail

/-- An enum that begins with a value is read from that value on. -/
theorem enumValues_value (source : List Char) (v : Derivation (.rule .enumValue)) {ts rest : List Token}
    {others : List Tree} (hts : notNext (·.isMark "=") ts.head?)
    (hmore : enumTail ts = .ok others rest) :
    enumValues (v.yield ++ ts) = .ok (v.trees source ++ others) rest := by
  have hgo : nextIsMark "\x7d" (v.yield ++ ts).head? = false :=
    enumValue_starts.of_starts (F := anything) (G := fun next => nextIsMark "\x7d" next = false)
      (by grind) v ts trivial
  have hvalue : enumValue (v.yield ++ ts) = .ok (v.trees source) ts :=
    Reads.accepts (fun _ => enumValue_reads) v ts hts
  rw [enumValues, Reader.byNext, if_neg (Bool.eq_false_iff.mp hgo)]
  show (enumValue (v.yield ++ ts)).andThen _ = _
  rw [hvalue]
  show (enumTail ts).map _ = _
  rw [hmore]
  rfl

/-- The values of an enum are read in order, with or without a comma behind the last one. -/
theorem enumValues_complete (items : Derivation (.many (.rule .enumValue ++ .mark ",")))
    (last : Derivation (.opt (.rule .enumValue))) (rest : List Token) (hend : endsEnum rest.head?) :
    enumValues (items.yield ++ (last.yield ++ rest)) =
      .ok (items.trees source ++ last.trees source) rest := by
  cases items with
  | nil =>
      rcases last.none_or_some with rfl | ⟨v, rfl⟩
      · have hstop : nextIsMark "\x7d" rest.head? = true := hend
        show enumValues rest = _
        rw [enumValues, Reader.byNext, if_pos hstop]
        rfl
      · have hrest : notNext (·.isMark "=") rest.head? := by
          cases hnext : rest.head? <;> grind [endsEnum]
        have hread := enumValues_value source v hrest (enumTail_stops hend)
        rw [List.append_nil] at hread
        exact hread
  | cons a more =>
      obtain ⟨v, c, rfl⟩ := a.exists_seq
      have hread := enumValues_value source v (comma_lead c _ trivial)
        (enumTail_complete source more last c rest hend)
      simp only [Derivation.yield, Derivation.trees, List.append_assoc]
      exact hread

theorem notNext_nil (test : Token → Bool) : notNext test ([] : List Token).head? := rfl

/-- Two values that begin the same tokens are one value, if neither is followed by `=`. -/
theorem enumValue_separates {v v' : Derivation (.rule .enumValue)} {ts ts' : List Token}
    (hts : notNext (·.isMark "=") ts.head?) (hts' : notNext (·.isMark "=") ts'.head?)
    (hyield : v.yield ++ ts = v'.yield ++ ts') : v = v' ∧ ts = ts' := by
  have reads (n : Nat) : Reads [] n enumValue (.rule .enumValue) (notNext (·.isMark "=")) :=
    enumValue_reads
  exact Reads.separates reads hts hts' hyield

/-- A value with a comma behind it is not the last. -/
theorem lastValue_ne (last : Derivation (.opt (.rule .enumValue))) (v : Derivation (.rule .enumValue))
    (c : Derivation (.mark ",")) (ts : List Token) : last.yield ≠ v.yield ++ (c.yield ++ ts) := by
  intro hyield
  rcases last.none_or_some with rfl | ⟨w, rfl⟩
  · exact enumValue_starts.yield_ne_nil v (List.append_eq_nil_iff.mp hyield.symm).1
  · have hnil : w.yield ++ [] = v.yield ++ (c.yield ++ ts) := by
      rw [List.append_nil]
      exact hyield
    have hsplit := enumValue_separates (notNext_nil _) (comma_lead c ts trivial) hnil
    have comma : Starts (.mark ",") (·.isMark ",") := Leads.starts_terminal
    exact comma.yield_ne_nil c (List.append_eq_nil_iff.mp hsplit.2.symm).1

/-- Values with commas behind them are told apart one by one, from the first on. -/
theorem enumValues_unique (items items' : Derivation (.many (.rule .enumValue ++ .mark ",")))
    (last last' : Derivation (.opt (.rule .enumValue)))
    (hyield : items.yield ++ last.yield = items'.yield ++ last'.yield) :
    items = items' ∧ last = last' := by
  induction items using Derivation.many_induction generalizing items' with
  | nil =>
      cases items' with
      | nil =>
          refine ⟨rfl, Derivation.opt_unique hyield enumValue_starts.yield_ne_nil ?_⟩
          intro v v' _ hvalue
          have hnil : v.yield ++ [] = v'.yield ++ [] := by rw [hvalue]
          exact (enumValue_separates (notNext_nil _) (notNext_nil _) hnil).1
      | cons a' more' =>
          obtain ⟨v', c', rfl⟩ := a'.exists_seq
          simp only [Derivation.yield, List.append_assoc, List.nil_append] at hyield
          exact absurd hyield (lastValue_ne last v' c' _)
  | cons a more ih =>
      obtain ⟨v, c, rfl⟩ := a.exists_seq
      cases items' with
      | nil =>
          simp only [Derivation.yield, List.append_assoc, List.nil_append] at hyield
          exact absurd hyield.symm (lastValue_ne last' v c _)
      | cons a' more' =>
          obtain ⟨v', c', rfl⟩ := a'.exists_seq
          simp only [Derivation.yield, List.append_assoc] at hyield
          obtain ⟨rfl, hrest⟩ :=
            enumValue_separates (comma_lead c _ trivial) (comma_lead c' _ trivial) hyield
          have commas (n : Nat) : Reads [] n (mark ",") (.mark ",") anything := Reads.mark ","
          obtain ⟨rfl, hmore⟩ := Reads.separates commas trivial trivial hrest
          obtain ⟨rfl, rfl⟩ := ih more' hmore
          exact ⟨rfl, rfl⟩

/-- The reader gives the values of an enum, and they are told from the tokens alone. -/
theorem enumBody_reads : Reads source n enumBody (.rule .enumBody) endsEnum where
  complete d rest _ hend := by
    obtain ⟨a, rfl⟩ := d.exists_rule
    obtain ⟨items, last, rfl⟩ := a.exists_seq
    show (enumValues ((items.yield ++ last.yield) ++ rest)).map _ = _
    rw [List.append_assoc, enumValues_complete items last rest hend]
    rfl
  unique d d' _ _ _ hyield := by
    obtain ⟨a, rfl⟩ := d.exists_rule
    obtain ⟨items, last, rfl⟩ := a.exists_seq
    obtain ⟨a', rfl⟩ := d'.exists_rule
    obtain ⟨items', last', rfl⟩ := a'.exists_seq
    obtain ⟨rfl, rfl⟩ := enumValues_unique items items' last last' hyield
    rfl

/-- The part of an enum declaration behind the keyword. -/
def enumRest : Reader :=
  identifier ++ ifNext (·.isMark ":") (mark ":" ++ identifier) ++ expectMark "\x7b" .enumBody
    ++ enumBody ++ expectMark "\x7d" .enumEnd ++ ifNext (·.isMark ";") (mark ";")

/-- The phrase for the part of an enum declaration behind the keyword. -/
def enumRestPhrase : Phrase :=
  .ident ++ .opt (.mark ":" ++ .ident) ++ .mark "\x7b" ++ .rule .enumBody ++ .mark "\x7d"
    ++ .opt (.mark ";")

theorem enumRest_sound : Sound source enumRest enumRestPhrase := by
  refine Sound.append (Sound.append (Sound.append (Sound.append ?_ Sound.token) enumBody_sound)
    Sound.token) (Sound.ifNext Sound.token)
  exact Sound.token.append (Sound.ifNext (Sound.token.append Sound.token))

/-- The semicolon behind an enum is optional, so another one must not follow. -/
theorem enumRest_reads : Reads source n enumRest enumRestPhrase (notNext (·.isMark ";")) := by
  have underlying : Reads source n (ifNext (·.isMark ":") (mark ":" ++ identifier))
      (.opt (.mark ":" ++ .ident)) (notNext (·.isMark ":")) :=
    (Reads.ifNext (Reads.append_any (Reads.mark ":") Reads.identifier)
      (Leads.append_left Leads.starts_terminal)).mono (by grind)
  have head := (Reads.append_any Reads.identifier underlying).append
    (Reads.expectMark "\x7b" .enumBody) (Leads.terminal (by grind))
  have values := (head.append_any enumBody_reads).append (Reads.expectMark "\x7d" .enumEnd)
    (Leads.terminal (by grind [endsEnum]))
  exact values.append_any Reads.optToken

theorem enumDecl_sound : Sound source enumDecl (.rule .enumDecl) :=
  Sound.node ((optionalModifier_sound.append Sound.token).append enumRest_sound.committed)

/-- An enum is read to its end, with the semicolon that may follow it. -/
theorem enumDecl_reads : Reads source n enumDecl (.rule .enumDecl) (notNext (·.isMark ";")) := by
  have keywords : Reads source n (optionalModifier ++ keyword .enumKeyword)
      (.opt (.rule .modifier) ++ .kind .enumKeyword) anything :=
    optionalModifier_reads.append (Reads.keyword .enumKeyword) (Leads.terminal (by grind))
  exact Reads.node (keywords.append_any enumRest_reads.committed)

/-! ## Classes -/

theorem baseList_starts : Starts (.rule .baseList) (·.isMark ":") :=
  Leads.rule (Leads.append_left (Leads.append_left Leads.starts_terminal))

theorem baseList_sound : Sound source baseList (.rule .baseList) :=
  Sound.node ((Sound.token.append typeName_sound).append
    (Sound.whileNext (Sound.token.append typeName_sound)))

/-- Behind a base list comes nothing that would go on with it. -/
def endsBases (next : Option Token) : Prop := endsType next ∧ nextIsMark "," next = false

/-- A base list ends where neither a comma nor more of its last type comes next. -/
theorem baseList_reads : Reads source n baseList (.rule .baseList) endsBases := by
  have comma : Starts (.mark "," ++ .rule .typeName) (·.isMark ",") :=
    Leads.append_left Leads.starts_terminal
  have others : Reads source n (whileNext (nextIsMark ",") (mark "," ++ typeName))
      (.many (.mark "," ++ .rule .typeName)) endsBases :=
    Reads.whileNext (Reads.append_any (Reads.mark ",") typeName_reads) comma (by grind [endsType])
  refine Reads.node ((Reads.append_any (Reads.mark ":") typeName_reads).append others ?_)
  exact Leads.many (comma.of_starts (by grind [endsType])) fun _ hnext => hnext.1

/-- Without a colon there is no base list. -/
theorem baseList_refuses (ts : List Token) (hts : notNext (·.isMark ":") ts.head?) :
    Refuses baseList ts :=
  Refuses.node (Refuses.append_first (Refuses.append_first (Refuses.token hts)))

/-- The part of a class declaration behind the keyword. -/
def classRest (source : List Char) : Reader :=
  identifier ++ attempt baseList ++ expectMark "\x7b" .classBody
    ++ whileNext (fun next => !nextIsMark "\x7d" next) (member source) ++ mark "\x7d"
    ++ ifNext (·.isMark ";") (mark ";")

/-- The phrase for the part of a class declaration behind the keyword. -/
def classRestPhrase : Phrase :=
  .ident ++ .opt (.rule .baseList) ++ .mark "\x7b" ++ .many .member ++ .mark "\x7d"
    ++ .opt (.mark ";")

/-- A class behind its keyword, whether its base list was read or given up. -/
theorem classRest_sound : Sound source (classRest source) classRestPhrase := by
  have bases : Sound source (attempt baseList) (.opt (.rule .baseList)) :=
    Sound.orElse baseList_sound.some Sound.nothing_opt
  refine Sound.append (Sound.append (Sound.append (Sound.append ?_ Sound.token) ?_) Sound.token)
    (Sound.ifNext Sound.token)
  · exact Sound.token.append bases
  · exact Sound.whileNext member_sound

/-- A class is read to its end, since its base list is there exactly if a colon comes behind the name. -/
theorem classRest_reads :
    Reads source n (classRest source) classRestPhrase (notNext (·.isMark ";")) := by
  have bases : Reads source n (attempt baseList) (.opt (.rule .baseList))
      fun next => endsBases next ∧ notNext (·.isMark ":") next :=
    Reads.attempt baseList_reads baseList_starts baseList_refuses
  have head := (Reads.append_any Reads.identifier bases).append
    (Reads.expectMark "\x7b" .classBody) (Leads.terminal (by grind [endsBases, endsType]))
  have members : Reads source n (whileNext (fun next => !nextIsMark "\x7d" next) (member source))
      (.many .member) fun next => notNext (·.isMark "=") next ∧ (!nextIsMark "\x7d" next) = false :=
    Reads.whileNext member_reads member_starts (by grind [beginsMethod])
  have all := (head.append_any members).append (Reads.mark "\x7d") (Leads.terminal (by grind))
  exact all.append_any Reads.optToken

theorem classDecl_sound : Sound source (classDecl source) (.rule .classDecl) := by
  refine Sound.node (((optionalModifier_sound.append ?_).append Sound.token).append
    classRest_sound.committed)
  exact Sound.ifNext Sound.token

/-- A class is read to its end, with the semicolon that may follow it. -/
theorem classDecl_reads :
    Reads source n (classDecl source) (.rule .classDecl) (notNext (·.isMark ";")) := by
  have modifiers : Reads source n
      (optionalModifier ++ ifNext (·.isKind .partialKeyword) (keyword .partialKeyword))
      (.opt (.rule .modifier) ++ .opt (.kind .partialKeyword))
      fun next => notNext isModifier next ∧ notNext (·.isKind .partialKeyword) next := by
    refine optionalModifier_reads.append (Reads.optToken.mono fun _ hnext => hnext.2) ?_
    exact Leads.opt (Leads.terminal (by grind)) fun _ hnext => hnext.1
  have keywords := modifiers.append (Reads.keyword .classKeyword) (Leads.terminal (by grind))
  exact Reads.node (keywords.append_any classRest_reads.committed)

/-! ## Type declarations -/

/-- Whether a type declaration may begin with the token. -/
def beginsType (t : Token) : Bool :=
  isModifier t || t.isKind .partialKeyword || t.isKind .classKeyword || t.isKind .enumKeyword

/-- A declaration begins with a modifier or one of three keywords. -/
theorem typeDecl_starts : Starts .typeDecl beginsType := by
  refine Leads.alt (Leads.rule ?_) (Leads.rule ?_)
  · refine Leads.append_left (Leads.append (Leads.opt_append ?_ (Leads.opt ?_ fun _ hnext => hnext))
      (Leads.terminal (by grind [beginsType])))
    · exact modifier_starts.of_starts (by grind [beginsType])
    · exact Leads.terminal (by grind [beginsType])
  · refine Leads.append_left (Leads.opt_append ?_ (Leads.terminal (by grind [beginsType])))
    exact modifier_starts.of_starts (by grind [beginsType])

/-- Modifiers consist of modifier words only. -/
theorem modifier_yield (d : Derivation (.opt (.rule .modifier))) :
    ∀ t ∈ d.yield, isModifier t = true := by
  rcases d.none_or_some with rfl | ⟨a, rfl⟩
  · exact fun _ hmem => absurd hmem List.not_mem_nil
  · obtain ⟨a, rfl⟩ := a.exists_rule
    obtain ⟨first, second, rfl⟩ := a.exists_seq
    obtain ⟨t, ht, rfl⟩ := first.exists_token
    have hfirst : isModifier t = true := ht
    rcases second.none_or_some with rfl | ⟨b, rfl⟩
    · simpa [Derivation.yield] using hfirst
    · obtain ⟨u, hu, rfl⟩ := b.exists_token
      have hsecond : isModifier u = true := hu
      simpa [Derivation.yield] using And.intro hfirst hsecond

/-- The keyword is found behind modifiers and `partial`. -/
theorem declarationKeyword?_append {front : List Token} {t : Token} (rest : List Token)
    (hfront : ∀ u ∈ front, isModifier u = true ∨ u.isKind .partialKeyword = true)
    (ht : isModifier t = false ∧ t.isKind .partialKeyword = false) :
    declarationKeyword? (front ++ t :: rest) = some t.kind := by
  induction front with
  | nil => simp [declarationKeyword?, ht]
  | cons u front ih =>
      have hu : (!isModifier u && !u.isKind .partialKeyword) = false := by
        rcases hfront u List.mem_cons_self with h | h <;> simp [h]
      rw [List.cons_append, declarationKeyword?, List.find?_cons_of_neg (by simp [hu])]
      exact ih fun v hv => hfront v (List.mem_cons_of_mem u hv)

/-- Ahead of a class the keyword `class` is found. -/
theorem declarationKeyword?_classDecl (d : Derivation (.rule .classDecl)) (rest : List Token) :
    declarationKeyword? (d.yield ++ rest) = some .classKeyword := by
  obtain ⟨a, rfl⟩ := d.exists_rule
  obtain ⟨a, behind, rfl⟩ := a.exists_seq
  obtain ⟨a, keyword, rfl⟩ := a.exists_seq
  obtain ⟨modifiers, isPartial, rfl⟩ := a.exists_seq
  obtain ⟨t, ht, rfl⟩ := keyword.exists_token
  have hfront : ∀ u ∈ modifiers.yield ++ isPartial.yield,
      isModifier u = true ∨ u.isKind .partialKeyword = true := by
    intro u hu
    rcases List.mem_append.mp hu with hu | hu
    · exact Or.inl (modifier_yield modifiers u hu)
    · rcases isPartial.none_or_some with rfl | ⟨b, rfl⟩
      · exact absurd hu List.not_mem_nil
      · obtain ⟨v, hv, rfl⟩ := b.exists_token
        obtain rfl := List.mem_singleton.mp hu
        exact Or.inr hv
  have hfound := declarationKeyword?_append (behind.yield ++ rest) hfront
    (by grind : isModifier t = false ∧ t.isKind .partialKeyword = false)
  simp only [Derivation.yield, List.append_assoc, List.cons_append, List.nil_append] at hfound ⊢
  rw [hfound]
  grind

/-- Ahead of an enum the keyword `enum` is found. -/
theorem declarationKeyword?_enumDecl (d : Derivation (.rule .enumDecl)) (rest : List Token) :
    declarationKeyword? (d.yield ++ rest) = some .enumKeyword := by
  obtain ⟨a, rfl⟩ := d.exists_rule
  obtain ⟨a, behind, rfl⟩ := a.exists_seq
  obtain ⟨modifiers, keyword, rfl⟩ := a.exists_seq
  obtain ⟨t, ht, rfl⟩ := keyword.exists_token
  have hfound := declarationKeyword?_append (behind.yield ++ rest)
    (fun u hu => Or.inl (modifier_yield modifiers u hu))
    (by grind : isModifier t = false ∧ t.isKind .partialKeyword = false)
  simp only [Derivation.yield, List.append_assoc, List.cons_append, List.nil_append] at hfound ⊢
  rw [hfound]
  grind

theorem typeDecl_sound : Sound source (typeDecl source) .typeDecl := by
  intro ts trees rest hread
  unfold typeDecl at hread
  split at hread
  · exact classDecl_sound.left ts trees rest hread
  · exact enumDecl_sound.right ts trees rest hread
  · exact Outcome.noConfusion hread

/-- The keyword tells classes from enums, so the reader tries the right one. -/
theorem typeDecl_reads : Reads source n (typeDecl source) .typeDecl (notNext (·.isMark ";")) where
  complete d rest hlen hnext := by
    unfold typeDecl
    rcases d.left_or_right with ⟨a, rfl⟩ | ⟨b, rfl⟩
    · simp only [Derivation.yield, declarationKeyword?_classDecl a rest]
      exact classDecl_reads.complete a rest hlen hnext
    · simp only [Derivation.yield, declarationKeyword?_enumDecl b rest]
      exact enumDecl_reads.complete b rest hlen hnext
  unique d d' rest hlen hnext hyield := by
    have classes : Reads source n (classDecl source) _ _ := classDecl_reads
    have enums : Reads source n enumDecl _ _ := enumDecl_reads
    refine Derivation.alt_unique hyield ?_ ?_ ?_
    · intro a a' ha
      exact classes.unique a a' rest (by rw [ha]; exact hlen) hnext
    · intro b b' hb
      exact enums.unique b b' rest (by rw [hb]; exact hlen) hnext
    · -- The keyword behind the modifiers tells them apart, however many modifiers there are.
      intro a b _ hab
      have hkeyword := declarationKeyword?_classDecl a []
      rw [hab, declarationKeyword?_enumDecl b []] at hkeyword
      exact absurd hkeyword (by decide)

/-! ## Namespaces and imports -/

/-- The declarations of a namespace without braces end here: there is no token, or the keyword of the
next namespace. -/
def endsNamespace (next : Option Token) : Prop := notNext (!·.isKind .namespaceKeyword) next

theorem namespaceDecl_starts : Starts (.rule .namespaceDecl) (·.isKind .namespaceKeyword) :=
  Leads.rule (Leads.append_left Leads.starts_terminal)

theorem namespaceDecl_sound : Sound source (namespaceDecl source) (.rule .namespaceDecl) := by
  have types : Sound source (committed (typeDecl source)) .typeDecl := typeDecl_sound.committed
  refine Sound.node (Sound.token.append (Sound.committed (Sound.token.append
    (Sound.byNext fun next => ?_))))
  split
  · exact Sound.right (Sound.token.append (Sound.whileNext types))
  · exact Sound.left ((Sound.token.append (Sound.whileNext types)).append Sound.token)

/-- A namespace is read to its end, if another one or nothing follows it. -/
theorem namespaceDecl_reads :
    Reads source n (namespaceDecl source) (.rule .namespaceDecl) endsNamespace := by
  have toBrace : Reads source n
      (whileNext (fun next => !nextIsMark "\x7d" next) (committed (typeDecl source)))
      (.many .typeDecl) fun next => notNext (·.isMark ";") next ∧ (!nextIsMark "\x7d" next) = false :=
    Reads.whileNext typeDecl_reads.committed typeDecl_starts (by grind [beginsType])
  have toNamespace : Reads source n
      (whileNext (fun next => next.any (!·.isKind .namespaceKeyword)) (committed (typeDecl source)))
      (.many .typeDecl) endsNamespace := by
    refine (Reads.whileNext typeDecl_reads.committed typeDecl_starts (by grind [beginsType])).mono ?_
    intro next hnext
    cases next <;> grind [endsNamespace]
  have block : Starts (.mark "\x7b" ++ .many .typeDecl ++ .mark "\x7d") (·.isMark "\x7b") :=
    Leads.append_left (Leads.append_left Leads.starts_terminal)
  have toEnd : Starts (.mark ";" ++ .many .typeDecl) (·.isMark ";") :=
    Leads.append_left Leads.starts_terminal
  have inBraces := (Reads.append_any (Reads.expectMark "\x7b" .namespaceBody) toBrace).append
    (Reads.mark "\x7d") (Leads.terminal (by grind))
  refine Reads.node (Reads.append_any Reads.token (Reads.committed (Reads.append_any Reads.identifier
    (Reads.alt ?_ ?_ block toEnd (by grind)))))
  · exact Reads.byNext (inBraces.mono fun _ _ => trivial) (block.of_starts (by grind))
  · exact Reads.byNext (Reads.append_any Reads.semicolon toNamespace) (toEnd.of_starts (by grind))

theorem importDecl_starts : Starts (.rule .importDecl) (·.isKind .usingKeyword) :=
  Leads.rule (Leads.append_left Leads.starts_terminal)

theorem importDecl_sound : Sound source importDecl (.rule .importDecl) :=
  Sound.node (Sound.token.append (Sound.committed
    (((Sound.ifNext Sound.token).append Sound.token).append Sound.token)))

/-- An import ends with its semicolon. -/
theorem importDecl_reads : Reads source n importDecl (.rule .importDecl) anything := by
  have name : Reads source n
      (ifNext (·.isKind .staticKeyword) (keyword .staticKeyword) ++ identifier)
      (.opt (.kind .staticKeyword) ++ .ident) anything :=
    Reads.optToken.append Reads.identifier (Leads.terminal (by grind))
  exact Reads.node (Reads.append_any (Reads.keyword .usingKeyword)
    (Reads.committed (name.append_any Reads.semicolon)))

/-! ## Units -/

theorem unitParts_sound : Sound source (unitParts source) (.production .compilationUnit) :=
  ((Sound.whileNext importDecl_sound).append namespaceDecl_sound.committed).append
    (Sound.whileNext namespaceDecl_sound.committed)

/-- A unit is read to its last token. -/
theorem unitParts_stops {tokens rest : List Token} {parts : List Tree}
    (hread : unitParts source tokens = .ok parts rest) : rest = [] := by
  obtain ⟨_, more, _, _, hmore, _⟩ := Reader.append_eq_ok hread
  have hstop := Sound.whileNext_stops (namespaceDecl_sound.committed) namespaceDecl_starts hmore
  cases rest with
  | nil => rfl
  | cons t rest => exact Bool.noConfusion hstop

/-- A unit ends with the tokens. -/
theorem unitParts_reads : Reads source n (unitParts source) (.production .compilationUnit)
    fun next => next = none := by
  have imports : Reads source n (whileNext (nextIsKind .usingKeyword) importDecl)
      (.many (.rule .importDecl))
      fun next => anything next ∧ nextIsKind .usingKeyword next = false :=
    Reads.whileNext importDecl_reads importDecl_starts (by grind)
  have others : Reads source n (whileNext (·.isSome) (committed (namespaceDecl source)))
      (.many (.rule .namespaceDecl)) fun next => next = none := by
    refine (Reads.whileNext namespaceDecl_reads.committed namespaceDecl_starts
      (by grind [endsNamespace])).mono ?_
    rintro next rfl
    exact ⟨rfl, rfl⟩
  refine (imports.append namespaceDecl_reads.committed ?_).append others ?_
  · exact namespaceDecl_starts.of_starts (by grind)
  · refine Leads.many (namespaceDecl_starts.of_starts (by grind [endsNamespace])) ?_
    rintro next rfl
    rfl

/-- A unit that is derived is accepted, with the derivation as its tree. -/
theorem buildTree_complete (a : Derivation (.production .compilationUnit)) :
    buildTree source a.yield = .ok (.node .compilationUnit (a.trees source)) := by
  have reads (n : Nat) : Reads source n (unitParts source) _ _ := unitParts_reads
  have hread := Reads.accepts reads a [] rfl
  rw [List.append_nil] at hread
  rw [buildTree, hread]

/-- A unit that is accepted is derived, with the tree as its derivation. -/
theorem buildTree_sound {tokens : List Token} {tree : Tree}
    (hbuild : buildTree source tokens = .ok tree) :
    ∃ a : Derivation (.production .compilationUnit),
      a.yield = tokens ∧ tree = .node .compilationUnit (a.trees source) := by
  unfold buildTree at hbuild
  split at hbuild
  · rename_i parts rest hread
    cases hbuild
    obtain ⟨a, hyield, rfl⟩ := unitParts_sound tokens parts rest hread
    rw [unitParts_stops hread, List.append_nil] at hyield
    exact ⟨a, hyield.symm, rfl⟩
  · cases hbuild
  · cases hbuild

/-- A token list is derived as a unit in one way at most. -/
theorem unit_unambiguous (a a' : Derivation (.production .compilationUnit))
    (hyield : a.yield = a'.yield) : a = a' := by
  have reads : Reads [] (a.yield.length + 1) (unitParts []) (.production .compilationUnit) _ :=
    unitParts_reads
  exact reads.unique a a' [] (Nat.lt_succ_self _) rfl hyield

/-- The reader and the grammar agree. A token list is accepted exactly when it is derived as a unit; the
tree that is given is the derivation; and there is no other derivation. -/
theorem buildTree_exact (source : List Char) (tokens : List Token) :
    ((∃ tree, buildTree source tokens = .ok tree) ↔
      ∃ d : Derivation (.rule .compilationUnit), d.yield = tokens) ∧
    (∀ tree, buildTree source tokens = .ok tree ↔
      ∃ d : Derivation (.rule .compilationUnit), d.yield = tokens ∧ d.trees source = [tree]) ∧
    Subsingleton { d : Derivation (.rule .compilationUnit) // d.yield = tokens } := by
  refine ⟨⟨?_, ?_⟩, fun tree => ⟨?_, ?_⟩, ⟨?_⟩⟩
  · rintro ⟨tree, hbuild⟩
    obtain ⟨a, hyield, _⟩ := buildTree_sound hbuild
    exact ⟨.rule a, hyield⟩
  · rintro ⟨d, rfl⟩
    obtain ⟨a, rfl⟩ := d.exists_rule
    exact ⟨_, buildTree_complete a⟩
  · intro hbuild
    obtain ⟨a, hyield, rfl⟩ := buildTree_sound hbuild
    exact ⟨.rule a, hyield, rfl⟩
  · rintro ⟨d, rfl, htrees⟩
    obtain ⟨a, rfl⟩ := d.exists_rule
    cases htrees
    exact buildTree_complete a
  · rintro ⟨d, hd⟩ ⟨d', hd'⟩
    obtain ⟨a, rfl⟩ := d.exists_rule
    obtain ⟨a', rfl⟩ := d'.exists_rule
    obtain rfl := unit_unambiguous a a' (hd.trans hd'.symm)
    rfl

/-! ## Source texts -/

/-- The tree of a source text is a derivation of its tokens. -/
theorem parseTree_ok {source : String} {tree : Tree} (h : parseTree source = .ok tree) :
    ∃ a : Derivation (.production .compilationUnit),
      tokenize source = .ok a.yield ∧ tree = .node .compilationUnit (a.trees source.toList) := by
  unfold parseTree at h
  split at h
  · cases h
  · rename_i tokens htokens
    split at h
    · cases h
    · rename_i found hbuild
      cases h
      obtain ⟨a, rfl, htree⟩ := buildTree_sound hbuild
      exact ⟨a, htokens, htree⟩

/-- Whether the code belongs to the reading of declarations. -/
def isGrammatical (code : ErrorCode) : Bool :=
  code == .unexpectedToken || code == .incompleteInput || code == .expectedTypeDeclaration

/-- Every refusal is reported with a code of the grammar. -/
theorem refusal_code (refusal : Refusal) (tokens : List Token) :
    ∃ code, (refusal.diagnostic tokens).code = some code ∧ isGrammatical code = true := by
  unfold Refusal.diagnostic
  cases refusal.rest with
  | nil => exact ⟨_, rfl, rfl⟩
  | cons found later =>
      refine ⟨_, rfl, ?_⟩
      split <;> rfl

/-- A source text without a tree has lexical problems, or a single grammatical one. -/
theorem parseTree_error {source : String} {error : ParseError} (h : parseTree source = .error error) :
    tokenize source = .error error ∨
      ∃ d code, error = .single d ∧ d.code = some code ∧ isGrammatical code = true := by
  unfold parseTree at h
  split at h
  · rename_i found htokens
    cases h
    exact Or.inl htokens
  · rename_i tokens _
    split at h
    · rename_i d hbuild
      cases h
      unfold buildTree at hbuild
      split at hbuild
      · cases hbuild
      · rename_i refusal _
        cases hbuild
        obtain ⟨code, hcode, hphase⟩ := refusal_code refusal tokens
        exact Or.inr ⟨_, code, rfl, hcode, hphase⟩
      · rename_i refusal _
        cases hbuild
        obtain ⟨code, hcode, hphase⟩ := refusal_code refusal tokens
        exact Or.inr ⟨_, code, rfl, hcode, hphase⟩
    · cases h

end ClassChart.Grammar
