/-
# ClassChart.Proofs.Grammar.Balance — how far braces match in what the grammar derives

Every brace that the grammar itself asks for has its partner in the same production, and a body is closed
by the brace that matches its first one. So outside values the braces of a unit match. A value knows no
partners: it counts brackets of all kinds together, and a closing one too many counts for nothing. It may
therefore close what it did not open, and the braces of the whole unit match as far as those of its values
do. Where the brackets of the whole are nested, no value can close a brace from outside it, because
nothing behind it could make up for that.
-/
import ClassChart.Proofs.Grammar.Chunks

namespace ClassChart.Grammar

/-! ## Depths -/

/-- Read with `depth` braces open, the run closes none that is not open, and leaves `next` of them open. -/
structure Moves (depth next : Nat) (run : List Token) : Prop where
  inside : StaysInside depth run
  level : depth + opened run = next + closed run

/-- The braces of the run match: from its start on never more are closed than opened, and in the end
equally many. -/
structure BracesMatch (run : List Token) : Prop where
  inside : StaysInside 0 run
  balanced : Balanced run

section Depths

variable {depth between next : Nat} {run first second : List Token}

/-- From zero to zero the braces of a run match. -/
theorem moves_zero_iff : Moves 0 0 run ↔ BracesMatch run := by
  constructor
  · rintro ⟨hinside, hlevel⟩
    exact ⟨hinside, by simpa [Balanced] using hlevel⟩
  · rintro ⟨hinside, hbalanced⟩
    exact ⟨hinside, congrArg (0 + ·) hbalanced⟩

theorem Moves.nil (depth : Nat) : Moves depth depth [] := ⟨staysInside_nil depth, rfl⟩

/-- Runs one behind the other move the depth one after the other. -/
theorem Moves.append (hfirst : Moves depth between first) (hsecond : Moves between next second) :
    Moves depth next (first ++ second) := by
  have hlevel := hfirst.level
  have hlevel' := hsecond.level
  refine ⟨?_, ?_⟩
  · rintro front ⟨behind, hsplit⟩
    rcases List.append_eq_append_iff.mp hsplit with ⟨more, rfl, -⟩ | ⟨more, rfl, hmore⟩
    · exact hfirst.inside front (List.prefix_append front more)
    · have hinside := hsecond.inside more ⟨behind, hmore.symm⟩
      simp only [opened, closed, List.countP_append] at hlevel hinside ⊢
      omega
  · simp only [opened, closed, List.countP_append] at hlevel hlevel' ⊢
    omega

/-- Further out, more braces are open, and they stay so. -/
theorem Moves.lift (h : Moves depth next run) (outer : Nat) :
    Moves (depth + outer) (next + outer) run := by
  have hlevel := h.level
  refine ⟨?_, by omega⟩
  intro front hfront
  have hinside := h.inside front hfront
  omega

/-- A token moves the depth by the brace that it is. -/
theorem moves_token {t : Token} (hlevel : depth + opened [t] = next + closed [t]) :
    Moves depth next [t] := by
  refine ⟨?_, hlevel⟩
  intro front hfront
  rcases List.prefix_cons_iff.mp hfront with rfl | ⟨more, rfl, hmore⟩
  · exact Nat.zero_le _
  · rw [List.prefix_nil.mp hmore]
    omega

/-- A body leaves the depth as it was, and does not go below it. -/
theorem moves_body (hrun : IsBody run) (depth : Nat) : Moves depth depth run := by
  obtain ⟨opening, inner, closing, rfl, hopen, hat⟩ := isBody_iff.mp hrun
  have hfirst : Moves depth (depth + 1) [opening] :=
    moves_token (by simp [hopen, isMark_other hopen (by decide : "\x7b" ≠ "\x7d")])
  have hlast : Moves (depth + 1) depth [closing] :=
    moves_token (by simp [hat.closes, isMark_other hat.closes (by decide : "\x7d" ≠ "\x7b")])
  have hinner : Moves 0 0 inner := ⟨hat.inside, by simpa using hat.level⟩
  have hbetween := hinner.lift (depth + 1)
  rw [Nat.zero_add] at hbetween
  exact hfirst.append (hbetween.append hlast)

end Depths

/-! ## What the grammar does to the depth -/

/-- With `depth` braces open, the phrase itself leads to `next` open ones. Rules and regions are taken to
lead back to where they begin. -/
def Phrase.Shifts : Phrase → Nat → Nat → Prop
  | terminal admits, depth, next => ∀ t, admits t = true → depth + opened [t] = next + closed [t]
  | seq e f, depth, next => ∃ between, e.Shifts depth between ∧ f.Shifts between next
  | alt e f, depth, next => e.Shifts depth next ∧ f.Shifts depth next
  | opt e, depth, next => next = depth ∧ e.Shifts depth depth
  | many e, depth, next => next = depth ∧ e.Shifts depth depth
  | rule _, depth, next => next = depth
  | body, depth, next => next = depth
  | value, depth, next => next = depth

namespace Phrase

variable {e f : Phrase} {depth next : Nat}

@[simp] theorem shifts_append :
    (e ++ f).Shifts depth next ↔ ∃ between, e.Shifts depth between ∧ f.Shifts between next := Iff.rfl

@[simp] theorem shifts_or :
    (e ||| f).Shifts depth next ↔ e.Shifts depth next ∧ f.Shifts depth next := Iff.rfl

@[simp] theorem shifts_opt : (opt e).Shifts depth next ↔ next = depth ∧ e.Shifts depth depth := Iff.rfl

@[simp] theorem shifts_many : (many e).Shifts depth next ↔ next = depth ∧ e.Shifts depth depth := Iff.rfl

@[simp] theorem shifts_rule {r : Rule} : (rule r).Shifts depth next ↔ next = depth := Iff.rfl

@[simp] theorem shifts_body : body.Shifts depth next ↔ next = depth := Iff.rfl

@[simp] theorem shifts_value : value.Shifts depth next ↔ next = depth := Iff.rfl

/-- Tokens that are no marks leave the depth alone. The token shows that there is one. -/
theorem shifts_plain {admits : Token → Bool} (hplain : ∀ t, admits t = true → t.kind ≠ .punctuation)
    {t : Token} (ht : admits t = true) : (terminal admits).Shifts depth next ↔ next = depth := by
  have hmark (u : Token) (hu : admits u = true) (text : String) : u.isMark text = false := by
    simp [Token.isMark, hplain u hu]
  constructor
  · intro h
    simpa [hmark t ht] using (h t ht).symm
  · rintro rfl u hu
    simp [hmark u hu]

/-- A token of any kind but punctuation is no brace. -/
@[simp] theorem shifts_kind {k : TokenKind} (hk : k ≠ .punctuation) :
    (kind k).Shifts depth next ↔ next = depth := by
  refine shifts_plain (fun t ht => ?_) (t := ⟨k, "", ⟨0, 0⟩⟩) (by simp [Token.isKind])
  rw [eq_of_beq ht]
  exact hk

@[simp] theorem shifts_ident : ident.Shifts depth next ↔ next = depth :=
  shifts_kind (by decide)

/-- A mark shifts the depth if it is a brace. -/
@[simp] theorem shifts_mark {text : String} :
    (mark text).Shifts depth next ↔
      depth + (if text = "\x7b" then 1 else 0) = next + (if text = "\x7d" then 1 else 0) := by
  constructor
  · intro h
    simpa [Token.isMark] using h ⟨.punctuation, text, ⟨0, 0⟩⟩ (by simp [Token.isMark])
  · intro h t ht
    simp only [Token.isMark, Bool.and_eq_true, beq_iff_eq] at ht
    simpa [Token.isMark, ht.1, ht.2] using h

end Phrase

/-- Each production closes the braces that it opens. -/
theorem production_shifts (r : Rule) (depth : Nat) : (Phrase.production r).Shifts depth depth := by
  have hmodifier (depth next : Nat) : Phrase.modifierWord.Shifts depth next ↔ next = depth :=
    Phrase.shifts_plain (by grind [Token.isKind]) (t := ⟨.visibility, "", ⟨0, 0⟩⟩) rfl
  have hdefault (depth next : Nat) : Phrase.defaultWord.Shifts depth next ↔ next = depth :=
    Phrase.shifts_plain (by grind [Token.isKind]) (t := ⟨.identifier, "", ⟨0, 0⟩⟩) rfl
  have haccessor (depth next : Nat) : Phrase.accessorWord.Shifts depth next ↔ next = depth :=
    Phrase.shifts_plain (by grind [Token.isKind]) (t := ⟨.identifier, "get", ⟨0, 0⟩⟩) rfl
  have hnumber (depth next : Nat) :
      (Phrase.terminal fun t => t.isKind .integerLiteral || t.isKind .numberLiteral).Shifts depth next ↔
        next = depth :=
    Phrase.shifts_plain (by grind [Token.isKind]) (t := ⟨.integerLiteral, "", ⟨0, 0⟩⟩) rfl
  cases r <;>
    simp [Phrase.production, Phrase.typeDecl, Phrase.member, hmodifier, hdefault, haccessor, hnumber]

/-! ## Outside values and inside them -/

namespace Chunk

/-- Whether the chunk is a value. -/
def isValue : Chunk → Bool
  | value _ => true
  | _ => false

/-- The tokens of a chunk that is no value. -/
def outside : Chunk → List Token
  | value _ => []
  | c => c.run

/-- The tokens of a value. -/
def within : Chunk → List Token
  | value run => run
  | _ => []

end Chunk

section Values

variable {e : Phrase} {depth next : Nat} {cs : List Chunk}

/-- What is seen of the chunks of a derivation moves the depth as the phrase does, if the braces match in
what is seen of each value. -/
theorem moves_chunks {see : Chunk → List Token} (htoken : ∀ t, see (.token t) = [t])
    (hbody : ∀ run, see (.body run) = run) (he : e.Shifts depth next) (d : Derivation e)
    (hvalue : ∀ run, .value run ∈ d.chunks → BracesMatch (see (.value run))) :
    Moves depth next (d.chunks.flatMap see) := by
  induction d generalizing depth next with
  | token t ht =>
      rw [Derivation.chunks, List.flatMap_singleton, htoken]
      exact moves_token (he t ht)
  | seq a b iha ihb =>
      obtain ⟨between, ha, hb⟩ := he
      rw [Derivation.chunks, List.flatMap_append]
      exact (iha ha fun run hrun => hvalue run (List.mem_append_left _ hrun)).append
        (ihb hb fun run hrun => hvalue run (List.mem_append_right _ hrun))
  | left a ih => exact ih he.1 hvalue
  | right b ih => exact ih he.2 hvalue
  | none =>
      obtain ⟨rfl, -⟩ := he
      exact Moves.nil _
  | some a ih =>
      obtain ⟨rfl, ha⟩ := he
      exact ih ha hvalue
  | nil =>
      obtain ⟨rfl, -⟩ := he
      exact Moves.nil _
  | cons a more iha ihmore =>
      obtain ⟨rfl, ha⟩ := he
      rw [Derivation.chunks, List.flatMap_append]
      exact (iha ha fun run hrun => hvalue run (List.mem_append_left _ hrun)).append
        (ihmore ⟨rfl, ha⟩ fun run hrun => hvalue run (List.mem_append_right _ hrun))
  | @rule r a ih =>
      obtain rfl := he
      exact ih (production_shifts r _) hvalue
  | body run hrun =>
      obtain rfl := he
      rw [Derivation.chunks, List.flatMap_singleton, hbody]
      exact moves_body hrun _
  | value run hrun =>
      obtain rfl := he
      have hmatch := (moves_zero_iff.mpr (hvalue run (List.mem_singleton_self _))).lift next
      rw [Nat.zero_add] at hmatch
      rwa [Derivation.chunks, List.flatMap_singleton]

/-- What is counted in a unit is counted in its values or outside them. -/
theorem countP_run (p : Token → Bool) (cs : List Chunk) :
    (cs.flatMap Chunk.run).countP p =
      (cs.flatMap Chunk.outside).countP p + (cs.flatMap Chunk.within).countP p := by
  induction cs with
  | nil => rfl
  | cons c cs ih =>
      simp only [List.flatMap_cons, List.countP_append, ih]
      cases c <;> simp only [Chunk.run, Chunk.outside, Chunk.within, List.countP_nil] <;> omega

/-- Where braces balance outside values, they balance in the whole if and only if they do in all values
together. -/
theorem balanced_run_iff (houtside : Balanced (cs.flatMap Chunk.outside)) :
    Balanced (cs.flatMap Chunk.run) ↔ Balanced (cs.flatMap Chunk.within) := by
  have hopened := countP_run (·.isMark "\x7b") cs
  have hclosed := countP_run (·.isMark "\x7d") cs
  simp only [Balanced] at houtside ⊢
  omega

/-- If values close at least what they open, so do all of them together. -/
theorem opened_within_le (hle : ∀ run, .value run ∈ cs → opened run ≤ closed run) :
    opened (cs.flatMap Chunk.within) ≤ closed (cs.flatMap Chunk.within) := by
  induction cs with
  | nil => exact Nat.le_refl 0
  | cons c cs ih =>
      have hrest := ih fun run hrun => hle run (List.mem_cons_of_mem c hrun)
      simp only [List.flatMap_cons, opened, closed, List.countP_append] at hrest ⊢
      cases c with
      | token t => simpa only [Chunk.within, List.countP_nil, Nat.zero_add] using hrest
      | body run => simpa only [Chunk.within, List.countP_nil, Nat.zero_add] using hrest
      | value run =>
          have hrun := hle run List.mem_cons_self
          exact Nat.add_le_add hrun hrest

/-- If in addition they close no more than they open together, each of them is balanced. -/
theorem balanced_of_le (hle : ∀ run, .value run ∈ cs → opened run ≤ closed run)
    (hall : Balanced (cs.flatMap Chunk.within)) {run : List Token} (hrun : .value run ∈ cs) :
    Balanced run := by
  obtain ⟨before, behind, rfl⟩ := List.append_of_mem hrun
  have hbefore : opened (before.flatMap Chunk.within) ≤ closed (before.flatMap Chunk.within) :=
    opened_within_le fun run hrun => hle run (List.mem_append_left _ hrun)
  have hbehind : opened (behind.flatMap Chunk.within) ≤ closed (behind.flatMap Chunk.within) :=
    opened_within_le fun run hrun => hle run (List.mem_append_right _ (List.mem_cons_of_mem _ hrun))
  have hself := hle run hrun
  simp only [Balanced, opened, closed, List.flatMap_append, List.flatMap_cons, Chunk.within,
    List.countP_append] at hall hbefore hbehind hself ⊢
  omega

end Values

/-! ## Nested brackets -/

/-- The closing bracket that an opening one asks for. -/
def partner? (t : Token) : Option String :=
  if t.isMark "(" then some ")"
  else if t.isMark "[" then some "]"
  else if t.isMark "\x7b" then some "\x7d"
  else none

/-- The closing brackets that are due behind a token, the next one first. A closing bracket is admitted
only when it is the next one. -/
def follow (due : List String) (t : Token) : Option (List String) :=
  match partner? t, due with
  | some text, due => some (text :: due)
  | none, [] => if closesBracket t then none else some []
  | none, text :: due =>
    if closesBracket t then if t.isMark text then some due else none else some (text :: due)

/-- Every closing bracket closes the last one that is open, and none stays open. Matching braces in the whole
say less: one value may close its brace by a parenthesis, and another one its parenthesis by a brace. -/
def Nested (ts : List Token) : Prop := ts.foldlM follow [] = some []

instance : DecidablePred Nested := fun ts => inferInstanceAs (Decidable (ts.foldlM follow [] = some []))

/-- What a token does to the brackets that are due. -/
inductive Follows (t : Token) : List String → List String → Prop where
  | opens {due : List String} {text : String} (asks : partner? t = some text) :
      Follows t due (text :: due)
  | closes {due : List String} {text : String} (asksNone : partner? t = none)
      (closing : closesBracket t = true) (isDue : t.isMark text = true) : Follows t (text :: due) due
  | other {due : List String} (asksNone : partner? t = none) (closesNone : closesBracket t = false) :
      Follows t due due

section Nesting

variable {t : Token} {ts run : List Token} {due due' top base : List String}

/-- The three ways in which brackets stay nested. -/
theorem follows_of_follow (h : follow due t = some due') : Follows t due due' := by
  unfold follow at h
  split at h
  · cases h
    exact .opens ‹_›
  · split at h
    · cases h
    · cases h
      exact .other ‹_› (Bool.eq_false_iff.mpr ‹_›)
  · split at h
    · split at h
      · cases h
        exact .closes ‹_› ‹_› ‹_›
      · cases h
    · cases h
      exact .other ‹_› (Bool.eq_false_iff.mpr ‹_›)

/-- A token opens a bracket exactly if it asks for a partner. -/
theorem opensBracket_eq (t : Token) : opensBracket t = (partner? t).isSome := by
  unfold opensBracket partner?
  split
  · simp [*]
  · split
    · simp [*]
    · split <;> simp [*]

/-- Only a brace asks for a brace, and what asks for anything closes nothing. -/
theorem partner?_brace {text : String} (h : partner? t = some text) :
    (t.isMark "\x7b" = true ↔ text = "\x7d") ∧ t.isMark "\x7d" = false := by
  unfold partner? at h
  split at h
  · rename_i hmark
    cases h
    simp [isMark_other hmark]
  · split at h
    · rename_i hmark
      cases h
      simp [isMark_other hmark]
    · split at h
      · rename_i hmark
        cases h
        simp [hmark, isMark_other hmark]
      · cases h

theorem partner?_none (h : partner? t = none) : t.isMark "\x7b" = false := by
  have hopen := opensBracket_eq t
  rw [h] at hopen
  simp only [opensBracket, Option.isSome_none, Bool.or_eq_false_iff] at hopen
  exact hopen.2

/-- The number of braces that are due is the depth. -/
theorem Follows.depth (h : Follows t due due') :
    due.count "\x7d" + opened [t] = due'.count "\x7d" + closed [t] := by
  cases h with
  | @opens _ text asks =>
      obtain ⟨hopen, hclose⟩ := partner?_brace asks
      simp [List.count_cons, hopen, hclose]
  | @closes _ text asksNone _ isDue =>
      have hclose : t.isMark "\x7d" = true ↔ text = "\x7d" :=
        ⟨isMark_inj isDue, fun h => h ▸ isDue⟩
      simp [List.count_cons, partner?_none asksNone, hclose]
  | other asksNone closesNone =>
      have hclose : t.isMark "\x7d" = false := by
        simp only [closesBracket, Bool.or_eq_false_iff] at closesNone
        exact closesNone.2
      simp [partner?_none asksNone, hclose]

/-- Along a run, the braces that are due are the depth. -/
theorem depth_of_follow (h : ts.foldlM follow due = some due') :
    due.count "\x7d" + opened ts = due'.count "\x7d" + closed ts := by
  induction ts generalizing due with
  | nil =>
      cases h
      rfl
  | cons t ts ih =>
      rw [List.foldlM_cons] at h
      obtain ⟨between, hfirst, hrest⟩ := Option.bind_eq_some_iff.mp h
      have hstep := (follows_of_follow hfirst).depth
      have hmore := ih hrest
      simp only [opened, closed, List.countP_cons, List.countP_nil] at hstep hmore ⊢
      omega

/-- The counter of a value is the number of brackets that were opened in it and are due. Those that were
due before it can only become fewer. -/
theorem Follows.counter (h : Follows t (top ++ base) due') :
    ∃ top' gone, due' = top' ++ base.drop gone ∧ top'.length = countBracket top.length t := by
  rw [countBracket_eq, opensBracket_eq]
  generalize hdue : top ++ base = due at h
  cases h with
  | @opens _ text asks =>
      exact ⟨text :: top, 0, by simp [hdue], by simp [asks]⟩
  | closes asksNone closing isDue =>
      cases top with
      | nil =>
          obtain rfl := hdue
          exact ⟨[], 1, rfl, by simp [asksNone, closing]⟩
      | cons first top =>
          cases hdue
          exact ⟨top, 0, rfl, by simp [asksNone, closing]⟩
  | other asksNone closesNone =>
      exact ⟨top, 0, hdue.symm, by simp [asksNone, closesNone]⟩

/-- Along a run, the counter of a value is the number of brackets opened in it that are due. -/
theorem counter_of_follow (top base : List String) (h : ts.foldlM follow (top ++ base) = some due') :
    ∃ top' gone, due' = top' ++ base.drop gone ∧
      top'.length = ts.foldl countBracket top.length := by
  induction ts generalizing top base with
  | nil =>
      cases h
      exact ⟨top, 0, rfl, rfl⟩
  | cons t ts ih =>
      rw [List.foldlM_cons] at h
      obtain ⟨between, hfirst, hrest⟩ := Option.bind_eq_some_iff.mp h
      obtain ⟨top', gone, rfl, hlength⟩ := (follows_of_follow hfirst).counter
      obtain ⟨top'', gone', rfl, hlength'⟩ := ih top' (base.drop gone) hrest
      refine ⟨top'', gone + gone', by rw [List.drop_drop], ?_⟩
      rw [hlength', hlength, List.foldl_cons]

/-- At the end of a value its counter is zero. -/
theorem bracketDepth_value (hrun : IsValue run) : bracketDepth run = 0 := by
  obtain ⟨front, last, rfl, hlast, hlevel⟩ := hrun.ends
  obtain ⟨hopen, hclose⟩ := isMark_semicolon_not_bracket hlast
  rw [bracketDepth, List.foldl_append, ← bracketDepth, hlevel]
  simp [countBracket_eq, hopen, hclose]

/-- Behind any part of a value from its start on, what was due before the value and is no longer due is
not due behind the value either. -/
theorem due_of_value (front behind : List Token) (hrun : IsValue (front ++ behind))
    (h : (front ++ behind).foldlM follow due = some due') :
    ∃ top gone gone', front.foldlM follow due = some (top ++ due.drop gone) ∧
      due' = (due.drop gone).drop gone' := by
  rw [List.foldlM_append] at h
  obtain ⟨between, hfront, hbehind⟩ := Option.bind_eq_some_iff.mp h
  obtain ⟨top, gone, rfl, hlength⟩ := counter_of_follow [] due hfront
  obtain ⟨top', gone', rfl, hlength'⟩ := counter_of_follow top (due.drop gone) hbehind
  have hend := bracketDepth_value hrun
  rw [bracketDepth, List.foldl_append] at hend
  rw [hlength, List.length_nil, hend] at hlength'
  rw [List.eq_nil_of_length_eq_zero hlength']
  exact ⟨top, gone, gone', hfront, rfl⟩

/-- A value closes at least the braces that it opens. -/
theorem opened_value_le (hrun : IsValue run) (h : run.foldlM follow due = some due') :
    opened run ≤ closed run := by
  obtain ⟨_, gone, gone', _, rfl⟩ := due_of_value [] run hrun h
  have hdepth := depth_of_follow h
  have hfewer : ((due.drop gone).drop gone').count "\x7d" ≤ due.count "\x7d" :=
    ((List.drop_sublist _ _).trans (List.drop_sublist _ _)).count_le _
  omega

/-- If it closes no more, its braces match. -/
theorem bracesMatch_value (hrun : IsValue run) (h : run.foldlM follow due = some due')
    (hbalanced : Balanced run) : BracesMatch run := by
  refine ⟨?_, hbalanced⟩
  rintro front ⟨behind, rfl⟩
  obtain ⟨top, gone, gone', hfront, rfl⟩ := due_of_value front behind hrun h
  have hall : due.count "\x7d" ≤ (due.drop gone).count "\x7d" := by
    have hdepth := depth_of_follow h
    have hfewer := (List.drop_sublist gone' (due.drop gone)).count_le "\x7d"
    have hequal : opened (front ++ behind) = closed (front ++ behind) := hbalanced
    omega
  have hdepth := depth_of_follow hfront
  rw [List.count_append] at hdepth
  omega

/-- In a nested unit each part is nested behind what is due before it. -/
theorem exists_follow {cs : List Chunk} {c : Chunk}
    (h : (cs.flatMap Chunk.run).foldlM follow due = some due') (hc : c ∈ cs) :
    ∃ before behind, c.run.foldlM follow before = some behind := by
  obtain ⟨front, rest, rfl⟩ := List.append_of_mem hc
  rw [List.flatMap_append, List.flatMap_cons, List.foldlM_append] at h
  obtain ⟨before, _, hrest⟩ := Option.bind_eq_some_iff.mp h
  rw [List.foldlM_append] at hrest
  obtain ⟨behind, hrun, _⟩ := Option.bind_eq_some_iff.mp hrest
  exact ⟨before, behind, hrun⟩

/-- Where brackets are nested in the whole, and braces match outside values, they match in each value. -/
theorem bracesMatch_of_nested {cs : List Chunk} (hregion : ∀ c ∈ cs, c.IsRegion)
    (houtside : Balanced (cs.flatMap Chunk.outside)) (hnested : Nested (cs.flatMap Chunk.run))
    (hrun : .value run ∈ cs) : BracesMatch run := by
  have hle (run : List Token) (hrun : .value run ∈ cs) : opened run ≤ closed run := by
    obtain ⟨before, behind, hfollow⟩ := exists_follow hnested hrun
    exact opened_value_le (hregion _ hrun) hfollow
  have hwhole : Balanced (cs.flatMap Chunk.run) := by
    have hdepth := depth_of_follow hnested
    rwa [List.count_nil, Nat.zero_add, Nat.zero_add] at hdepth
  have hwithin : Balanced (cs.flatMap Chunk.within) := (balanced_run_iff houtside).mp hwhole
  obtain ⟨before, behind, hfollow⟩ := exists_follow hnested hrun
  exact bracesMatch_value (hregion _ hrun) hfollow (balanced_of_le hle hwithin hrun)

end Nesting

end ClassChart.Grammar
