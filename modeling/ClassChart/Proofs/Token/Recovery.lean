/-
# ClassChart.Proofs.Token.Recovery — reading goes on behind a fault

The loop that reads a text does not end at a fault: it reports it, gives up some characters and goes on.
Here is what one step of the loop does, a fault included: it takes at least one character, and what it
leaves is the rest of the text. That a step moves on is clear for tokens and trivia. Behind a broken
literal nothing may be given up at all, when reading stopped at the end of the line, so there it rests on
what reading had taken before it broke.

From one step follows what a whole run reports. Each problem marks a part of the text between the step
that met it and the next one, so the problems come in the order of the text and do not overlap.
-/
import ClassChart.Batch
import ClassChart.Proofs.Text.Location
import ClassChart.Proofs.Token.Faults
import ClassChart.Proofs.Token.Run
import ClassChart.Proofs.Token.Scan

namespace ClassChart

open Text Lexeme Literal

/-! ## One step of the loop -/

/-- Where reading resumes behind a fault of the text: nowhere behind a comment that is never closed,
behind a stray character, and at the end of the line in which the reading of a literal stopped. -/
def Literal.Fault.resumption (fault : Fault) (text : List Char) : List Char :=
  match fault.code with
  | .unterminatedComment => []
  | .unexpectedCharacter => text.drop 1
  | _ => (text.drop fault.stop).dropWhile (· ≠ '\n')

/-- What is left of a text behind the lexeme at its head. -/
def Lexeme.behind (text : List Char) : Lexeme → List Char
  | trivia count => text.drop count
  | token _ count => text.drop count
  | broken fault => fault.resumption text

/-- What the lexeme at the head of a text adds to the scan of what is behind it. -/
def Lexeme.record (base : Nat) (text : List Char) (lexeme : Lexeme) (s : Scan) : Scan :=
  match lexeme with
  | trivia _ => s
  | token kind count =>
    s.addToken ⟨kind, String.ofList (text.take count), ⟨base, offsetAfter base text count⟩⟩
  | broken fault => s.addProblem (fault.diagnostic base text)

/-- A step of the loop at the head of `text` leaves `back`. -/
def Leaves (text back : List Char) : Prop :=
  ∃ c rest, text = c :: rest ∧ back = (ofText c rest).behind text

section Steps

variable {c : Char} {rest : List Char} {fault : Fault}

theorem resumption_literal (h : fault.code.isLiteral = true) (text : List Char) :
    fault.resumption text = (text.drop fault.stop).dropWhile (· ≠ '\n') := by
  obtain ⟨code, start, stop⟩ := fault
  cases code <;> first | rfl | cases h

theorem skipped_literal (h : fault.code.isLiteral = true) (rest : List Char) :
    fault.skipped rest = (fault.stop - 1) + restOfLine (rest.drop (fault.stop - 1)) := by
  obtain ⟨code, start, stop⟩ := fault
  cases code <;> first | rfl | cases h

theorem drop_pred {count : Nat} (hpos : 0 < count) : rest.drop (count - 1) = (c :: rest).drop count := by
  obtain ⟨count, rfl⟩ := Nat.exists_eq_succ_of_ne_zero (Nat.pos_iff_ne_zero.mp hpos)
  rfl

theorem drop_restOfLine (text : List Char) :
    text.drop (restOfLine text) = text.dropWhile (· ≠ '\n') := by
  have hsplit := List.takeWhile_append_dropWhile (p := fun c => decide (c ≠ '\n')) (l := text)
  have hdrop := congrArg (List.drop (restOfLine text)) hsplit
  rw [restOfLine, List.drop_left] at hdrop
  exact hdrop.symm

/-- What is given up behind a fault ends where reading resumes. -/
theorem drop_skipped (h : Breaks (c :: rest) fault) :
    rest.drop (fault.skipped rest) = fault.resumption (c :: rest) := by
  cases h with
  | literal inLiteral =>
      have hpos : 0 < fault.stop := Nat.lt_of_le_of_lt (Nat.zero_le _) inLiteral.start_lt
      rw [skipped_literal inLiteral.code, resumption_literal inLiteral.code, ← List.drop_drop,
        drop_restOfLine, drop_pred (c := c) hpos]
  | comment opened => exact List.drop_length
  | control text_eq isControl => rfl

/-- A step takes at least one character, and the loop goes on with the rest of the text. -/
theorem exists_step (base : Nat) (c : Char) (rest : List Char) :
    ∃ x, x ≠ [] ∧ c :: rest = x ++ (ofText c rest).behind (c :: rest) ∧
      scan base (c :: rest) = (ofText c rest).record base (c :: rest)
        (scan (base + byteLength x) ((ofText c rest).behind (c :: rest))) := by
  have hne {count : Nat} (hpos : 0 < count) : (c :: rest).take count ≠ [] := by
    simp only [ne_eq, List.take_eq_nil_iff, reduceCtorEq, or_false]
    omega
  have hsplit (count : Nat) : c :: rest = (c :: rest).take count ++ (c :: rest).drop count :=
    (List.take_append_drop count _).symm
  cases hlexeme : ofText c rest with
  | trivia count =>
      have hread : ofText? (c :: rest) = some (.trivia count) := by rw [ofText?, hlexeme]
      have hpos := (trivia?_count (trivia?_of_ofText? hread)).1
      refine ⟨(c :: rest).take count, hne hpos, hsplit count, ?_⟩
      simp only [scan, hlexeme, drop_pred (c := c) hpos]
      rfl
  | token kind count =>
      have hread : ofText? (c :: rest) = some (.token kind count) := by rw [ofText?, hlexeme]
      have hpos := (ofText?_token_endsWithin hread).1
      refine ⟨(c :: rest).take count, hne hpos, hsplit count, ?_⟩
      simp only [scan, hlexeme, terminal_token hread, drop_pred (c := c) hpos]
      rfl
  | broken fault =>
      have hback := drop_skipped (breaks_of_ofText hlexeme)
      refine ⟨(c :: rest).take (fault.skipped rest + 1), hne (Nat.succ_pos _), ?_, ?_⟩
      · rw [behind, ← hback]
        exact hsplit (fault.skipped rest + 1)
      · simp only [scan, hlexeme, hback]
        rfl

/-- What a step leaves is the end of the text, and shorter than it. -/
theorem Leaves.shrinks {text back : List Char} (h : Leaves text back) :
    back <:+ text ∧ back.length < text.length := by
  obtain ⟨c, rest, rfl, rfl⟩ := h
  obtain ⟨x, hne, htext, _⟩ := exists_step 0 c rest
  have hlength := congrArg List.length htext
  rw [List.length_append] at hlength
  have hpos := List.length_pos_iff.mpr hne
  exact ⟨⟨x, htext.symm⟩, by omega⟩

/-- So no text is read for ever. -/
theorem leaves_wellFounded : WellFounded fun back text => Leaves text back :=
  Subrelation.wf (fun h => h.shrinks.2) (measure List.length).wf

/-- What holds of the empty text and is kept by every step holds of every scan. The part of the source
before the text is kept beside it, since offsets count from there. -/
theorem scan_induction {motive : List Char → List Char → Scan → Prop}
    (nil : ∀ front, motive front [] ⟨[], []⟩)
    (step : ∀ front c rest x s, x ≠ [] → c :: rest = x ++ (ofText c rest).behind (c :: rest) →
      motive (front ++ x) ((ofText c rest).behind (c :: rest)) s →
      motive front (c :: rest) ((ofText c rest).record (byteLength front) (c :: rest) s))
    (front text : List Char) : motive front text (scan (byteLength front) text) := by
  induction text using leaves_wellFounded.induction generalizing front with
  | h text ih =>
      cases text with
      | nil =>
          rw [scan]
          exact nil front
      | cons c rest =>
          obtain ⟨x, hne, htext, hscan⟩ := exists_step (byteLength front) c rest
          have hlater := ih _ ⟨c, rest, rfl, rfl⟩ (front ++ x)
          rw [byteLength_append] at hlater
          rw [hscan]
          exact step front c rest x _ hne htext hlater

end Steps

/-! ## What a fault marks -/

/-- What the label of a lexical problem covers: a part of the source, or the first byte of a control
character. -/
inductive CoversFault (source : List Char) : ErrorCode → Span → Prop where
  | part {code : ErrorCode} {span : Span} {x rest : List Char} (lexical : code.isLexical = true)
      (nonempty : x ≠ []) (marks : span.Marks source x rest) : CoversFault source code span
  | control {front rest : List Char} {c : Char} (isControl : isControl c = true)
      (source_eq : source = front ++ c :: rest) :
      CoversFault source .unexpectedCharacter ⟨byteLength front, byteLength front + 1⟩

section Faults

variable {source text x front : List Char} {code : ErrorCode} {span : Span} {fault : Fault}

theorem isLexical_of_isLiteral (h : code.isLiteral = true) : code.isLexical = true := by
  cases code <;> first | rfl | cases h

theorem CoversFault.isLexical (h : CoversFault source code span) : code.isLexical = true := by
  cases h with
  | part lexical _ _ => exact lexical
  | control _ _ => rfl

/-- What is marked is not empty and lies within the source. -/
theorem CoversFault.within (h : CoversFault source code span) :
    span.start < span.stop ∧ span.stop ≤ byteLength source := by
  cases h with
  | part _ nonempty marks =>
      refine ⟨marks.start_lt nonempty, ?_⟩
      obtain ⟨front, rfl, rfl⟩ := marks
      simp only [byteLength_append]
      omega
  | control _ source_eq =>
      subst source_eq
      have hsize := Char.utf8Size_pos
      simp only [byteLength_append, byteLength_cons]
      exact ⟨Nat.lt_succ_self _, by have := hsize ‹Char›; omega⟩

/-- A text falls into three parts at two offsets. -/
theorem exists_between {start stop : Nat} (hle : start ≤ stop) (hstop : stop ≤ x.length) :
    ∃ before between behind, x = before ++ (between ++ behind) ∧ before.length = start ∧
      before.length + between.length = stop := by
  refine ⟨x.take start, (x.drop start).take (stop - start), (x.drop start).drop (stop - start), ?_, ?_, ?_⟩
  · rw [List.take_append_drop, List.take_append_drop]
  · rw [List.length_take]
    omega
  · rw [List.length_take, List.length_take, List.length_drop]
    omega

/-- A fault between two offsets of a text marks the characters between them. -/
theorem covers_between (hcode : fault.code.isLexical = true) (hlt : fault.start < fault.stop)
    (hle : fault.stop ≤ x.length) (htext : text = x ++ rest) (front : List Char) :
    ∃ span, (fault.diagnostic (byteLength front) text).labels = [⟨span, fault.code.description, true⟩] ∧
      byteLength front ≤ span.start ∧ span.stop ≤ byteLength (front ++ x) ∧
      CoversFault (front ++ text) fault.code span := by
  obtain ⟨before, between, behind, rfl, hstart, hstop⟩ := exists_between (Nat.le_of_lt hlt) hle
  have htext' : text = before ++ (between ++ (behind ++ rest)) := by simp [htext]
  have hne : between ≠ [] := by
    apply List.length_pos_iff.mp
    omega
  have hpos := byteLength_pos hne
  have htakeStart : text.take fault.start = before := by
    rw [htext', ← hstart, List.take_left]
  have htakeStop : text.take fault.stop = before ++ between := by
    rw [htext', ← hstop, ← List.length_append, ← List.append_assoc, List.take_left]
  have hspan : (⟨offsetAfter (byteLength front) text fault.start,
      max (offsetAfter (byteLength front) text fault.stop)
        (offsetAfter (byteLength front) text fault.start + 1)⟩ : Span) =
      ⟨byteLength (front ++ before), byteLength (front ++ before) + byteLength between⟩ := by
    simp only [offsetAfter, htakeStart, htakeStop, byteLength_append, Span.mk.injEq, true_and]
    omega
  refine ⟨_, rfl, Nat.le_add_right _ _, ?_, ?_⟩
  · rw [hspan]
    simp only [byteLength_append]
    omega
  · rw [hspan]
    exact .part hcode hne ⟨front ++ before, by rw [htext', List.append_assoc], rfl⟩

/-- The report of a fault has one label. It marks a part of what the step takes. -/
theorem Lexeme.Breaks.covers (h : Breaks text fault) (htext : text = x ++ fault.resumption text)
    (front : List Char) :
    ∃ span, (fault.diagnostic (byteLength front) text).labels = [⟨span, fault.code.description, true⟩] ∧
      byteLength front ≤ span.start ∧ span.stop ≤ byteLength (front ++ x) ∧
      CoversFault (front ++ text) fault.code span := by
  have hlength := congrArg List.length htext
  rw [List.length_append] at hlength
  cases h with
  | literal inLiteral =>
      have hrest : (fault.resumption text).length ≤ text.length - fault.stop := by
        rw [resumption_literal inLiteral.code, ← List.length_drop]
        exact (List.dropWhile_suffix _).length_le
      have hstop := inLiteral.stop_le
      exact covers_between (isLexical_of_isLiteral inLiteral.code) inLiteral.start_lt (by omega) htext
        front
  | comment opened =>
      have hrest : (Fault.resumption ⟨.unterminatedComment, 0, 2⟩ text).length = 0 := rfl
      exact covers_between rfl (by decide) (by show 2 ≤ x.length; omega) htext front
  | @control c rest text_eq isControl =>
      subst text_eq
      have hx : x = [c] := List.append_cancel_right (htext.symm.trans (List.singleton_append).symm)
      subst hx
      have hsize := c.utf8Size_pos
      refine ⟨⟨byteLength front, byteLength front + 1⟩, ?_, Nat.le_refl _, ?_, .control isControl rfl⟩
      · simp [Fault.diagnostic, offsetAfter]
      · simp only [byteLength_append, byteLength_cons, byteLength_nil]
        omega

/-- Reading resumes at the end of a line, or does not resume. -/
theorem resumption_line (h : fault.code.isLiteral = true) (text : List Char) :
    fault.resumption text = [] ∨ ∃ more, fault.resumption text = '\n' :: more := by
  rw [resumption_literal h]
  cases hdrop : (text.drop fault.stop).dropWhile (· ≠ '\n') with
  | nil => exact Or.inl rfl
  | cons c more =>
      have hhead := List.head?_dropWhile_not (· ≠ '\n') (text.drop fault.stop)
      rw [hdrop] at hhead
      have hc : c = '\n' := by simpa using hhead
      exact Or.inr ⟨more, by rw [hc]⟩

end Faults

/-! ## What a run reports -/

/-- A line ends at the offset. -/
def Text.LineEndsAt (source : List Char) (offset : Nat) : Prop :=
  ∃ front back, source = front ++ '\n' :: back ∧ byteLength front = offset

/-- How a lexical problem stands to a later one. Nothing is reported behind a comment that is never
closed, and behind a broken literal nothing before the end of the line. -/
structure Diagnostic.Precedes (source : List Char) (d later : Diagnostic) : Prop where
  resumed : d.code ≠ some .unterminatedComment
  ends : ∀ label ∈ d.labels, ∀ label' ∈ later.labels,
    label.span.start < label'.span.start ∧ label.span.stop ≤ label'.span.start
  line : ∀ code, d.code = some code → code.isLiteral = true →
    ∀ label ∈ d.labels, ∀ label' ∈ later.labels,
      ∃ offset, LineEndsAt source offset ∧ label.span.stop ≤ offset ∧ offset ≤ label'.span.start

/-- The problem has one label, which covers what it is about and does not begin before the offset. -/
def Diagnostic.Covers (source : List Char) (base : Nat) (d : Diagnostic) : Prop :=
  ∃ code span, d.code = some code ∧ d.labels = [⟨span, code.description, true⟩] ∧
    base ≤ span.start ∧ CoversFault source code span

/-- What the scan of `text` behind `front` reports. -/
structure Reported (front text : List Char) (s : Scan) : Prop where
  covers : ∀ d ∈ s.problems, d.Covers (front ++ text) (byteLength front)
  ordered : s.problems.Pairwise (Diagnostic.Precedes (front ++ text))

section Reports

variable {front text x : List Char} {s : Scan} {fault : Fault}

/-- There is nothing to report about the empty text. -/
theorem Reported.problems_eq_nil (h : Reported front [] s) : s.problems = [] := by
  apply List.eq_nil_iff_forall_not_mem.mpr
  intro d hd
  obtain ⟨code, span, _, _, hstart, hcovers⟩ := h.covers d hd
  have hwithin := hcovers.within
  rw [List.append_nil] at hwithin
  omega

/-- What is reported about the end of a text is reported about the whole. -/
theorem Reported.prepend (h : Reported (front ++ x) text s) : Reported front (x ++ text) s := by
  obtain ⟨hcovers, hordered⟩ := h
  rw [List.append_assoc] at hcovers hordered
  refine ⟨fun d hd => ?_, hordered⟩
  obtain ⟨code, span, hcode, hlabels, hstart, hfault⟩ := hcovers d hd
  rw [byteLength_append] at hstart
  exact ⟨code, span, hcode, hlabels, by omega, hfault⟩

/-- A fault precedes everything that is reported behind it. -/
theorem Reported.addProblem (h : Reported (front ++ x) (fault.resumption text) s)
    (hbreaks : Breaks text fault) (htext : text = x ++ fault.resumption text) :
    Reported front text (s.addProblem (fault.diagnostic (byteLength front) text)) := by
  obtain ⟨span, hlabels, hstart, hstop, hcovers⟩ := hbreaks.covers htext front
  have hlater := h.prepend
  rw [← htext] at hlater
  have hspan := hcovers.within
  constructor
  · intro d hd
    rcases List.mem_cons.mp hd with rfl | hd
    · exact ⟨fault.code, span, rfl, hlabels, hstart, hcovers⟩
    · exact hlater.covers d hd
  · refine List.pairwise_cons.mpr ⟨fun later hd => ?_, hlater.ordered⟩
    -- There is a later problem, so reading went on behind the fault.
    have hresumed : fault.resumption text ≠ [] := by
      intro hnil
      rw [hnil] at h
      rw [h.problems_eq_nil] at hd
      exact absurd hd List.not_mem_nil
    obtain ⟨code', span', _, hlabels', hstart', _⟩ := h.covers later hd
    refine ⟨?_, ?_, ?_⟩
    · intro hcode
      apply hresumed
      rw [Fault.resumption, Option.some.inj hcode]
    · intro label hlabel label' hlabel'
      rw [hlabels, List.mem_singleton] at hlabel
      rw [hlabels', List.mem_singleton] at hlabel'
      subst hlabel hlabel'
      exact ⟨by show span.start < span'.start; omega, Nat.le_trans hstop hstart'⟩
    · intro code hcode hliteral label hlabel label' hlabel'
      rw [hlabels, List.mem_singleton] at hlabel
      rw [hlabels', List.mem_singleton] at hlabel'
      subst hlabel hlabel'
      rw [← Option.some.inj hcode] at hliteral
      obtain hnil | ⟨more, hline⟩ := resumption_line hliteral text
      · exact absurd hnil hresumed
      · refine ⟨byteLength (front ++ x), ⟨front ++ x, more, ?_, rfl⟩, hstop, hstart'⟩
        rw [← hline, List.append_assoc, ← htext]

/-- Along the whole loop, the problems mark separate parts of the text, in its order. -/
theorem scan_reported (front text : List Char) : Reported front text (scan (byteLength front) text) := by
  refine scan_induction ?_ ?_ front text
  · intro front
    exact ⟨fun d hd => absurd hd List.not_mem_nil, .nil⟩
  · intro front c rest x s _ htext hlater
    have hwhole := hlater.prepend
    rw [← htext] at hwhole
    cases hlexeme : ofText c rest with
    | trivia count => exact hwhole
    | token kind count => exact ⟨hwhole.covers, hwhole.ordered⟩
    | broken fault =>
        rw [hlexeme] at htext hlater
        exact hlater.addProblem (breaks_of_ofText hlexeme) htext

theorem tokenize_error {source : String} {error : ParseError} (h : tokenize source = .error error) :
    error.diagnostics ≠ [] ∧ error.diagnostics = (scan 0 source.toList).problems := by
  unfold tokenize Scan.result at h
  split at h
  · cases h
  · rename_i hproblems
    cases h
    exact ⟨fun hnil => hproblems (List.isEmpty_iff.mpr hnil), rfl⟩

end Reports

/-! ## The place of a failure -/

/-- The problems of a text, in the order of the text and apart from each other. -/
structure ParseError.InOrder (source : List Char) (error : ParseError) : Prop where
  nonempty : error.diagnostics ≠ []
  marks : ∀ d ∈ error.diagnostics, ∃ code span, d.code = some code ∧ code.isLexical = true ∧
    d.labels = [⟨span, code.description, true⟩] ∧ span.start < span.stop ∧
    span.stop ≤ byteLength source
  ordered : error.diagnostics.Pairwise (Diagnostic.Precedes source)

/-- The position of the failure is that of a problem, and every other problem comes later. -/
def UnitFailure.LocatesEarliest (f : UnitFailure) : Prop :=
  ∃ first later label, f.error.diagnostics = first :: later ∧ first.labels = [label] ∧
    f.location? = some (label.span.location f.source.toList) ∧
    ∀ d ∈ later, ∀ label' ∈ d.labels, label.span.start < label'.span.start ∧
      (label.span.location f.source.toList).NotAfter (label'.span.location f.source.toList)

theorem inOrder_of_tokenize {source : String} {error : ParseError} (h : tokenize source = .error error) :
    error.InOrder source.toList := by
  obtain ⟨hne, hproblems⟩ := tokenize_error h
  have hreported := scan_reported [] source.toList
  rw [byteLength_nil] at hreported
  refine ⟨hne, fun d hd => ?_, hproblems ▸ hreported.ordered⟩
  obtain ⟨code, span, hcode, hlabels, _, hcovers⟩ := hreported.covers d (hproblems ▸ hd)
  exact ⟨code, span, hcode, hcovers.isLexical, hlabels, hcovers.within.1, hcovers.within.2⟩

theorem ParseError.InOrder.locatesEarliest {source : List Char} {f : UnitFailure}
    (h : f.error.InOrder source) : f.LocatesEarliest := by
  cases hproblems : f.error.diagnostics with
  | nil => exact absurd hproblems h.nonempty
  | cons first later =>
      obtain ⟨code, span, _, _, hlabels, _⟩ :=
        h.marks first (hproblems ▸ List.mem_cons_self)
      refine ⟨first, later, _, hproblems, hlabels, ?_, ?_⟩
      · simp [UnitFailure.location?, Diagnostic.primarySpan?, hproblems, hlabels]
      · intro d hd label' hlabel'
        have hordered := h.ordered
        rw [hproblems] at hordered
        have hends := ((List.pairwise_cons.mp hordered).1 d hd).ends _
          (hlabels ▸ List.mem_singleton_self _) label' hlabel'
        exact ⟨hends.1, Span.location_notAfter (Nat.le_of_lt hends.1) _⟩

/-- The loop takes a character or more at each step, also behind a fault, and so comes to an end. When
it reports problems, their labels are separate parts of the text in its order; a comment that is never
closed is the last of them, and what follows a broken literal does not begin before the next line. The
position of a unit that fails so is that of its first problem. -/
theorem tokenize_recovers (source : String) :
    (∀ base c rest, ∃ x back, x ≠ [] ∧ c :: rest = x ++ back ∧ Leaves (c :: rest) back ∧
      scan base (c :: rest) =
        (ofText c rest).record base (c :: rest) (scan (base + byteLength x) back)) ∧
    (WellFounded fun back text => Leaves text back) ∧
    ∀ error, tokenize source = .error error →
      error.InOrder source.toList ∧
      ∀ (settings : Settings) (unit : SourceUnit), stripMark unit.text = source →
        ∃ failure, unit.extract settings = .error failure ∧ failure.error = error ∧
          failure.LocatesEarliest := by
  refine ⟨?_, leaves_wellFounded, ?_⟩
  · intro base c rest
    obtain ⟨x, hne, htext, hscan⟩ := exists_step base c rest
    exact ⟨x, _, hne, htext, ⟨c, rest, rfl, rfl⟩, hscan⟩
  · intro error herror
    have horder := inOrder_of_tokenize herror
    refine ⟨horder, fun settings unit hunit => ?_⟩
    have hparse : parse settings.defaultValues unit.text = .error error := by
      rw [parse, hunit, Grammar.parseTree, herror]
    exact ⟨⟨unit.name, unit.text, error⟩, by rw [SourceUnit.extract, hparse], rfl,
      horder.locatesEarliest⟩

/-- Four faults on four lines: a literal of two characters, a control character, an escape that does not
exist, and a comment without an end. -/
def faultyText : String := "'ab' 'cd'\nint \u0001 x;\ns = \"é\\q\"; \u0001\n/* "

theorem tokenize_recovers_faultyText :
    ∃ error, tokenize faultyText = .error error ∧
      error.diagnostics.map (·.code) = [some .unterminatedCharacter, some .unexpectedCharacter,
        some .invalidEscape, some .unterminatedComment] ∧
      error.InOrder faultyText.toList ∧
      ∃ failure, (SourceUnit.mk "faulty" faultyText).extract .standard = .error failure ∧
        failure.LocatesEarliest := by
  have hproblems : (scan 0 faultyText.toList).problems.isEmpty = false := by decide +kernel
  have herror : tokenize faultyText = .error ⟨(scan 0 faultyText.toList).problems⟩ := by
    rw [tokenize, Scan.result, hproblems]
    rfl
  obtain ⟨horder, hunits⟩ := (tokenize_recovers faultyText).2.2 _ herror
  obtain ⟨failure, hfailure, _, hlocates⟩ := hunits .standard ⟨"faulty", faultyText⟩ (by decide +kernel)
  exact ⟨_, herror, by decide +kernel, horder, failure, hfailure, hlocates⟩

end ClassChart
