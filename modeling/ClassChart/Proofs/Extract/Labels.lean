/-
# ClassChart.Proofs.Extract.Labels — what the labels of a failed unit mark

Labels come from three places. A lexical problem marks what was read of a construct, a grammatical one
marks tokens or the end of the last one, and a rejected default marks its token. All of them lie within the
source and begin at a character, and all of them end at one too, with one exception: a stray control
character is marked with a single byte, and those behind the delete character take two.
-/
import ClassChart.Proofs.Extract.Policies
import ClassChart.Proofs.Grammar.Blame
import ClassChart.Proofs.Token.Recovery

namespace ClassChart

open Text Grammar Extract

/-! ## Spans that can be sliced -/

/-- The span lies within the text and covers whole characters. -/
structure Span.Sliceable (source : List Char) (s : Span) : Prop where
  start_le : s.start ≤ s.stop
  within : s.stop ≤ byteLength source
  starts : IsBoundary source s.start
  stops : IsBoundary source s.stop

/-- The span is the first of the two bytes of a control character. -/
def Span.HalvesControl (source : List Char) (s : Span) : Prop :=
  ∃ front c rest, source = front ++ c :: rest ∧ isControl c = true ∧ c.utf8Size = 2 ∧
    s = ⟨byteLength front, byteLength front + 1⟩

section Spans

variable {source x rest : List Char} {s : Span} {stop : Nat}

theorem Text.IsBoundary.le (h : IsBoundary source stop) : stop ≤ byteLength source := by
  obtain ⟨front, back, rfl, rfl⟩ := h
  rw [byteLength_append]
  exact Nat.le_add_right _ _

theorem Span.Marks.sliceable (h : s.Marks source x rest) : s.Sliceable source :=
  ⟨h.start_le, h.isBoundary_stop.le, h.isBoundary_start, h.isBoundary_stop⟩

/-- An empty span between characters. -/
theorem sliceable_point (h : IsBoundary source stop) : Span.Sliceable source ⟨stop, stop⟩ :=
  ⟨Nat.le_refl _, h.le, h, h⟩

/-- Half a character cannot be sliced out. -/
theorem Span.HalvesControl.not_isBoundary (h : s.HalvesControl source) :
    ¬ IsBoundary source s.stop := by
  obtain ⟨front, c, rest, rfl, _, hsize, rfl⟩ := h
  rintro ⟨front', back, htext, hstop⟩
  change byteLength front' = byteLength front + 1 at hstop
  rcases List.append_eq_append_iff.mp htext with ⟨x, rfl, hrest⟩ | ⟨x, rfl, hrest⟩
  · -- The cut lies behind the start of the character, so it has all of it before it.
    cases x with
    | nil =>
        rw [List.append_nil] at hstop
        omega
    | cons d x =>
        obtain ⟨rfl, _⟩ := List.cons.inj hrest
        rw [byteLength_append, byteLength_cons] at hstop
        omega
  · rw [byteLength_append] at hstop
    omega

/-- Control characters are the first of their code. -/
theorem utf8Size_of_isControl {c : Char} (h : isControl c = true) : c.utf8Size = 1 ∨ c.utf8Size = 2 := by
  have hcode : c.val.toNat ≤ 0x9F := by
    simp only [isControl, inRanges, CodeRange.holds, List.any_cons, List.any_nil, Bool.or_false,
      Bool.or_eq_true, Bool.and_eq_true, decide_eq_true_eq] at h
    change 0 ≤ c.val.toNat ∧ c.val.toNat ≤ 0x1F ∨ 0x7F ≤ c.val.toNat ∧ c.val.toNat ≤ 0x9F at h
    omega
  by_cases hascii : c.val ≤ 0x7F
  · exact Or.inl (Char.utf8Size_eq_one_iff.mpr hascii)
  · refine Or.inr (Char.utf8Size_eq_two_iff.mpr ⟨UInt32.not_le.mp hascii, ?_⟩)
    rw [UInt32.le_iff_toNat_le]
    exact Nat.le_trans hcode (by decide)

end Spans

/-! ## Labels -/

/-- What a label marks in a diagnostic with the given code: a span within the source that begins at a
character, and ends at one unless it halves a control character. Only a stray character is marked so. -/
structure Label.Fits (source : List Char) (code : Option ErrorCode) (label : Label) : Prop where
  start_le : label.span.start ≤ label.span.stop
  within : label.span.stop ≤ byteLength source
  starts : IsBoundary source label.span.start
  stops : IsBoundary source label.span.stop ↔ ¬ label.span.HalvesControl source
  halves : label.span.HalvesControl source → code = some .unexpectedCharacter

section Labels

variable {source : String} {text : List Char} {tokens : List Token} {code : Option ErrorCode}
  {label : Label} {t : Token}

theorem Span.Sliceable.fits (h : label.span.Sliceable text) : label.Fits text code where
  start_le := h.start_le
  within := h.within
  starts := h.starts
  stops := iff_of_true h.stops fun hhalves => hhalves.not_isBoundary h.stops
  halves hhalves := absurd h.stops hhalves.not_isBoundary

theorem Span.HalvesControl.fits (h : label.span.HalvesControl text) :
    label.Fits text (some .unexpectedCharacter) := by
  refine ⟨?_, ?_, ?_, iff_of_false h.not_isBoundary (not_not_intro h), fun _ => rfl⟩ <;>
    obtain ⟨front, c, rest, rfl, _, hsize, hspan⟩ := h <;> rw [hspan]
  · exact Nat.le_succ _
  · simp only [byteLength_append, byteLength_cons]
    omega
  · exact ⟨front, c :: rest, rfl, rfl⟩

/-- A lexical problem. -/
theorem CoversFault.fits {found : ErrorCode} (h : CoversFault text found label.span) :
    label.Fits text (some found) := by
  obtain ⟨span, message, primary⟩ := label
  cases h with
  | part _ _ marks => exact Span.Sliceable.fits marks.sliceable
  | @control front rest c isControl source_eq =>
      rcases utf8Size_of_isControl isControl with hsize | hsize
      · have hmarks : Span.Marks ⟨byteLength front, byteLength front + 1⟩ text [c] rest :=
          ⟨front, source_eq, by simp [hsize]⟩
        exact Span.Sliceable.fits hmarks.sliceable
      · exact Span.HalvesControl.fits ⟨front, c, rest, source_eq, isControl, hsize, rfl⟩

theorem sliceable_token (htokens : tokenize source = .ok tokens) (ht : t ∈ tokens) :
    t.span.Sliceable source.toList := by
  obtain ⟨_, rest, hmarks⟩ := (run_of_tokenize htokens).marks ht byteLength_nil
  rw [List.nil_append, List.append_nil] at hmarks
  exact hmarks.sliceable

/-- A grammatical problem marks tokens, or the place behind the last one. -/
theorem sliceable_refusal {refusal : Refusal} {e : Phrase} (htokens : tokenize source = .ok tokens)
    (h : refusal.Viable e tokens) (hlabel : label ∈ (refusal.diagnostic tokens).labels) :
    label.span.Sliceable source.toList := by
  obtain ⟨front, hrest, _⟩ := h.front
  unfold Refusal.diagnostic at hlabel
  cases hfound : refusal.rest with
  | nil =>
      rw [hfound] at hlabel
      obtain rfl := List.mem_singleton.mp hlabel
      cases hlast : tokens.getLast? with
      | none => exact sliceable_point ⟨[], source.toList, rfl, rfl⟩
      | some last => exact sliceable_point (sliceable_token htokens (List.mem_of_getLast? hlast)).stops
  | cons found later =>
      rw [hfound] at hlabel hrest
      rcases List.mem_cons.mp hlabel with rfl | hsecond
      · exact sliceable_token htokens (hrest ▸ List.mem_append_right front List.mem_cons_self)
      · cases hconstruct : refusal.construct with
        | none =>
            rw [hconstruct] at hsecond
            exact absurd hsecond List.not_mem_nil
        | some construct =>
            have hsuffix := h.construct construct hconstruct
            rw [hconstruct] at hsecond
            cases construct with
            | nil => exact absurd hsecond List.not_mem_nil
            | cons start more =>
                simp only at hsecond
                split at hsecond
                · obtain rfl := List.mem_singleton.mp hsecond
                  exact sliceable_token htokens (hsuffix.subset List.mem_cons_self)
                · exact absurd hsecond List.not_mem_nil

theorem parseTree_fits {error : ParseError} {d : Diagnostic} (h : parseTree source = .error error)
    (hd : d ∈ error.diagnostics) (hlabel : label ∈ d.labels) : label.Fits source.toList d.code := by
  unfold parseTree at h
  split at h
  · rename_i found htokens
    cases h
    have hreported := scan_reported [] source.toList
    obtain ⟨code, span, hcode, hlabels, _, hcovers⟩ :=
      hreported.covers d ((tokenize_error htokens).2 ▸ hd)
    rw [hlabels] at hlabel
    obtain rfl := List.mem_singleton.mp hlabel
    rw [hcode]
    exact hcovers.fits
  · rename_i tokens htokens
    split at h
    · rename_i found hbuild
      cases h
      obtain rfl := List.mem_singleton.mp hd
      obtain ⟨refusal, hrefusal, rfl⟩ := buildTree_eq_error_iff.mp hbuild
      exact (sliceable_refusal htokens (unitParts_completes.viable tokens refusal hrefusal) hlabel).fits
    · cases h

/-- A rejected default marks its token. -/
theorem rejected_fits {policy : DefaultPolicy} {tree : Tree} {error : ParseError} {d : Diagnostic}
    (htree : parseTree (stripMark source) = .ok tree) (h : parse policy source = .error error)
    (hd : d ∈ error.diagnostics) (hlabel : label ∈ d.labels) :
    label.Fits (stripMark source).toList d.code := by
  obtain ⟨dropped, kept, htreated⟩ := exists_treated htree
  cases policy with
  | drop =>
      rw [htreated.drop_eq] at h
      cases h
  | keep =>
      rw [htreated.keep_eq] at h
      cases h
  | reject =>
      cases hdefaults : unsupportedDefaults tree with
      | nil =>
          rw [(htreated.same hdefaults).2] at h
          cases h
      | cons t rest =>
          obtain ⟨found, hreject, _, hspans⟩ := htreated.first t rest hdefaults
          rw [hreject] at h
          cases h
          obtain rfl := List.mem_singleton.mp hd
          have hspan : label.span = t.span := by
            have hmem := List.mem_map_of_mem (f := Label.span) hlabel
            rw [hspans] at hmem
            exact List.mem_singleton.mp hmem
          obtain ⟨tokens, htokens, hvalues, _⟩ := htreated.ordered
          have ht : t ∈ (sites tree).filterMap Site.value? := by
            have hmem : t ∈ unsupportedDefaults tree := hdefaults ▸ List.mem_cons_self
            rw [unsupportedDefaults_eq] at hmem
            exact (List.mem_filter.mp hmem).1
          apply Span.Sliceable.fits
          rw [hspan]
          exact sliceable_token htokens (hvalues.subset ht)

end Labels

/-- Under every policy, all labels of a failed source lie within it and begin at a character. They end at
one as well, but for those that mark a stray control character of two bytes. -/
theorem parse_labels_fit {policy : DefaultPolicy} {source : String} {error : ParseError}
    (h : parse policy source = .error error) :
    ∀ d ∈ error.diagnostics, ∀ label ∈ d.labels, label.Fits (stripMark source).toList d.code := by
  intro d hd label hlabel
  rcases parse_error h with htree | ⟨tree, _, htree, _, _⟩
  · exact parseTree_fits htree hd hlabel
  · exact rejected_fits htree h hd hlabel

/-- What is said of the only error of a result is said of the error it failed with. -/
theorem exists_of_errors {ε α β : Type} {x : Except ε α} {f : ε → β} {b : β}
    (h : (errors [x]).map f = [b]) : ∃ error, x = .error error ∧ f error = b := by
  cases x with
  | ok value => exact absurd h (by simp [errors])
  | error error => exact ⟨error, rfl, by simpa [errors] using h⟩

/-- A missing semicolon among names that are not ASCII. -/
def accentedUnit : String := "namespace Ñ \x7b class Ä \x7b int é \x7d \x7d"

theorem parse_labels_fit_accented :
    ∃ error, parse .reject accentedUnit = .error error ∧
      error.diagnostics.map (fun d => d.labels.map (·.span)) = [[⟨33, 34⟩, ⟨26, 29⟩]] ∧
      ∀ d ∈ error.diagnostics, ∀ label ∈ d.labels, label.Fits (stripMark accentedUnit).toList d.code := by
  have hspans : (errors [parse .reject accentedUnit]).map
      (fun error => error.diagnostics.map fun d => d.labels.map (·.span)) = [[[⟨33, 34⟩, ⟨26, 29⟩]]] := by
    decide +kernel
  obtain ⟨error, hparse, hlabels⟩ := exists_of_errors hspans
  exact ⟨error, hparse, hlabels, parse_labels_fit hparse⟩

/-- The label of a stray control character of two bytes ends inside it. -/
theorem parse_label_halves :
    ∃ error, parse .drop "\u0080" = .error error ∧ ∃ d ∈ error.diagnostics, ∃ label ∈ d.labels,
      label.span = ⟨0, 1⟩ ∧ ¬ IsBoundary (stripMark "\u0080").toList label.span.stop := by
  have hspans : (errors [parse .drop "\u0080"]).map
      (fun error => error.diagnostics.map fun d => d.labels.map (·.span)) = [[[⟨0, 1⟩]]] := by
    decide +kernel
  obtain ⟨error, hparse, hdiagnostics⟩ := exists_of_errors hspans
  obtain ⟨d, hd, hlabels⟩ := List.map_eq_singleton_iff.mp hdiagnostics
  obtain ⟨label, hlabel, hspan⟩ := List.map_eq_singleton_iff.mp hlabels
  have hhalves : label.span.HalvesControl (stripMark "\u0080").toList :=
    ⟨[], '\u0080', [], by decide +kernel, by decide, by decide, hspan⟩
  exact ⟨error, hparse, d, by simp [hd], label, by simp [hlabel], hspan, hhalves.not_isBoundary⟩

end ClassChart
