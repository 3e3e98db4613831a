/-
# ClassChart.Proofs.Token.Spacing — other gaps between the same tokens

A source that can be read is a list of pieces, a token with the gap before it each, and a last gap. Other
gaps may take the place of these, as long as there is something between two tokens where there was
something before: blanks stop every token, and the comments and blanks of the source stopped it too.
Where a gap is left as it is, the token before it sees the same text up to the next gap that is not, so
two sources are compared through how far they agree.
-/
import ClassChart.Proofs.Token.Lossless
import ClassChart.Proofs.Token.Word

namespace ClassChart

open Text Lexeme

/-- Two tokens of the same kind and text, wherever they stand. -/
def Token.Like (t t' : Token) : Prop := t'.kind = t.kind ∧ t'.text = t.text

/-! ## Pieces -/

/-- A token and the gap before it. -/
structure Piece where
  gap : List Char
  kind : TokenKind
  text : List Char

namespace Piece

/-- The pieces one behind the other. -/
def written : List Piece → List Char
  | [] => []
  | p :: ps => p.gap ++ (p.text ++ written ps)

/-- The tokens of pieces that are written from an offset on. -/
def tokens (base : Nat) : List Piece → List Token
  | [] => []
  | p :: ps => .placed (base + byteLength p.gap) p.kind p.text ::
      tokens (base + byteLength p.gap + byteLength p.text) ps

/-- The spans of the gaps of pieces that are written from an offset on. -/
def gapSpans (base : Nat) : List Piece → List Span
  | [] => []
  | p :: ps => ⟨base, base + byteLength p.gap⟩ :: gapSpans (base + byteLength p.gap + byteLength p.text) ps

/-- Two pieces with the same token, whatever their gaps. -/
def SameToken (p p' : Piece) : Prop := p'.kind = p.kind ∧ p'.text = p.text

section Pieces

variable {base stop : Nat} {p : Piece} {ps qs : List Piece}

@[simp] theorem written_nil : written [] = [] := rfl

@[simp] theorem written_cons : written (p :: ps) = p.gap ++ (p.text ++ written ps) := rfl

@[simp] theorem written_append : written (ps ++ qs) = written ps ++ written qs := by
  induction ps with
  | nil => rfl
  | cons p ps ih => simp [ih]

theorem byteLength_written_cons : byteLength (written (p :: ps)) =
    byteLength p.gap + byteLength p.text + byteLength (written ps) := by
  simp [Nat.add_assoc]

theorem tokens_append :
    tokens base (ps ++ qs) = tokens base ps ++ tokens (base + byteLength (written ps)) qs := by
  induction ps generalizing base with
  | nil => rfl
  | cons p ps ih =>
      rw [List.cons_append, tokens, tokens, ih, List.cons_append, byteLength_written_cons]
      simp only [Nat.add_assoc]

theorem length_tokens : (tokens base ps).length = ps.length := by
  induction ps generalizing base with
  | nil => rfl
  | cons p ps ih => rw [tokens, List.length_cons, List.length_cons, ih]

theorem forall₂_tokens {ps' : List Piece} (hsame : List.Forall₂ SameToken ps ps') (base base' : Nat) :
    List.Forall₂ Token.Like (tokens base ps) (tokens base' ps') := by
  induction hsame generalizing base base' with
  | nil => exact .nil
  | cons hp _ ih => exact .cons ⟨hp.1, congrArg String.ofList hp.2⟩ (ih _ _)

/-- Where the tokens are taken apart, the pieces are too. -/
theorem exists_append {us vs : List Token} (h : tokens base ps = us ++ vs) :
    ∃ qs rs, ps = qs ++ rs ∧ tokens base qs = us ∧ tokens (base + byteLength (written qs)) rs = vs := by
  have hlength := congrArg List.length h
  rw [length_tokens, List.length_append] at hlength
  have hsplit := List.take_append_drop us.length ps
  refine ⟨ps.take us.length, ps.drop us.length, hsplit.symm, ?_⟩
  rw [← hsplit, tokens_append] at h
  refine List.append_inj h ?_
  rw [length_tokens, List.length_take]
  omega

/-- What relates the gaps of pieces to other ones is taken apart with the pieces. -/
theorem forall₂_gapSpans_append {R : Span → List Char → Prop} {ps' qs' : List Piece}
    (hsame : List.Forall₂ SameToken ps ps')
    (h : List.Forall₂ R (gapSpans base (ps ++ qs)) ((ps' ++ qs').map gap)) :
    List.Forall₂ R (gapSpans base ps) (ps'.map gap) ∧
      List.Forall₂ R (gapSpans (base + byteLength (written ps)) qs) (qs'.map gap) := by
  induction hsame generalizing base with
  | nil => exact ⟨.nil, h⟩
  | cons _ _ ih =>
      cases h with | cons hgap h =>
      obtain ⟨hfront, hback⟩ := ih h
      rw [byteLength_written_cons, ← Nat.add_assoc, ← Nat.add_assoc]
      exact ⟨.cons hgap hfront, hback⟩

/-- The spans of the gaps mark the gaps. -/
theorem map_slice_gapSpans (front back : List Char) (ps : List Piece) :
    (gapSpans (byteLength front) ps).map (·.slice (front ++ (written ps ++ back))) = ps.map gap := by
  induction ps generalizing front with
  | nil => rfl
  | cons p ps ih =>
      have hgap := Span.slice_between front p.gap (p.text ++ (written ps ++ back))
      have hmore := ih (front ++ (p.gap ++ p.text))
      simp only [byteLength_append, List.append_assoc, ← Nat.add_assoc] at hmore
      simp only [gapSpans, List.map_cons, written_cons, List.append_assoc, hgap, hmore]

theorem marks_of_mem_gapSpans (front back : List Char) (ps : List Piece) :
    ∀ g ∈ gapSpans (byteLength front) ps, ∃ x rest, g.Marks (front ++ (written ps ++ back)) x rest := by
  induction ps generalizing front with
  | nil => exact fun g hg => absurd hg List.not_mem_nil
  | cons p ps ih =>
      intro g hg
      rcases List.mem_cons.mp hg with rfl | hg
      · exact ⟨p.gap, p.text ++ (written ps ++ back), front, by simp, rfl⟩
      · have hmore := ih (front ++ (p.gap ++ p.text)) g
        simp only [byteLength_append, List.append_assoc, ← Nat.add_assoc] at hmore
        simpa only [written_cons, List.append_assoc] using hmore hg

/-- A gap lies before a token that is not empty. -/
theorem within_of_mem_gapSpans (hne : ∀ p ∈ ps, p.text ≠ []) :
    ∀ g ∈ gapSpans base ps, base ≤ g.start ∧ g.stop < base + byteLength (written ps) := by
  induction ps generalizing base with
  | nil => exact fun g hg => absurd hg List.not_mem_nil
  | cons p ps ih =>
      rw [List.forall_mem_cons] at hne
      have hpos := byteLength_pos hne.1
      rw [byteLength_written_cons]
      intro g hg
      rcases List.mem_cons.mp hg with rfl | hg
      · exact ⟨Nat.le_refl _, by show base + byteLength p.gap < _; omega⟩
      · have hwithin := ih hne.2 g hg
        omega

end Pieces

/-! ## Pieces that are read -/

/-- Each token is read before what follows it, and the gaps are trivia; `rest` follows the last piece. -/
inductive Reads (rest : List Char) : List Piece → Prop where
  | nil : Reads rest []
  | cons {p : Piece} {ps : List Piece} (gap : Run (p.text ++ (written ps ++ rest)) 0 p.gap [])
      (token : ofText? (p.text ++ (written ps ++ rest)) = some (.token p.kind p.text.length))
      (more : Reads rest ps) : Reads rest (p :: ps)

section Reading

variable {base : Nat} {rest rest' text : List Char} {ts : List Token} {ps ps' : List Piece}

/-- A run is a list of pieces and a last gap. -/
theorem exists_of_run (h : Run rest base text ts) :
    ∃ ps last, text = written ps ++ last ∧ ts = tokens base ps ∧ Reads (last ++ rest) ps ∧
      Run rest 0 last [] := by
  induction ts generalizing base text with
  | nil => exact ⟨[], text, rfl, rfl, .nil, h.move 0⟩
  | cons t ts ih =>
      rw [← List.nil_append (t :: ts)] at h
      obtain ⟨kind, gap, x, behind, rfl, rfl, hgap, hread, hbehind⟩ := h.split
      obtain ⟨ps, last, rfl, rfl, hreads, hlast⟩ := ih hbehind
      rw [List.append_assoc] at hgap hread
      refine ⟨⟨gap, kind, x⟩ :: ps, last, by simp, rfl, .cons ?_ hread hreads, hlast⟩
      exact hgap.move 0

/-- Pieces that are read make up a run. -/
theorem Reads.run (h : Reads rest ps) (base : Nat) : Run rest base (written ps) (tokens base ps) := by
  induction h generalizing base with
  | nil => exact .done
  | @cons p ps gap token _ ih =>
      have hmore := ih (base + byteLength p.gap + byteLength p.text)
      have hgap : Run ((p.text ++ written ps) ++ rest) base p.gap [] := by
        rw [List.append_assoc]
        exact gap.move base
      exact hgap.append (.token token hmore)

theorem Reads.ne_nil (h : Reads rest ps) : ∀ p ∈ ps, p.text ≠ [] := by
  induction h with
  | nil => exact fun p hp => absurd hp List.not_mem_nil
  | cons _ token _ ih =>
      rw [List.forall_mem_cons]
      exact ⟨List.length_pos_iff.mp (ofText?_token_endsWithin token).1, ih⟩

end Reading

/-! ## How far two texts agree -/

/-- The texts agree up to a place where neither goes on with a token. -/
def Agree (old new : List Char) : Prop :=
  ∃ common rest rest', old = common ++ rest ∧ new = common ++ rest' ∧
    headIs endsInteger rest = false ∧ Stops rest' ∧ rest'.head? ≠ some '>'

section Agreement

variable {old new gap fill rest rest' x : List Char} {kind : TokenKind} {base : Nat}

theorem Agree.append (h : Agree old new) (front : List Char) : Agree (front ++ old) (front ++ new) := by
  obtain ⟨common, rest, rest', rfl, rfl, hends, hstops, harrow⟩ := h
  exact ⟨front ++ common, rest, rest', by simp, by simp, hends, hstops, harrow⟩

theorem Agree.blanks (hgap : headIs endsInteger (gap ++ old) = false)
    (hfill : ∀ c ∈ fill, isBlank c = true) (hstops : fill = [] → Stops new ∧ new.head? ≠ some '>') :
    Agree (gap ++ old) (fill ++ new) := by
  refine ⟨[], _, _, rfl, rfl, hgap, ?_⟩
  cases fill with
  | nil => exact hstops rfl
  | cons c fill =>
      have hc : isBlank c = true := hfill c List.mem_cons_self
      refine ⟨.cons (List.mem_append_left _ (mem_blankChars hc)) _, ?_⟩
      rintro ⟨⟩
      exact Bool.noConfusion hc

/-- A token is read alike before texts that agree. -/
theorem Agree.reads (h : Agree old new) (hread : ofText? (x ++ old) = some (.token kind x.length)) :
    ofText? (x ++ new) = some (.token kind x.length) := by
  obtain ⟨common, rest, rest', rfl, rfl, hends, hstops, harrow⟩ := h
  have hne : x ++ common ≠ [] :=
    List.append_ne_nil_of_left_ne_nil (List.length_pos_iff.mp (ofText?_token_endsWithin hread).1) common
  rw [← List.append_assoc] at hread ⊢
  obtain ⟨kind', hread', hkind⟩ := ofText?_token_append hread (by simp) hne hstops fun _ => harrow
  rcases hkind with rfl | ⟨_, _, hgoes⟩
  · exact hread'
  · rw [hends] at hgoes
    exact Bool.noConfusion hgoes

/-- Trivia begins with no character of a name or a number. -/
theorem headIs_endsInteger_of_gap (h : Run rest base gap []) : headIs endsInteger gap = false := by
  have hslash : endsInteger '/' = false := by decide
  have hhash : endsInteger '#' = false := by decide
  generalize hts : ([] : List Token) = ts at h
  cases h with
  | done => rfl
  | @trivia _ x text _ reads more =>
      have htrivia := ofText?_eq_trivia_iff.mp reads
      rw [headIs_append htrivia.ne_nil]
      cases htrivia with
      | blank nonempty blank _ =>
          obtain ⟨c, x, rfl⟩ := List.exists_cons_of_ne_nil nonempty
          have hc := mem_blankChars (blank c List.mem_cons_self)
          exact stops_endsInteger (.cons (List.mem_append_left _ hc) [])
      | line leads _ _ =>
          rcases leads with rfl | rfl
          · exact hslash
          · exact hhash
      | block _ => exact hslash
  | token _ _ => cases hts

/-- Trivia stays trivia before any text that begins alike. -/
theorem gap_congr (h : Run rest base gap []) (hhead : rest'.head? = rest.head?) :
    Run rest' base gap [] := by
  generalize hts : ([] : List Token) = ts at h ⊢
  induction h with
  | done => exact .done
  | trivia reads _ ih =>
      refine .trivia (ofText?_eq_trivia_iff.mpr ?_) (ih hts)
      exact isTrivia_congr (ofText?_eq_trivia_iff.mp reads) (head?_append_congr (Or.inr hhead))
  | token _ _ _ => cases hts

/-- Blanks are trivia before anything else. -/
theorem gap_blanks (hfill : ∀ c ∈ fill, isBlank c = true) (hrest : headIs isBlank rest = false) :
    Run rest 0 fill [] := by
  by_cases hnil : fill = []
  · subst hnil
    exact .done
  · rw [← List.append_nil fill]
    exact .trivia (ofText?_eq_trivia_iff.mpr (.blank hnil hfill hrest)) .done

end Agreement

/-! ## Other gaps -/

/-- The gap stays as it is, or blanks take the place of something. -/
def RefitsGap (gap fill : List Char) : Prop :=
  fill = gap ∨ gap ≠ [] ∧ fill ≠ [] ∧ ∀ c ∈ fill, isBlank c = true

section Refitting

variable {rest rest' : List Char} {ps ps' : List Piece}

/-- Pieces are read with other gaps too. -/
theorem Reads.refit (h : Reads rest ps) (hsame : List.Forall₂ SameToken ps ps')
    (hgaps : List.Forall₂ RefitsGap (ps.map gap) (ps'.map gap)) (hrest : Agree rest rest') :
    Reads rest' ps' ∧ Agree (written ps ++ rest) (written ps' ++ rest') := by
  induction h generalizing ps' with
  | nil =>
      cases hsame
      exact ⟨.nil, hrest⟩
  | @cons p ps hgap htoken _ ih =>
      cases hsame with | @cons _ p' _ ps' hp hsame =>
      obtain ⟨gap', kind', text'⟩ := p'
      obtain ⟨rfl, rfl⟩ := hp
      cases hgaps with | cons hfit hgaps =>
      obtain ⟨hreads, hagree⟩ := ih hsame hgaps
      have htoken' := hagree.reads htoken
      have hne := List.length_pos_iff.mp (ofText?_token_endsWithin htoken).1
      simp only [written_cons, List.append_assoc]
      rcases hfit with rfl | ⟨hgapped, hfill, hblank⟩
      · refine ⟨.cons (gap_congr hgap (head?_append_congr (Or.inl hne))) htoken' hreads, ?_⟩
        exact (hagree.append p.text).append p.gap
      · refine ⟨.cons (gap_blanks hblank (headIs_isBlank_of_reads htoken')) htoken' hreads, ?_⟩
        refine Agree.blanks ?_ hblank fun hnil => absurd hnil hfill
        rw [headIs_append hgapped]
        exact headIs_endsInteger_of_gap hgap

/-- The first gap may be any blanks. -/
theorem Reads.lead {p : Piece} {fill : List Char} (h : Reads rest (p :: ps))
    (hfill : ∀ c ∈ fill, isBlank c = true) : Reads rest ({ p with gap := fill } :: ps) := by
  cases h with
  | cons gap token more => exact .cons (gap_blanks hfill (headIs_isBlank_of_reads token)) token more

end Refitting

end Piece

/-! ## Sources with other gaps -/

/-- What may take the place of a gap of the source: the gap itself, or blanks. Between two tokens there are
blanks where there was something before, and only there. -/
def Refills (source : List Char) (g : Span) (fill : List Char) : Prop :=
  fill = g.slice source ∨ (∀ c ∈ fill, isBlank c = true) ∧
    (0 < g.start → g.stop < byteLength source → (fill = [] ↔ g.start = g.stop))

instance (source : List Char) (g : Span) (fill : List Char) : Decidable (Refills source g fill) :=
  inferInstanceAs (Decidable (_ ∨ _))

/-- The texts of the tokens with other gaps before, between and behind them. -/
def respaced : List (List Char) → List Token → List Char
  | fill :: fills, t :: ts => fill ++ (t.text.toList ++ respaced fills ts)
  | fill :: _, [] => fill
  | [], _ => []

open Piece

section Sources

variable {R : Span → List Char → Prop} {base stop : Nat} {ps : List Piece} {fills : List (List Char)}

/-- New gaps make new pieces with the same tokens. -/
theorem exists_refilled (h : List.Forall₂ R (gaps base stop (tokens base ps)) fills) :
    ∃ ps' last, List.Forall₂ SameToken ps ps' ∧ List.Forall₂ R (gapSpans base ps) (ps'.map gap) ∧
      R ⟨base + byteLength (written ps), stop⟩ last ∧
      respaced fills (tokens base ps) = written ps' ++ last := by
  induction ps generalizing base fills with
  | nil =>
      cases h with | cons hlast hnil =>
      cases hnil
      exact ⟨[], _, .nil, .nil, hlast, rfl⟩
  | cons p ps ih =>
      cases h with | @cons _ fill _ fills hfill hmore =>
      obtain ⟨ps', last, hsame, hgaps, hlast, hrespaced⟩ := ih hmore
      refine ⟨{ p with gap := fill } :: ps', last, .cons ⟨rfl, rfl⟩ hsame, .cons hfill hgaps, ?_, ?_⟩
      · rwa [byteLength_written_cons, ← Nat.add_assoc, ← Nat.add_assoc]
      · rw [tokens, respaced]
        simp only [Token.placed, String.toList_ofList, written_cons, List.append_assoc]
        exact congrArg _ (congrArg _ hrespaced)

/-- New gaps between tokens refit the old ones. -/
theorem refits_of_refills {front back : List Char} {ps ps' : List Piece} (hne : ∀ p ∈ ps, p.text ≠ [])
    (hfront : 0 < byteLength front)
    (h : List.Forall₂ (Refills (front ++ (written ps ++ back))) (gapSpans (byteLength front) ps)
      (ps'.map gap)) : List.Forall₂ RefitsGap (ps.map gap) (ps'.map gap) := by
  have hinner : ∀ g ∈ gapSpans (byteLength front) ps,
      0 < g.start ∧ g.stop < byteLength (front ++ (written ps ++ back)) ∧
        (g.slice (front ++ (written ps ++ back)) = [] → g.start = g.stop) ∧
        (g.start = g.stop → g.slice (front ++ (written ps ++ back)) = []) := by
    intro g hg
    have hwithin := within_of_mem_gapSpans hne g hg
    obtain ⟨x, rest, hmarks⟩ := marks_of_mem_gapSpans front back ps g hg
    rw [hmarks.slice_eq, byteLength_append, byteLength_append]
    refine ⟨by omega, by omega, ?_, ?_⟩
    · rintro rfl
      obtain ⟨_, _, rfl⟩ := hmarks
      rfl
    · intro hempty
      by_contra hx
      have hlt := hmarks.start_lt hx
      omega
  rw [← map_slice_gapSpans front back ps, List.forall₂_map_left_iff]
  refine ((List.forall₂_and_left _ _).mpr ⟨hinner, h⟩).imp ?_
  rintro g fill ⟨⟨hstart, hstop, hempty, hslice⟩, rfl | ⟨hblank, hiff⟩⟩
  · exact .inl rfl
  · have hfill := hiff hstart hstop
    by_cases hnil : g.slice (front ++ (written ps ++ back)) = []
    · left
      rw [hnil]
      exact hfill.mpr (hempty hnil)
    · exact .inr ⟨hnil, fun heq => hnil (hslice (hfill.mp heq)), hblank⟩

/-- Pieces from the start of a source on are read with other gaps. -/
theorem reads_refilled {ps ps' : List Piece} {last last' : List Char} (h : Reads last ps)
    (hsame : List.Forall₂ SameToken ps ps') (hlast : Agree last last')
    (hgaps : List.Forall₂ (Refills (written ps ++ last)) (gapSpans 0 ps) (ps'.map gap)) :
    Reads last' ps' := by
  cases hsame with
  | nil => exact .nil
  | @cons p p' ps ps' hp hsame =>
      obtain ⟨fill, kind', text'⟩ := p'
      obtain ⟨rfl, rfl⟩ := hp
      cases hgaps with | cons hfill hgaps =>
      have hne := List.forall_mem_cons.mp h.ne_nil
      have hpos : 0 < byteLength (p.gap ++ p.text) := by
        have htext := byteLength_pos hne.1
        rw [byteLength_append]
        omega
      have hmore : List.Forall₂ RefitsGap (ps.map gap) (ps'.map gap) := by
        refine refits_of_refills hne.2 hpos (?_ : List.Forall₂ (Refills (_ ++ (_ ++ last))) _ _)
        simpa only [byteLength_append, Nat.zero_add, written_cons, List.append_assoc] using hgaps
      -- The first gap is left as it is for now.
      have hreads : Reads last' (p :: ps') :=
        (h.refit (.cons ⟨rfl, rfl⟩ hsame) (.cons (.inl rfl) hmore) hlast).1
      rcases hfill with rfl | ⟨hblank, _⟩
      · have hslice := Span.slice_between [] p.gap (p.text ++ written ps ++ last)
        simp only [List.nil_append, byteLength_nil, List.append_assoc] at hslice
        simp only [written_cons, List.append_assoc, hslice]
        exact hreads
      · exact hreads.lead hblank

/-- The last gap may be any blanks too. -/
theorem gap_refilled {front last last' : List Char} (hlast : Run [] 0 last [])
    (hfill : Refills (front ++ last) ⟨byteLength front, byteLength (front ++ last)⟩ last') :
    Run [] 0 last' [] ∧ Agree last last' := by
  have hslice := Span.slice_between front last []
  rw [List.append_nil, ← byteLength_append] at hslice
  rcases hfill with rfl | ⟨hblank, _⟩
  · rw [hslice]
    refine ⟨hlast, last, [], [], by simp, by simp, rfl, Stops.nil, by simp⟩
  · refine ⟨gap_blanks hblank rfl, ?_⟩
    have hends := headIs_endsInteger_of_gap hlast
    rw [← List.append_nil last] at hends ⊢
    rw [← List.append_nil last']
    exact Agree.blanks hends hblank fun _ => ⟨Stops.nil, by simp⟩

/-- A source with other gaps: the same tokens, read anew. -/
theorem exists_respacing {source : String} {ts : List Token}
    (hR : ∀ g fill, R g fill → Refills source.toList g fill) (htokens : tokenize source = .ok ts)
    (hfills : List.Forall₂ R (gaps 0 (byteLength source.toList) ts) fills) :
    ∃ ps ps' last last', source.toList = written ps ++ last ∧
      respaced fills ts = written ps' ++ last' ∧ ts = tokens 0 ps ∧
      tokenize (String.ofList (respaced fills ts)) = .ok (tokens 0 ps') ∧
      List.Forall₂ SameToken ps ps' ∧ (∀ p ∈ ps, p.text ≠ []) ∧
      List.Forall₂ R (gapSpans 0 ps) (ps'.map gap) := by
  obtain ⟨ps, last, htext, rfl, hreads, hlast⟩ := Piece.exists_of_run (run_of_tokenize htokens)
  obtain ⟨ps', last', hsame, hgaps, hend, hrespaced⟩ := exists_refilled hfills
  refine ⟨ps, ps', last, last', htext, hrespaced, rfl, ?_, hsame, hreads.ne_nil, hgaps⟩
  have hend' := hR _ _ hend
  rw [htext, Nat.zero_add] at hend'
  obtain ⟨hlast', hagree⟩ := gap_refilled hlast hend'
  have hgaps' := hgaps.imp hR
  rw [htext] at hgaps'
  rw [List.append_nil] at hreads
  have hreads' := reads_refilled hreads hsame hagree hgaps'
  rw [← List.append_nil last'] at hreads'
  have hrun := (hreads'.run 0).append (hlast'.move _)
  have hscan := hrun.scan_eq
  rw [List.map_nil, List.append_nil, List.append_nil, scan] at hscan
  rw [hrespaced]
  apply tokenize_ok.mpr
  rw [String.toList_ofList, hscan]
  simp [Scan.after]

end Sources

end ClassChart
