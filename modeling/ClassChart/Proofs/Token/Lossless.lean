/-
# ClassChart.Proofs.Token.Lossless — tokens and trivia make up a source

Every character of a source that can be read belongs to one token or to the trivia between two. A token
is one terminal, and the text of the terminal, that of a keyword or a mark included, is the part of the
source that the span marks; the parts that no token marks are trivia, item behind item. Trivia is said anew here, of the characters
alone and apart from its reader: blanks, lines from `//` or `#` to where the line ends, and comments from
`/*` to the first `*/` behind it.
-/
import ClassChart.Proofs.Token.Run
import Mathlib.Data.List.Infix

namespace ClassChart

open Text Lexeme

/-! ## Trivia -/

/-- One item of trivia, with `rest` behind it. -/
inductive TriviaItem : List Char → List Char → Prop where
  /-- A run of blanks. -/
  | blanks {x rest : List Char} (nonempty : x ≠ []) (blank : ∀ c ∈ x, isBlank c = true) :
      TriviaItem x rest
  /-- A comment up to the end of its line, the line break left out. -/
  | lineComment {v rest : List Char} (inLine : '\n' ∉ v) (ends : ∀ c ∈ rest.head?, c = '\n') :
      TriviaItem ('/' :: '/' :: v) rest
  /-- A comment up to the first `*/`. -/
  | blockComment {v rest : List Char} (first : ¬ ['*', '/'] <:+: v ++ ['*']) :
      TriviaItem ('/' :: '*' :: (v ++ ['*', '/'])) rest
  /-- A line that begins with `#`, the line break left out. -/
  | directive {v rest : List Char} (inLine : '\n' ∉ v) (ends : ∀ c ∈ rest.head?, c = '\n') :
      TriviaItem ('#' :: v) rest

/-- Items of trivia one behind the other, with `rest` behind the last. -/
inductive IsGap (rest : List Char) : List Char → Prop where
  | nil : IsGap rest []
  | cons {x gap : List Char} (item : TriviaItem x (gap ++ rest)) (more : IsGap rest gap) :
      IsGap rest (x ++ gap)

section Trivia

/-- A comment that ends with a text ends with the only `*/` in it. -/
theorem eq_of_commentEnd? {text : List Char} (h : commentEnd? text = some text.length) :
    ∃ v, text = v ++ ['*', '/'] ∧ ¬ ['*', '/'] <:+: v ++ ['*'] := by
  induction text with
  | nil => cases h
  | cons c text ih =>
      rw [commentEnd?] at h
      split at h
      · rename_i hend
        obtain ⟨rfl, hslash⟩ := hend
        obtain ⟨more, rfl⟩ := List.head?_eq_some_iff.mp hslash
        have hmore : more = [] := by
          simp only [Option.some.injEq, List.length_cons] at h
          apply List.eq_nil_of_length_eq_zero
          omega
        subst hmore
        exact ⟨[], rfl, by decide⟩
      · rename_i hgoes
        obtain ⟨count, hcount, hlength⟩ := Option.map_eq_some_iff.mp h
        obtain rfl : count = text.length := Nat.succ.inj hlength
        obtain ⟨v, rfl, hfirst⟩ := ih hcount
        refine ⟨c :: v, rfl, ?_⟩
        -- A `*/` at the head would have ended the comment there.
        intro hinfix
        rcases List.infix_cons_iff.mp hinfix with hprefix | hlater
        · obtain ⟨rfl, hslash⟩ := List.cons_prefix_cons.mp hprefix
          apply hgoes
          refine ⟨rfl, ?_⟩
          cases v with
          | nil => exact absurd hslash (by decide)
          | cons d v =>
              rw [(List.cons_prefix_cons.mp hslash).1]
              rfl
        · exact hfirst hlater

theorem triviaItem_of_isTrivia {x rest : List Char} (h : IsTrivia x rest) : TriviaItem x rest := by
  cases h with
  | blank nonempty blank _ => exact .blanks nonempty blank
  | line leads inLine ends =>
      rcases leads with rfl | rfl
      · exact .lineComment inLine ends
      · exact .directive inLine ends
  | block closed =>
      obtain ⟨v, rfl, hfirst⟩ := eq_of_commentEnd? closed
      exact .blockComment hfirst

/-- One more item may stand at the end of a gap. -/
theorem IsGap.concat {gap x rest : List Char} (h : IsGap (x ++ rest) gap) (item : TriviaItem x rest) :
    IsGap rest (gap ++ x) := by
  induction h with
  | nil =>
      rw [List.nil_append, ← List.append_nil x]
      exact .cons item .nil
  | @cons y gap front _ ih =>
      rw [List.append_assoc]
      rw [← List.append_assoc] at front
      exact .cons front ih

end Trivia

/-! ## Tokens and gaps -/

/-- The spans between `start` and `stop` that the tokens leave over: before the first token, between each
two, and behind the last. -/
def gaps (start stop : Nat) : List Token → List Span
  | [] => [⟨start, stop⟩]
  | t :: ts => ⟨start, t.span.start⟩ :: gaps t.span.stop stop ts

/-- The token is a part of the source: its span is not empty and lies between characters of the source,
it is what one terminal looks like, and its text, which is that of the terminal, is what the span covers
and is spelled as its kind has it. -/
structure IsPart (source : List Char) (t : Token) : Prop where
  nonempty : t.span.start < t.span.stop
  starts : IsBoundary source t.span.start
  stops : IsBoundary source t.span.stop
  terminal : ∃! a : Terminal, a.token t.span = t
  text_eq : t.text.toList = t.span.slice source
  spelled : ∀ texts, t.kind.spellings? = some texts → t.text ∈ texts

/-- One token begins and ends before the other one. -/
def Token.Before (t u : Token) : Prop := t.span.start < u.span.start ∧ t.span.stop ≤ u.span.start

namespace Run

variable {rest : List Char} {base : Nat} {text : List Char} {ts : List Token}

/-- A token of a run is what its span marks. -/
theorem marks {t : Token} (h : Run rest base text ts) (ht : t ∈ ts) {front : List Char}
    (hfront : byteLength front = base) :
    t.text.toList ≠ [] ∧ ∃ behind, t.span.Marks (front ++ (text ++ rest)) t.text.toList behind := by
  obtain ⟨before, after, rfl⟩ := List.append_of_mem ht
  obtain ⟨kind, gap, x, behind, rfl, rfl, _, hread, _⟩ := h.split
  have hne : x ≠ [] := List.length_pos_iff.mp (ofText?_token_endsWithin hread).1
  show (String.ofList x).toList ≠ [] ∧ ∃ _, Span.Marks _ _ (String.ofList x).toList _
  rw [String.toList_ofList]
  refine ⟨hne, behind ++ rest, front ++ gap, ?_, ?_⟩
  · simp only [List.append_assoc]
  · show (⟨base + byteLength gap, base + byteLength gap + byteLength x⟩ : Span) = _
    rw [byteLength_append, hfront]

/-- A token of a run is the token of one terminal. -/
theorem terminal {t : Token} (h : Run rest base text ts) (ht : t ∈ ts) :
    ∃! a : Terminal, a.token t.span = t := by
  obtain ⟨before, after, rfl⟩ := List.append_of_mem ht
  obtain ⟨kind, gap, x, behind, rfl, rfl, _, hread, _⟩ := h.split
  have hterminal := terminal_token hread
  rw [List.take_left] at hterminal
  exact ⟨_, hterminal _, fun b hb => Terminal.token_injective (hb.trans (hterminal _).symm)⟩

theorem spelled {t : Token} (h : Run rest base text ts) (ht : t ∈ ts) {texts : List String}
    (htexts : t.kind.spellings? = some texts) : t.text ∈ texts := by
  obtain ⟨a, ha, _⟩ := h.terminal ht
  rw [← ha] at htexts ⊢
  exact a.text_mem_spellings htexts

/-- The tokens of a run follow one another. -/
theorem pairwise (h : Run rest base text ts) : ts.Pairwise Token.Before := by
  induction h with
  | done => exact List.Pairwise.nil
  | trivia _ _ ih => exact ih
  | @token base kind x text ts reads more ih =>
      refine List.Pairwise.cons ?_ ih
      intro u hu
      have hpos := byteLength_pos (List.length_pos_iff.mp (ofText?_token_endsWithin reads).1)
      have hwithin := more.within u hu
      show base < u.span.start ∧ base + byteLength x ≤ u.span.start
      omega

/-- What a run leaves over are gaps. The trivia `gap` that stands before the run is part of the first. -/
theorem isGap_of_mem_gaps {source front gap : List Char} (h : Run rest base text ts)
    (hgap : IsGap (text ++ rest) gap) (hsource : source = front ++ (gap ++ (text ++ rest)))
    (hbase : base = byteLength front + byteLength gap) :
    ∀ g ∈ gaps (byteLength front) (base + byteLength text) ts,
      ∃ x behind, g.Marks source x behind ∧ IsGap behind x := by
  induction h generalizing front gap with
  | done =>
      intro g hg
      obtain rfl := List.mem_singleton.mp hg
      refine ⟨gap, rest, ⟨front, hsource, ?_⟩, hgap⟩
      rw [hbase]
      rfl
  | @trivia base x text ts reads more ih =>
      -- The item joins the gap that is open.
      have hitem := triviaItem_of_isTrivia (ofText?_eq_trivia_iff.mp reads)
      rw [List.append_assoc] at hgap hsource
      have hsource' : source = front ++ ((gap ++ x) ++ (text ++ rest)) := by
        rw [hsource, List.append_assoc]
      have hbase' : base + byteLength x = byteLength front + byteLength (gap ++ x) := by
        rw [byteLength_append, hbase, Nat.add_assoc]
      rw [byteLength_append, ← Nat.add_assoc]
      exact ih (hgap.concat hitem) hsource' hbase'
  | @token base kind x text ts reads more ih =>
      -- The token ends the gap that is open and begins an empty one.
      rw [List.append_assoc] at hgap hsource
      have hsource' : source = (front ++ (gap ++ x)) ++ ([] ++ (text ++ rest)) := by
        rw [hsource, List.nil_append, List.append_assoc, List.append_assoc]
      have hstop : base + byteLength x = byteLength (front ++ (gap ++ x)) := by
        rw [byteLength_append, byteLength_append, hbase, Nat.add_assoc]
      have hlater := ih .nil hsource' hstop
      rw [← hstop] at hlater
      rw [byteLength_append, ← Nat.add_assoc]
      intro g hg
      rcases List.mem_cons.mp hg with rfl | hg
      · refine ⟨gap, x ++ (text ++ rest), ⟨front, hsource, ?_⟩, hgap⟩
        show (⟨byteLength front, base⟩ : Span) = _
        rw [hbase]
      · exact hlater g hg

end Run

/-- Reading a source into tokens loses nothing. The tokens are parts of the source, each behind the one
before, and what they leave over, at both ends and between each two of them, is trivia. -/
theorem tokenize_lossless {source : String} {tokens : List Token} (h : tokenize source = .ok tokens) :
    (∀ t ∈ tokens, IsPart source.toList t) ∧ tokens.Pairwise Token.Before ∧
      ∀ g ∈ gaps 0 (byteLength source.toList) tokens,
        ∃ x rest, g.Marks source.toList x rest ∧ IsGap rest x := by
  have hrun := run_of_tokenize h
  have hsource : source.toList = [] ++ ([] ++ (source.toList ++ [])) := by simp
  refine ⟨?_, hrun.pairwise, ?_⟩
  · intro t ht
    obtain ⟨hne, rest, hmarks⟩ := hrun.marks ht byteLength_nil
    rw [List.nil_append, List.append_nil] at hmarks
    exact ⟨hmarks.start_lt hne, hmarks.isBoundary_start, hmarks.isBoundary_stop, hrun.terminal ht,
      hmarks.slice_eq.symm, fun texts => hrun.spelled ht⟩
  · have hgaps := hrun.isGap_of_mem_gaps .nil hsource rfl
    rwa [Nat.zero_add] at hgaps

/-- A comment of each form, a name with a character of two bytes, and nothing between the last two
tokens. -/
def commentedSource : String := "#if a\n/* b */ \u00e9 // c\n= 1;"

theorem tokenize_lossless_commented :
    ∃ tokens, tokenize commentedSource = .ok tokens ∧
      gaps 0 (byteLength commentedSource.toList) tokens =
        [⟨0, 14⟩, ⟨16, 22⟩, ⟨23, 24⟩, ⟨25, 25⟩, ⟨26, 26⟩] ∧
      (∀ t ∈ tokens, IsPart commentedSource.toList t) ∧ tokens.Pairwise Token.Before ∧
      ∀ g ∈ gaps 0 (byteLength commentedSource.toList) tokens,
        ∃ x rest, g.Marks commentedSource.toList x rest ∧ IsGap rest x := by
  have htokens : tokenize commentedSource = .ok
      [⟨.identifier, "\u00e9", ⟨14, 16⟩⟩, ⟨.punctuation, "=", ⟨22, 23⟩⟩,
        ⟨.integerLiteral, "1", ⟨24, 25⟩⟩, ⟨.punctuation, ";", ⟨25, 26⟩⟩] := by
    apply tokenize_ok.mpr
    decide +kernel
  exact ⟨_, htokens, by decide +kernel, tokenize_lossless htokens⟩

end ClassChart
