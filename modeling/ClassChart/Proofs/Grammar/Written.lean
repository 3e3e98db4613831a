/-
# ClassChart.Proofs.Grammar.Written — texts that are read as a phrase wherever they stand

`Written` relates a phrase to words that derive it: whatever stands before and behind them in a source,
their tokens are derived from the phrase, and the derivation looks like the given trees when bare. There
is a law for each way to build phrases, so the words of a declaration need only be put together. The
words of a type, of an initial value and of an empty body are those where reading needs more than a
space behind each token.
-/
import ClassChart.Proofs.Grammar.Chunks
import ClassChart.Proofs.Grammar.Plain
import ClassChart.Proofs.Grammar.Tight
import ClassChart.Proofs.Model.Source

namespace ClassChart.Grammar

open ClassChart.Tree Text

/-- Wherever the words stand, they are read as the phrase and look like the trees when bare. -/
def Written (e : Phrase) (words : List String) (ts : List Tree) : Prop :=
  ∀ front back, ∃ d : Derivation e,
    scan (byteLength front) (chars words ++ back) =
      (scan (byteLength (front ++ chars words)) back).after d.yield ∧
    (d.trees (front ++ (chars words ++ back))).map bare = ts

/-- A leaf without a position. -/
def bareLeaf (kind : TokenKind) (text : String) : Tree := .leaf ⟨kind, text, Span.empty⟩

namespace Written

variable {e f : Phrase} {words words' : List String} {ts ts' : List Tree} {k : TokenKind}
  {word : String}

theorem congr (h : Written e words ts) (hwords : words' = words) (hts : ts' = ts) :
    Written e words' ts' := by
  rwa [hwords, hts]

/-! ## One law for each kind of phrase -/

theorem token {admits : Token → Bool} (h : IsToken k word)
    (hadmits : ∀ span, admits ⟨k, word, span⟩ = true) :
    Written (.terminal admits) [word] [bareLeaf k word] := by
  intro front back
  have hplaced : Token.placed (byteLength front) k word.toList =
      ⟨k, word, ⟨byteLength front, byteLength front + byteLength word.toList⟩⟩ := by
    rw [Token.placed, String.ofList_toList]
  refine ⟨.token (.placed (byteLength front) k word.toList) ?_, ?_, ?_⟩
  · rw [hplaced]
    exact hadmits _
  · have hscan := h.scan_spaced (byteLength front) back
    simpa [Derivation.yield] using hscan
  · have hbody : k ≠ .body := (Lexeme.ofText?_not_region h).1
    simp only [Derivation.trees, List.map_cons, List.map_nil, bare_leaf, bareLeaf, Token.bare, hplaced,
      hbody, false_and, if_false]

theorem kind (h : IsToken k word) : Written (.kind k) [word] [bareLeaf k word] :=
  token h fun _ => beq_self_eq_true k

theorem mark (h : IsToken .punctuation word) :
    Written (.mark word) [word] [bareLeaf .punctuation word] :=
  token h fun _ => by simp [Token.isMark]

theorem seq (h : Written e words ts) (h' : Written f words' ts') :
    Written (e ++ f) (words ++ words') (ts ++ ts') := by
  intro front back
  obtain ⟨a, hscan, htrees⟩ := h front (chars words' ++ back)
  obtain ⟨b, hscan', htrees'⟩ := h' (front ++ chars words) back
  refine ⟨.seq a b, ?_, ?_⟩
  · rw [chars_append, List.append_assoc, hscan, hscan', Scan.after_after, List.append_assoc]
    rfl
  · rw [List.append_assoc] at htrees'
    rw [chars_append, List.append_assoc, Derivation.trees, List.map_append, htrees, htrees']

theorem left (h : Written e words ts) : Written (e ||| f) words ts := by
  intro front back
  obtain ⟨a, hscan, htrees⟩ := h front back
  exact ⟨.left a, hscan, htrees⟩

theorem right (h : Written f words ts) : Written (e ||| f) words ts := by
  intro front back
  obtain ⟨b, hscan, htrees⟩ := h front back
  exact ⟨.right b, hscan, htrees⟩

theorem opt_none : Written (.opt e) [] [] := by
  intro front back
  refine ⟨.none, ?_, rfl⟩
  simp [Derivation.yield]

theorem opt_some (h : Written e words ts) : Written (.opt e) words ts := by
  intro front back
  obtain ⟨a, hscan, htrees⟩ := h front back
  exact ⟨.some a, hscan, htrees⟩

theorem many_nil : Written (.many e) [] [] := by
  intro front back
  refine ⟨.nil, ?_, rfl⟩
  simp [Derivation.yield]

theorem many_cons (h : Written e words ts) (h' : Written (.many e) words' ts') :
    Written (.many e) (words ++ words') (ts ++ ts') := by
  intro front back
  obtain ⟨d, hscan, htrees⟩ := h.seq h' front back
  obtain ⟨a, more, rfl⟩ := d.exists_seq
  exact ⟨.cons a more, hscan, htrees⟩

theorem rule {r : Rule} (h : Written (.production r) words ts) :
    Written (.rule r) words [node r ts] := by
  intro front back
  obtain ⟨a, hscan, htrees⟩ := h front back
  refine ⟨.rule a, hscan, ?_⟩
  rw [Derivation.trees, List.map_cons, List.map_nil, bare_node, htrees]

/-! ## Lists -/

section Lists

variable {α : Type} {spell : α → List String} {P : Tree → α → Prop} {xs : List α}

/-- Phrases one behind the other, and more of them behind those. -/
theorem exists_many (h : ∀ x ∈ xs, ∃ t, Written e (spell x) [t] ∧ P t x)
    (hmore : Written (.many e) words ts) :
    ∃ us, Written (.many e) (xs.flatMap spell ++ words) (us ++ ts) ∧ List.Forall₂ P us xs := by
  induction xs with
  | nil => exact ⟨[], hmore, .nil⟩
  | cons x xs ih =>
      obtain ⟨t, ht, hP⟩ := h x List.mem_cons_self
      obtain ⟨us, hus, hall⟩ := ih fun y hy => h y (List.mem_cons_of_mem x hy)
      refine ⟨t :: us, ?_, .cons hP hall⟩
      rw [List.flatMap_cons, List.append_assoc]
      exact ht.many_cons hus

/-- One more in front of a repetition that something follows. -/
theorem many_cons_seq (h : Written e words ts) (h' : Written (.many e ++ f) words' ts') :
    Written (.many e ++ f) (words ++ words') (ts ++ ts') := by
  intro front back
  obtain ⟨d, hscan, htrees⟩ := h.seq h' front back
  obtain ⟨a, d, rfl⟩ := d.exists_seq
  obtain ⟨more, b, rfl⟩ := d.exists_seq
  refine ⟨.seq (.cons a more) b, ?_, ?_⟩
  · simpa only [Derivation.yield, List.append_assoc] using hscan
  · simpa only [Derivation.trees, List.append_assoc] using htrees

/-- The last phrase of a list may be an optional one. -/
theorem opt_last (h : Written (e ++ f) words ts) : Written (e ++ .opt f) words ts := by
  intro front back
  obtain ⟨d, hscan, htrees⟩ := h front back
  obtain ⟨a, b, rfl⟩ := d.exists_seq
  exact ⟨.seq a (.some b), hscan, htrees⟩

theorem comma : Written (.mark ",") [","] [bareLeaf .punctuation ","] := mark (by decide)

/-- Phrases with commas between them. The nodes of the rule are those of the phrases. -/
theorem exists_separated {r : Rule} (h : ∀ x ∈ xs, ∃ t, Written e (spell x) [t] ∧ P t x)
    (hrule : ∀ t x, P t x → t.rule? = some r) (hxs : xs ≠ []) :
    ∃ ts, Written (.many (e ++ .mark ",") ++ e) (separated (xs.map spell)) ts ∧
      List.Forall₂ P (ts.filter fun c => c.rule? == some r) xs := by
  induction xs with
  | nil => exact absurd rfl hxs
  | cons x xs ih =>
      obtain ⟨t, ht, hP⟩ := h x List.mem_cons_self
      have hfound (more : List Tree) : (t :: more).filter (fun c => c.rule? == some r) =
          t :: more.filter fun c => c.rule? == some r :=
        List.filter_cons_of_pos (beq_iff_eq.mpr (hrule t x hP))
      cases xs with
      | nil =>
          refine ⟨[t], ?_, ?_⟩
          · rw [List.map_cons, List.map_nil, separated_singleton]
            exact many_nil.seq ht
          · rw [hfound]
            exact .cons hP .nil
      | cons y xs =>
          obtain ⟨ts, hts, hall⟩ :=
            ih (fun z hz => h z (List.mem_cons_of_mem x hz)) (List.cons_ne_nil y xs)
          refine ⟨t :: bareLeaf .punctuation "," :: ts, ?_, ?_⟩
          · have hlist := many_cons_seq (ht.seq comma) hts
            rw [List.append_assoc] at hlist
            rw [List.map_cons, List.map_cons, separated_cons]
            exact hlist
          · rw [hfound, List.filter_cons_of_neg (by rw [bareLeaf, rule?]; exact Bool.false_ne_true)]
            exact .cons hP hall

end Lists

/-! ## Queries -/

/-- The descendants of a node that is read are immediate children. -/
theorem descendants {r s : Rule} (hrs : IsImmediate r s) (h : Written (.production r) words ts) :
    (node r ts).descendants s = (node r ts).childNodes s := by
  obtain ⟨a, _, rfl⟩ := h [] []
  rw [← bare_node, bare_descendants, bare_childNodes, descendants_eq_childNodes hrs a]

end Written

/-! ## Types -/

/-- The chunks of a derivation without regions are the tokens that are derived. -/
theorem chunks_plain {e : Phrase} (he : e.isPlain = true) (d : Derivation e) :
    d.chunks = d.yield.map Chunk.token := by
  induction d with
  | token t _ => rfl
  | seq a b iha ihb =>
      obtain ⟨hleft, hright⟩ := Bool.and_eq_true_iff.mp he
      rw [Derivation.chunks, iha hleft, ihb hright, Derivation.yield, List.map_append]
  | left a ih => exact ih (Bool.and_eq_true_iff.mp he).1
  | right b ih => exact ih (Bool.and_eq_true_iff.mp he).2
  | none => rfl
  | some a ih => exact ih he
  | nil => rfl
  | cons a more iha ihmore =>
      rw [Derivation.chunks, iha he, ihmore he, Derivation.yield, List.map_append]
  | rule a ih => exact ih (production_isPlain he)
  | body run _ => cases he
  | value run _ => cases he

/-- Where a phrase has no regions, its tokens can be laid anew one behind the other. -/
theorem exists_laid {e : Phrase} (hplain : e.isPlain = true) (htextual : e.Textual) (d : Derivation e)
    (base : Nat) (source source' : List Char) :
    ∃ d' : Derivation e, d'.yield = lay base d.yield ∧
      (d'.trees source').map bare = (d.trees source).map bare := by
  have halike : List.Forall₂ (Chunk.Alike source source') d.chunks
      ((lay base d.yield).map Chunk.token) := by
    rw [chunks_plain hplain]
    refine List.forall₂_map_left_iff.mpr (List.forall₂_map_right_iff.mpr ((forall₂_lay _ _).imp ?_))
    exact fun t u htu => .token htu.1 htu.2
  obtain ⟨d', hchunks, hbare⟩ := exists_alike htextual d halike
  refine ⟨d', ?_, hbare⟩
  rw [yield_eq_chunks, hchunks, List.flatMap_map]
  exact List.flatMap_singleton' _

/-- A type is written with nothing between its tokens. -/
theorem written_type (a : Derivation (.production .typeName)) (h : Named a.yield) :
    Written (.production .typeName) [String.ofList (joined a.yield)] ((a.trees []).map bare) := by
  intro front back
  -- The tokens are laid at their new place, and the derivation carries over to them.
  obtain ⟨a', hyield, hbare⟩ :=
    exists_laid rfl (production_textual .typeName) a (byteLength front) [] _
  refine ⟨a', ?_, hbare⟩
  rw [chars_cons, chars_nil, String.toList_ofList, List.append_assoc, List.cons_append, List.nil_append,
    (tight_type a h).scan_joined (.cons (by decide) back), scan_blank (by decide), hyield,
    byteLength_append, byteLength_append, Nat.add_assoc]
  rfl

/-! ## Bodies and values -/

/-- An empty body. -/
theorem written_body : Written .body ["\x7b", "\x7d"] [bareLeaf .body ""] := by
  intro front back
  have hopen : IsToken .punctuation "\x7b" := by decide
  have hclose : IsToken .punctuation "\x7d" := by decide
  refine ⟨.body (.placed (byteLength front) .punctuation ['\x7b'] :: ([] ++
    [.placed (byteLength front + 1 + byteLength [' ']) .punctuation ['\x7d']])) ?_, ?_, ?_⟩
  · exact isBody_of_balanced rfl rfl (staysInside_nil 0) rfl
  · rw [chars_cons, chars_cons, chars_nil, List.append_assoc, List.cons_append, hopen.scan_spaced,
      List.append_assoc, List.cons_append, hclose.scan_spaced, Scan.after_after,
      byteLength_append front]
    rfl
  · exact bare_runLeaf_body front [' '] (' ' :: back) []

/-- The leaf for a text and the semicolon on the next line. -/
theorem bare_runLeaf_value {v : List Char} {first : Token} {inner : List Token}
    (hstart : first.span.start = 0) (hstop : first.span.stop ≤ byteLength v) (back : List Char) :
    (runLeaf (v ++ '\n' :: ';' :: back) .valueLiteral
      (first :: (inner ++ [.placed (byteLength v + 1) .punctuation [';']]))).map bare =
      [bareLeaf .valueLiteral (String.ofList v ++ "\n;")] := by
  have hspan : first.span.union (Token.placed (byteLength v + 1) .punctuation [';']).span =
      ⟨0, byteLength (v ++ ['\n', ';'])⟩ := by
    have hend : byteLength ['\n', ';'] = 2 := rfl
    have hmark : byteLength [';'] = 1 := rfl
    simp only [Span.union, Token.placed, Span.mk.injEq, byteLength_append]
    omega
  have hslice : (⟨0, byteLength (v ++ ['\n', ';'])⟩ : Span).slice (v ++ '\n' :: ';' :: back) =
      v ++ ['\n', ';'] := by
    simpa using Span.slice_between [] (v ++ ['\n', ';']) back
  have htext : String.ofList (v ++ ['\n', ';']) = String.ofList v ++ "\n;" := by
    rw [String.ofList_append]
  rw [runLeaf_cons_concat, regionLeaf]
  simp only [hspan, hslice, htext, List.map_cons, List.map_nil, bare_leaf, bareLeaf, Token.bare,
    reduceCtorEq, false_and, if_false]

/-- A text that is read before a line break, with the semicolon that ends it on the next line. -/
theorem written_value {v : List Char} {first : Token} {inner : List Token}
    (hrun : ∀ rest, Run ('\n' :: rest) 0 v (first :: inner)) (hstart : first.span.start = 0)
    (hvalue : IsValue (first :: (inner ++ [.placed (byteLength v + 1) .punctuation [';']]))) :
    Written .value [String.ofList v ++ "\n;"]
      [bareLeaf .valueLiteral (String.ofList v ++ "\n;")] := by
  intro front back
  have hmoved (t : Token) : (t.move 0 (byteLength front)).kind = t.kind ∧
      (t.move 0 (byteLength front)).text = t.text := ⟨rfl, rfl⟩
  have hchars : chars [String.ofList v ++ "\n;"] = v ++ ['\n', ';', ' '] := by
    simp
  have hsource : v ++ ['\n', ';', ' '] ++ back = v ++ '\n' :: ';' :: ' ' :: back := by
    simp
  refine ⟨.value _ (isValue_map hmoved hvalue), ?_, ?_⟩
  · have hend : (Token.placed (byteLength v + 1) .punctuation [';']).move 0 (byteLength front) =
        .placed (byteLength front + byteLength v + 1) .punctuation [';'] := by
      simp only [Token.placed, Token.move, Span.move, Token.mk.injEq, Span.mk.injEq, true_and]
      omega
    have hread := ((hrun (';' :: ' ' :: back)).move (byteLength front)).scan_eq
    rw [hchars, hsource, hread, scan_blank (by decide), scan_mark (by decide) (by decide),
      scan_blank (by decide), Scan.after_after, byteLength_append, byteLength_append, ← Nat.add_assoc]
    simp only [Derivation.yield, List.map_cons, List.map_append, List.map_nil, hend, List.cons_append]
    rfl
  · have hstop := ((hrun []).within first List.mem_cons_self).2.2
    rw [Nat.zero_add] at hstop
    rw [hchars, hsource, ← bare_runLeaf_value hstart hstop (' ' :: back)]
    show (runLeaf _ _ (List.map (Token.move (byteLength []) (byteLength front)) _)).map bare =
      (runLeaf ([] ++ _) _ _).map bare
    exact bare_runLeaf_move (fun t _ => Nat.zero_le _) front _

end ClassChart.Grammar
