/-
# ClassChart.Proofs.Extract.Opaque — what stands in a body does not matter

A body may be replaced by any other text that can be read and whose braces balance, and the model stays
the same, with the same warnings. The text before the body is read alike, because the brace that opens
the body stops whatever comes before it; the text behind the body is read alike at another offset; and
the new text ends with a line break, which stops whatever it ends with. So the derivation of the source
carries over, with one region exchanged.
-/
import ClassChart.Proofs.Extract.Bare
import ClassChart.Proofs.Grammar.Chunks

namespace ClassChart.Extract

open ClassChart.Tree ClassChart.Grammar Text

/-! ## Sources with like derivations -/

/-- Only a mark at the very start is stripped. -/
theorem toList_stripMark_append (p : String) {z : String} {c : Char} (hz : z.toList.head? = some c)
    (hc : c ≠ '\uFEFF') : (stripMark (p ++ z)).toList = (stripMark p).toList ++ z.toList := by
  obtain ⟨rest, hrest⟩ := List.head?_eq_some_iff.mp hz
  unfold stripMark
  rw [String.toList_append]
  cases hp : p.toList with
  | nil =>
      simp only [List.nil_append, hrest]
      split
      · rename_i htext
        exact absurd (List.cons.inj htext).1 hc
      · simp [hp, hrest]
  | cons d rest =>
      simp only [List.cons_append]
      split
      · rename_i more htext
        obtain ⟨rfl, rfl⟩ := List.cons.inj htext
        simp
      · rename_i hmark
        split
        · rename_i htext
          obtain ⟨rfl, rfl⟩ := List.cons.inj htext
          exact absurd rfl (hmark _)
        · simp [hp]

/-- A source whose tokens fall into chunks like those of another one has the same model. -/
theorem parse_of_alike {policy : DefaultPolicy} {source source' : String} {result : Model × List Warning}
    {a : Derivation (.production .compilationUnit)} {cs : List Chunk}
    (hparse : parse policy source = .ok result) (htokens : tokenize (stripMark source) = .ok a.yield)
    (htokens' : tokenize (stripMark source') = .ok (cs.flatMap Chunk.run))
    (halike : List.Forall₂ (Chunk.Alike (stripMark source).toList (stripMark source').toList)
      a.chunks cs) : parse policy source' = .ok result := by
  obtain ⟨tree, htree, hmodel⟩ := parse_ok hparse
  obtain ⟨b, hyield, rfl⟩ := parseTree_ok htree
  rw [htokens] at hyield
  obtain rfl := unit_unambiguous a b (Except.ok.inj hyield)
  obtain ⟨a', hchunks, hbare⟩ := exists_alike (production_textual _) a halike
  rw [← hchunks, ← yield_eq_chunks] at htokens'
  refine parse_of_derivation htokens' ?_
  rw [hbare, ← bare_node, bare_model a, hmodel]
  rfl

/-! ## Bodies in a run -/

/-- Braces that are tokens of a text take it apart. -/
theorem exists_braces {text : List Char} {ts ts' inner : List Token} {opening closing : Token}
    (h : Run [] 0 text (ts ++ opening :: (inner ++ closing :: ts')))
    (hopen : opening.isMark "\x7b" = true) (hclose : closing.isMark "\x7d" = true) :
    ∃ front middle back, text = front ++ '\x7b' :: (middle ++ '\x7d' :: back) ∧
      opening = .placed (byteLength front) .punctuation ['\x7b'] ∧
      closing = .placed (byteLength front + 1 + byteLength middle) .punctuation ['\x7d'] ∧
      Run ('\x7b' :: (middle ++ '\x7d' :: back)) 0 front ts ∧
      Run [] (byteLength front + 1 + byteLength middle + 1) back ts' := by
  obtain ⟨kind, front, x, behind, rfl, rfl, hfront, _, hbehind⟩ := h.split
  obtain ⟨rfl, rfl⟩ := eq_of_isMark hopen
  obtain ⟨kind, middle, x, back, rfl, rfl, _, _, hback⟩ := hbehind.split
  obtain ⟨rfl, rfl⟩ := eq_of_isMark hclose
  rw [Nat.zero_add] at *
  rw [List.append_nil] at hfront
  exact ⟨front, middle, back, rfl, rfl, rfl, hfront, hback⟩

/-- The tokens of a text in which what stands between two braces is replaced. -/
theorem scan_replaced {front middle middle' back : List Char} {ts ts' inner : List Token}
    (hfront : Run ('\x7b' :: (middle ++ '\x7d' :: back)) 0 front ts)
    (hback : Run [] (byteLength front + 1 + byteLength middle + 1) back ts')
    (hinner : Run [] 0 middle' inner) :
    scan 0 (front ++ '\x7b' :: ((middle' ++ ['\n']) ++ '\x7d' :: back)) =
      ⟨ts ++ .placed (byteLength front) .punctuation ['\x7b'] ::
        (inner.map (Token.move 0 (byteLength front + 1)) ++
          .placed (byteLength front + 1 + byteLength (middle' ++ ['\n'])) .punctuation ['\x7d'] ::
            ts'.map (Token.move (byteLength front + 1 + byteLength middle + 1)
              (byteLength front + 1 + byteLength (middle' ++ ['\n']) + 1))), []⟩ := by
  have hstops : Lexeme.Stops ('\x7b' :: (middle ++ '\x7d' :: back)) := .cons (by decide) _
  have hfront' : Run ('\x7b' :: (middle' ++ '\n' :: '\x7d' :: back)) 0 front ts :=
    hfront.follow hstops rfl (by simp)
  have hinner' := hinner.move (byteLength front + 1)
  have hback' := (hback.move (byteLength front + 1 + byteLength (middle' ++ ['\n']) + 1)).scan_eq
  rw [List.append_nil, scan] at hback'
  have hline : ∀ c ∈ ['\n'], isBlank c = true := by decide
  have hbreak : byteLength front + 1 + byteLength middle' + byteLength ['\n'] =
      byteLength front + 1 + byteLength (middle' ++ ['\n']) := by
    rw [byteLength_append, Nat.add_assoc]
  have hopen : ('\x7b').utf8Size = 1 := rfl
  have hclose : ('\x7d').utf8Size = 1 := rfl
  rw [List.append_assoc, List.singleton_append, hfront'.scan_eq, Nat.zero_add,
    scan_mark (by decide) (by decide), hopen, hinner'.scan_newline .nil,
    ← List.singleton_append (l := '\x7d' :: back), scan_blanks hline, hbreak,
    scan_mark (by decide) (by decide), hclose, hback']
  simp [Scan.after]

/-! ## Bodies that are replaced -/

theorem staysInside_map {f : Token → Token} (hf : ∀ t, (f t).kind = t.kind ∧ (f t).text = t.text)
    {depth : Nat} {inner : List Token} (h : StaysInside depth inner) :
    StaysInside depth (inner.map f) := by
  have hmark (text : String) : (Token.isMark text ∘ f) = Token.isMark text :=
    funext fun t => isMark_map hf t text
  intro front hfront
  obtain ⟨before, hbefore, rfl⟩ := exists_prefix_map hfront
  simp only [opened, closed, List.countP_map, hmark]
  exact h before hbefore

/-- A leaf that is a body is a chunk of its own, and its braces take the text apart. -/
theorem exists_body {text : List Char} {e : Phrase} {a : Derivation e} {leaf : Token}
    (hrun : Run [] 0 text a.yield) (hleaf : leaf ∈ leavesAll (a.trees text))
    (hkind : leaf.kind = .body) :
    ∃ before behind inner front middle back,
      a.chunks = before ++ .body (.placed (byteLength front) .punctuation ['\x7b'] :: (inner ++
        [.placed (byteLength front + 1 + byteLength middle) .punctuation ['\x7d']])) :: behind ∧
      text = front ++ '\x7b' :: (middle ++ '\x7d' :: back) ∧
      leaf.span = ⟨byteLength front, byteLength front + 1 + byteLength middle + 1⟩ ∧
      Run ('\x7b' :: (middle ++ '\x7d' :: back)) 0 front (before.flatMap Chunk.run) ∧
      Run [] (byteLength front + 1 + byteLength middle + 1) back (behind.flatMap Chunk.run) := by
  obtain ⟨before, c, behind, hchunks, hmem⟩ := exists_chunk a hleaf
  have hyield : a.yield = before.flatMap Chunk.run ++ (c.run ++ behind.flatMap Chunk.run) := by
    rw [yield_eq_chunks, hchunks, List.flatMap_append, List.flatMap_cons]
  have hregion : c.IsRegion := chunk_isRegion a c (by simp [hchunks])
  rw [hyield] at hrun
  cases c with
  | token t =>
      -- A token that was read is no body.
      obtain rfl := List.mem_singleton.mp hmem
      have hnot := hrun.not_region leaf (by simp [Chunk.run])
      exact absurd hkind hnot.1
  | value run =>
      rw [kind_of_mem_leaves_runLeaf hmem] at hkind
      cases hkind
  | body run =>
      obtain ⟨opening, inner, closing, rfl, hopen, hat⟩ := isBody_iff.mp hregion
      rw [Chunk.run, List.cons_append, List.append_assoc, List.singleton_append] at hrun
      obtain ⟨front, middle, back, rfl, rfl, rfl, hfront, hback⟩ := exists_braces hrun hopen hat.closes
      refine ⟨before, behind, inner, front, middle, back, hchunks, rfl, ?_, hfront, hback⟩
      rw [Chunk.trees, runLeaf_cons_concat, regionLeaf, leavesAll_cons, leaves_leaf, leavesAll_nil] at hmem
      rw [List.mem_singleton.mp hmem]
      exact union_braces (byteLength front) (byteLength middle)

/-- The text `b` in braces between `p` and `q` is a body of the source. -/
def IsBodyAt (p b q : String) : Prop :=
  ∃ tree, parseTree (stripMark (p ++ "\x7b" ++ b ++ "\x7d" ++ q)) = .ok tree ∧
    ∃ leaf ∈ tree.leaves, leaf.kind = .body ∧
      leaf.span = ⟨byteLength (stripMark p).toList,
        byteLength (stripMark p).toList + byteLength ("\x7b" ++ b ++ "\x7d").toList⟩

theorem toList_stripMark_braces (p z : String) :
    (stripMark (p ++ ("\x7b" ++ z))).toList = (stripMark p).toList ++ '\x7b' :: z.toList := by
  have hhead : ("\x7b" ++ z).toList.head? = some '\x7b' := by simp
  rw [toList_stripMark_append p hhead (by decide)]
  simp

/-- The chunks of a text are like those of the text in which one body is replaced. -/
theorem alike_replaced {front middle back : List Char} {before behind : List Chunk}
    {run inner inner' : List Token} (middle' : List Char)
    (hregions : ∀ c ∈ before ++ .body run :: behind, c.IsRegion)
    (hrun : run = .placed (byteLength front) .punctuation ['\x7b'] :: (inner ++
      [.placed (byteLength front + 1 + byteLength middle) .punctuation ['\x7d']]))
    (hfront : Run ('\x7b' :: (middle ++ '\x7d' :: back)) 0 front (before.flatMap Chunk.run))
    (hback : Run [] (byteLength front + 1 + byteLength middle + 1) back (behind.flatMap Chunk.run))
    (hinside : StaysInside 0 inner') (hbalanced : Balanced inner') :
    List.Forall₂ (Chunk.Alike (front ++ '\x7b' :: (middle ++ '\x7d' :: back))
        (front ++ '\x7b' :: (middle' ++ '\x7d' :: back)))
      (before ++ .body run :: behind)
      (before ++ .body (.placed (byteLength front) .punctuation ['\x7b'] :: (inner' ++
          [.placed (byteLength front + 1 + byteLength middle') .punctuation ['\x7d']])) ::
        behind.map (Chunk.map (Token.move (byteLength front + 1 + byteLength middle + 1)
          (byteLength front + 1 + byteLength middle' + 1)))) := by
  have hsplit (middle : List Char) : front ++ '\x7b' :: (middle ++ '\x7d' :: back) =
      (front ++ '\x7b' :: (middle ++ ['\x7d'])) ++ back := by
    simp
  have hlength (middle : List Char) : byteLength (front ++ '\x7b' :: (middle ++ ['\x7d'])) =
      byteLength front + 1 + byteLength middle + 1 := by
    have hopen : ('\x7b').utf8Size = 1 := rfl
    have hclose : ('\x7d').utf8Size = 1 := rfl
    simp only [byteLength_append, byteLength_cons, byteLength_nil, hopen, hclose]
    omega
  have hsub {cs : List Chunk} {c : Chunk} {t : Token} (hc : c ∈ cs) (ht : t ∈ c.run) :
      t ∈ cs.flatMap Chunk.run := List.mem_flatMap.mpr ⟨c, hc, ht⟩
  refine List.rel_append (List.forall₂_same.mpr fun c hc => ?_)
    (.cons ?_ (List.forall₂_map_right_iff.mpr (List.forall₂_same.mpr fun c hc => ?_)))
  · refine Chunk.alike_front (hregions c (List.mem_append_left _ hc)) fun t ht => ?_
    have hwithin := hfront.within t (hsub hc ht)
    omega
  · refine .body (isBody_of_balanced rfl rfl hinside hbalanced) ?_
    rw [hrun, bare_runLeaf_body, bare_runLeaf_body]
  · rw [hsplit middle, hsplit middle', ← hlength middle, ← hlength middle']
    refine Chunk.alike_move (hregions c (by simp [hc])) fun t ht => ?_
    rw [hlength]
    exact (hback.within t (hsub hc ht)).1

/-- Bodies are opaque. In a source that has a model, a body may be replaced by any text that can be read
and in which the braces balance, none of them closed before it was opened, with a line break behind it;
the model and the warnings stay the same. -/
theorem parse_replaced_body {policy : DefaultPolicy} {p b q b' : String} {m : Model}
    {warnings : List Warning} {inner : List Token}
    (hparse : parse policy (p ++ "\x7b" ++ b ++ "\x7d" ++ q) = .ok (m, warnings))
    (hbody : IsBodyAt p b q) (hinner : tokenize b' = .ok inner)
    (hinside : StaysInside 0 inner) (hbalanced : Balanced inner) :
    parse policy (p ++ "\x7b" ++ b' ++ "\n" ++ "\x7d" ++ q) = .ok (m, warnings) := by
  obtain ⟨tree, htree, leaf, hleaf, hkind, hspan⟩ := hbody
  obtain ⟨a, htokens, rfl⟩ := parseTree_ok htree
  rw [leaves_node] at hleaf
  -- The source and the new source as lists of characters.
  have hsource : (stripMark (p ++ "\x7b" ++ b ++ "\x7d" ++ q)).toList =
      (stripMark p).toList ++ '\x7b' :: (b.toList ++ '\x7d' :: q.toList) := by
    simpa [String.append_assoc] using toList_stripMark_braces p (b ++ "\x7d" ++ q)
  have hsource' : (stripMark (p ++ "\x7b" ++ b' ++ "\n" ++ "\x7d" ++ q)).toList =
      (stripMark p).toList ++ '\x7b' :: (b'.toList ++ '\n' :: '\x7d' :: q.toList) := by
    simpa [String.append_assoc] using toList_stripMark_braces p (b' ++ "\n" ++ "\x7d" ++ q)
  obtain ⟨before, behind, old, front, middle, back, hchunks, htext, hleafspan, hfront, hback⟩ :=
    exists_body (run_of_tokenize htokens) hleaf hkind
  -- The body that was found is the one between `p` and `q`.
  have hspan' : (⟨byteLength front, byteLength front + 1 + byteLength middle + 1⟩ : Span) = _ :=
    hleafspan.symm.trans hspan
  obtain ⟨hstart, hstop⟩ := Span.mk.inj hspan'
  rw [hsource] at htext
  obtain ⟨rfl, hrest⟩ := append_inj_of_byteLength htext.symm hstart
  have hmiddle : byteLength middle = byteLength b.toList := by
    simp only [String.toList_append, byteLength_append] at hstop
    have hopen : byteLength "\x7b".toList = 1 := rfl
    have hclose : byteLength "\x7d".toList = 1 := rfl
    omega
  obtain ⟨rfl, hend⟩ := append_inj_of_byteLength (List.cons.inj hrest).2 hmiddle
  obtain rfl := (List.cons.inj hend).2
  have hmoved (t : Token) : (t.move 0 (byteLength (stripMark p).toList + 1)).kind = t.kind ∧
      (t.move 0 (byteLength (stripMark p).toList + 1)).text = t.text := ⟨rfl, rfl⟩
  have halike := alike_replaced (b'.toList ++ ['\n']) (hchunks ▸ chunk_isRegion a) rfl hfront hback
    (staysInside_map hmoved hinside) ((balanced_map hmoved).mpr hbalanced)
  have hscan := scan_replaced hfront hback (run_of_tokenize hinner)
  have htext' : (stripMark p).toList ++ '\x7b' :: ((b'.toList ++ ['\n']) ++ '\x7d' :: q.toList) =
      (stripMark (p ++ "\x7b" ++ b' ++ "\n" ++ "\x7d" ++ q)).toList := by
    rw [hsource', List.append_assoc, List.singleton_append]
  rw [← hchunks, ← hsource, htext'] at halike
  rw [htext'] at hscan
  refine parse_of_alike hparse htokens (tokenize_ok.mpr (hscan.trans ?_)) halike
  simp only [List.flatMap_append, List.flatMap_cons, Chunk.run, Chunk.flatMap_run_map,
    List.cons_append, List.append_assoc, List.nil_append]

/-- A class with a method, up to the body of the method. -/
def upToBody : String := "namespace N \x7b class A \x7b int F(int x) "

/-- The end of the class. -/
def behindBody : String := " \x7d \x7d"

/-- Statements with braces of their own, in a string and in a comment too. -/
def otherBody : String := "while (x) \x7b x = \"\x7d\"; \x7d // \x7d"

theorem parse_replaced_body_method :
    IsBodyAt upToBody " return x; " behindBody ∧
      parse .drop (upToBody ++ "\x7b" ++ otherBody ++ "\n" ++ "\x7d" ++ behindBody) =
        .ok ([⟨⟨"N", "A"⟩, .ofClass []
          [⟨"F", some "int", .isPrivate, [⟨"x", "int", .input, none⟩]⟩]⟩], []) := by
  have hbody : IsBodyAt upToBody " return x; " behindBody := by
    have hfound : ((parseTree (stripMark
        (upToBody ++ "\x7b" ++ " return x; " ++ "\x7d" ++ behindBody))).toOption.map fun tree =>
          tree.leaves.any fun leaf => leaf.kind = .body ∧
            leaf.span = ⟨byteLength (stripMark upToBody).toList, byteLength (stripMark upToBody).toList
              + byteLength ("\x7b" ++ " return x; " ++ "\x7d").toList⟩) = some true := by
      decide +kernel
    obtain ⟨tree, htree, hany⟩ := Option.map_eq_some_iff.mp hfound
    obtain ⟨leaf, hmem, hleaf⟩ := List.any_eq_true.mp hany
    exact ⟨tree, eq_ok_of_toOption htree, leaf, hmem, of_decide_eq_true hleaf⟩
  have hparse : (parse .drop
      (upToBody ++ "\x7b" ++ " return x; " ++ "\x7d" ++ behindBody)).toOption =
      some ([⟨⟨"N", "A"⟩, .ofClass []
        [⟨"F", some "int", .isPrivate, [⟨"x", "int", .input, none⟩]⟩]⟩], []) := by
    decide +kernel
  have hinner : (tokenize otherBody).toOption = some (scan 0 otherBody.toList).tokens := by
    decide +kernel
  -- The search for the end of a body stops at a brace behind the statements.
  have hend : bodyEnd? 0 ((scan 0 otherBody.toList).tokens ++ [.placed 0 .punctuation ['\x7d']]) =
      some (.placed 0 .punctuation ['\x7d'], []) := by
    decide +kernel
  obtain ⟨inner, happend, hat⟩ := bodyEnd?_sound hend
  obtain ⟨rfl, -⟩ := List.append_inj' happend rfl
  refine ⟨hbody, parse_replaced_body (eq_ok_of_toOption hparse) hbody (eq_ok_of_toOption hinner)
    hat.inside ?_⟩
  have hlevel := hat.level
  rwa [Nat.zero_add] at hlevel

end ClassChart.Extract
