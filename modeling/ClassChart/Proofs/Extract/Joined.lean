/-
# ClassChart.Proofs.Extract.Joined — units one behind the other

Two sources with a line break between them are read as one source. The line break ends whatever the first
one ends with, a comment included, and no token of the second one sees what stands before it. A unit is
imports and then namespaces, so a second unit without imports only adds namespaces to the first; it does
not matter how the last namespace of the first one ends, since a namespace without braces goes on exactly
to the next one. Extraction visits the namespaces in order, so the models and the warnings are joined too.
-/
import ClassChart.Proofs.Extract.Opaque
import ClassChart.Proofs.Token.Restart

/-! ## Derivations one behind the other -/

namespace ClassChart.Grammar

/-- One repetition goes on where another one ends. -/
theorem Derivation.exists_append {e : Phrase} (d others : Derivation (.many e)) :
    ∃ c : Derivation (.many e), c.yield = d.yield ++ others.yield ∧
      ∀ source, c.trees source = d.trees source ++ others.trees source := by
  induction d using many_induction with
  | nil => exact ⟨others, rfl, fun _ => rfl⟩
  | cons a more ih =>
      obtain ⟨c, hyield, htrees⟩ := ih
      refine ⟨.cons a c, ?_, fun source => ?_⟩
      · rw [yield, yield, hyield, List.append_assoc]
      · rw [trees, trees, htrees, List.append_assoc]

/-- A unit without imports goes on where another one ends. -/
theorem exists_joined (a b : Derivation (.production .compilationUnit))
    (hfirst : b.yield.head?.any (·.isKind .namespaceKeyword) = true) :
    ∃ c : Derivation (.production .compilationUnit), c.yield = a.yield ++ b.yield ∧
      ∀ source, c.trees source = a.trees source ++ b.trees source := by
  obtain ⟨front, more, rfl⟩ := Derivation.exists_seq a
  obtain ⟨front', more', rfl⟩ := Derivation.exists_seq b
  obtain ⟨imports, first, rfl⟩ := Derivation.exists_seq front'
  cases imports with
  | nil =>
      obtain ⟨c, hyield, htrees⟩ := more.exists_append (.cons first more')
      refine ⟨.seq front c, ?_, fun source => ?_⟩
      · simp only [Derivation.yield, hyield, List.append_assoc, List.nil_append]
      · simp only [Derivation.trees, htrees, List.append_assoc, List.nil_append]
  | cons one others =>
      -- An import begins with a keyword of its own.
      have hstarts := importDecl_starts one (others.yield ++ first.yield ++ more'.yield) trivial
      simp only [Derivation.yield, List.append_assoc] at hfirst hstarts
      obtain ⟨t, ht, hkind⟩ := (Option.any_eq_true _ _).mp hfirst
      rw [isNext, ht] at hstarts
      have husing : t.kind = .usingKeyword := eq_of_beq hstarts
      rw [eq_of_beq hkind] at husing
      exact TokenKind.noConfusion husing

end ClassChart.Grammar

namespace ClassChart.Extract

open ClassChart.Tree ClassChart.Grammar Text

/-! ## Sources one behind the other -/

section Sources

variable {s s' : String} {ts ts' : List Token}

theorem toList_stripMark_joined (s s' : String) :
    (stripMark (s ++ "\n" ++ s')).toList = (stripMark s).toList ++ '\n' :: s'.toList := by
  have hhead : ("\n" ++ s').toList.head? = some '\n' := by simp
  rw [String.append_assoc, toList_stripMark_append s hhead (by decide)]
  simp

/-- The tokens of the first source, and those of the second one further on. -/
theorem tokenize_joined (h : tokenize (stripMark s) = .ok ts) (h' : tokenize s' = .ok ts') :
    tokenize (stripMark (s ++ "\n" ++ s')) =
      .ok (ts ++ ts'.map (Token.move 0 (byteLength ((stripMark s).toList ++ ['\n'])))) := by
  have hbreak : byteLength ((stripMark s).toList ++ ['\n']) = (stripMark s).utf8ByteSize + 1 := by
    rw [byteLength_append, byteLength_toList]
    rfl
  rw [tokenize_ok, toList_stripMark_joined, scan_behind_newline h, tokenize_ok.mp h', hbreak]
  rfl

end Sources

/-! ## Derivations over the joined text -/

section Derivations

variable {e : Phrase} {text : List Char}

/-- A derivation over a text is one over every text that begins with it. -/
theorem exists_derivation_front (he : e.Textual) (d : Derivation e) (hrun : Run [] 0 text d.yield)
    (back : List Char) :
    ∃ d' : Derivation e, d'.yield = d.yield ∧
      (d'.trees (text ++ back)).map bare = (d.trees text).map bare := by
  have halike : List.Forall₂ (Chunk.Alike (text ++ []) (text ++ back)) d.chunks d.chunks := by
    refine List.forall₂_same.mpr fun c hc => Chunk.alike_front (chunk_isRegion d c hc) fun t ht => ?_
    have hmem : t ∈ d.yield := by
      rw [yield_eq_chunks]
      exact List.mem_flatMap.mpr ⟨c, hc, ht⟩
    have hwithin := hrun.within t hmem
    omega
  rw [List.append_nil] at halike
  obtain ⟨d', hchunks, hbare⟩ := exists_alike he d halike
  exact ⟨d', by rw [yield_eq_chunks, yield_eq_chunks, hchunks], hbare⟩

/-- Moved along, it is one over every text that ends with it. -/
theorem exists_derivation_back (he : e.Textual) (d : Derivation e) (front : List Char) :
    ∃ d' : Derivation e, d'.yield = d.yield.map (Token.move 0 (byteLength front)) ∧
      (d'.trees (front ++ text)).map bare = (d.trees text).map bare := by
  have halike : List.Forall₂ (Chunk.Alike ([] ++ text) (front ++ text)) d.chunks
      (d.chunks.map (Chunk.map (Token.move (byteLength []) (byteLength front)))) :=
    List.forall₂_map_right_iff.mpr (List.forall₂_same.mpr fun c hc =>
      Chunk.alike_move (chunk_isRegion d c hc) fun t _ => Nat.zero_le _)
  obtain ⟨d', hchunks, hbare⟩ := exists_alike he d halike
  refine ⟨d', ?_, hbare⟩
  rw [yield_eq_chunks, hchunks, Chunk.flatMap_run_map, ← yield_eq_chunks]
  rfl

end Derivations

/-! ## Models one behind the other -/

/-- A unit with more children has the models of both groups. -/
theorem model_append {policy : DefaultPolicy} {cs cs' : List Tree} {m m' : Model}
    {warnings warnings' : List Warning}
    (h : model policy (node .compilationUnit cs) = .ok (m, warnings))
    (h' : model policy (node .compilationUnit cs') = .ok (m', warnings')) :
    model policy (node .compilationUnit (cs ++ cs')) = .ok (m ++ m', warnings ++ warnings') := by
  unfold model at h h' ⊢
  rw [descendants_node (by decide)] at h h' ⊢
  obtain ⟨results, hresults, hparts⟩ := bind_eq_ok h
  obtain ⟨results', hresults', hparts'⟩ := bind_eq_ok h'
  cases hparts
  cases hparts'
  rw [collectAll_append, List.mapM_append, hresults, hresults']
  show Except.ok _ = Except.ok _
  rw [List.map_append, List.flatten_append, List.flatMap_append]

/-- Units may be joined. If two sources have models, and the second one begins with a namespace and has no
mark at its start, then the first one, a line break and the second one are a source that has the two models
one behind the other, and the warnings likewise. -/
theorem parse_joined {policy : DefaultPolicy} {s s' : String} {m m' : Model}
    {warnings warnings' : List Warning} {t : Token} {ts : List Token}
    (h : parse policy s = .ok (m, warnings)) (h' : parse policy s' = .ok (m', warnings'))
    (hmark : s'.toList.head? ≠ some '\uFEFF') (hfirst : tokenize s' = .ok (t :: ts))
    (hkind : t.kind = .namespaceKeyword) :
    parse policy (s ++ "\n" ++ s') = .ok (m ++ m', warnings ++ warnings') := by
  obtain ⟨tree, htree, hmodel⟩ := parse_ok h
  obtain ⟨tree', htree', hmodel'⟩ := parse_ok h'
  rw [stripMark_eq_self hmark] at htree'
  obtain ⟨a, htokens, rfl⟩ := parseTree_ok htree
  obtain ⟨b, htokens', rfl⟩ := parseTree_ok htree'
  -- Both derivations over the joined text.
  have htext : (stripMark (s ++ "\n" ++ s')).toList =
      ((stripMark s).toList ++ ['\n']) ++ s'.toList := by
    rw [toList_stripMark_joined, List.append_assoc, List.singleton_append]
  obtain ⟨c, hyield, hbare⟩ :=
    exists_derivation_front (production_textual _) a (run_of_tokenize htokens) ('\n' :: s'.toList)
  obtain ⟨c', hyield', hbare'⟩ :=
    exists_derivation_back (production_textual _) b ((stripMark s).toList ++ ['\n'])
  rw [← toList_stripMark_joined] at hbare
  rw [← htext] at hbare'
  have hnamespace : c'.yield.head?.any (·.isKind .namespaceKeyword) = true := by
    rw [htokens'] at hfirst
    rw [hyield', Except.ok.inj hfirst]
    simp [Token.isKind, hkind]
  obtain ⟨joined, hjoined, htrees⟩ := exists_joined c c' hnamespace
  refine parse_of_derivation (a := joined) ?_ ?_
  · rw [hjoined, hyield, hyield']
    exact tokenize_joined htokens htokens'
  · have hok := eq_ok_of_toOption ((bare_model a).trans (congrArg Except.toOption hmodel))
    have hok' := eq_ok_of_toOption ((bare_model b).trans (congrArg Except.toOption hmodel'))
    rw [bare_node] at hok hok'
    rw [htrees, List.map_append, hbare, hbare', model_append hok hok']
    rfl

/-- A namespace without braces, and a comment at the very end. -/
def openEnded : String := "using System; namespace M; class A \x7b void F(int x = y) \x7b \x7d \x7d // end"

def openEndedModel : Model :=
  [⟨⟨"M", "A"⟩, .ofClass [] [⟨"F", none, .isPrivate, [⟨"x", "int", .input, none⟩]⟩]⟩]

/-- A namespace in braces. -/
def inBraces : String := "namespace N \x7b class B \x7b void G(char c = 'd') \x7b \x7d \x7d \x7d"

def inBracesModel : Model :=
  [⟨⟨"N", "B"⟩, .ofClass [] [⟨"G", none, .isPrivate, [⟨"c", "char", .input, none⟩]⟩]⟩]

theorem parse_joined_scopes :
    parse .drop (openEnded ++ "\n" ++ inBraces) = .ok (openEndedModel ++ inBracesModel,
        [.droppedDefault "x" "y" .identifier, .droppedDefault "c" "'d'" .charLiteral]) ∧
      parse .drop (inBraces ++ "\n" ++ inBraces) = .ok (inBracesModel ++ inBracesModel,
        [.droppedDefault "c" "'d'" .charLiteral, .droppedDefault "c" "'d'" .charLiteral]) := by
  have hopen : (parse .drop openEnded).toOption =
      some (openEndedModel, [.droppedDefault "x" "y" .identifier]) := by
    decide +kernel
  have hbraces : (parse .drop inBraces).toOption =
      some (inBracesModel, [.droppedDefault "c" "'d'" .charLiteral]) := by
    decide +kernel
  have hfirst : (tokenize inBraces).toOption =
      some (⟨.namespaceKeyword, "namespace", ⟨0, 9⟩⟩ :: (scan 0 inBraces.toList).tokens.tail) := by
    decide +kernel
  have hmark : inBraces.toList.head? ≠ some '\uFEFF' := by decide
  refine ⟨?_, ?_⟩
  · exact parse_joined (eq_ok_of_toOption hopen) (eq_ok_of_toOption hbraces) hmark
      (eq_ok_of_toOption hfirst) rfl
  · exact parse_joined (eq_ok_of_toOption hbraces) (eq_ok_of_toOption hbraces) hmark
      (eq_ok_of_toOption hfirst) rfl

end ClassChart.Extract
