/-
# ClassChart.Proofs.Extract.Braces — the braces of a unit that is accepted

A unit may be accepted although its braces do not match: a value without its semicolon runs on through the
closing brace of its class and ends with a semicolon further on. Here it is said how far the braces match
all the same, in terms of the leaves of the tree and of the tokens they stand for.
-/
import ClassChart.Proofs.Extract.Bare
import ClassChart.Proofs.Extract.Order
import ClassChart.Proofs.Grammar.Balance

namespace ClassChart.Extract

open ClassChart.Tree ClassChart.Grammar

/-- The leaf is that of the chunk: it covers the tokens of the chunk, and is a value if the chunk is one. -/
structure IsLeafOf (source : List Char) (t : Token) (c : Chunk) : Prop where
  covers : Covers source t c.run
  value_iff : t.kind = .valueLiteral ↔ c.isValue = true

section Leaves

variable {source : List Char} {t : Token} {run : List Token}

theorem isLeafOf_token (houtside : ¬ IsRegion t) : IsLeafOf source t (.token t) where
  covers := .token houtside
  value_iff := ⟨fun h => absurd (Or.inr h) houtside, fun h => Bool.noConfusion h⟩

theorem kind_of_runLeaf {kind : TokenKind} (h : runLeaf source kind run = [leaf t]) : t.kind = kind := by
  obtain ⟨u, hu, hkind⟩ := mem_runLeaf (h ▸ List.mem_singleton_self (leaf t))
  cases hu
  exact hkind

theorem isLeafOf_body (hrun : IsBody run) (h : runLeaf source .body run = [leaf t]) :
    IsLeafOf source t (.body run) where
  covers := .body hrun h
  value_iff := by
    rw [kind_of_runLeaf h]
    exact ⟨fun h => TokenKind.noConfusion h, fun h => Bool.noConfusion h⟩

theorem isLeafOf_value (hrun : IsValue run) (h : runLeaf source .valueLiteral run = [leaf t]) :
    IsLeafOf source t (.value run) where
  covers := .value hrun h
  value_iff := ⟨fun _ => rfl, fun _ => kind_of_runLeaf h⟩

/-- The leaves of a derivation are those of its chunks. -/
theorem forall₂_isLeafOf {e : Phrase} (he : e.Admits fun t => ¬ IsRegion t) (d : Derivation e) :
    List.Forall₂ (IsLeafOf source) (leavesAll (d.trees source)) d.chunks := by
  induction d with
  | token t ht => exact .cons (isLeafOf_token (he t ht)) .nil
  | seq a b iha ihb =>
      rw [Derivation.trees, leavesAll_append]
      exact List.rel_append (iha he.1) (ihb he.2)
  | left a ih => exact ih he.1
  | right b ih => exact ih he.2
  | none => exact .nil
  | some a ih => exact ih he
  | nil => exact .nil
  | cons a more iha ihmore =>
      rw [Derivation.trees, leavesAll_append]
      exact List.rel_append (iha he) (ihmore he)
  | @rule r a ih =>
      rw [Derivation.trees, leavesAll_cons, leaves_node, leavesAll_nil, List.append_nil]
      exact ih (production_outside r)
  | body run hrun =>
      obtain ⟨t, ht⟩ := exists_runLeaf source .body (Option.isSome_of_any hrun.opens)
      rw [Derivation.trees, ht, leavesAll_cons, leaves_leaf, leavesAll_nil]
      exact .cons (isLeafOf_body hrun ht) .nil
  | value run hrun =>
      obtain ⟨t, ht⟩ := exists_runLeaf source .valueLiteral (Option.isSome_of_any hrun.begins)
      rw [Derivation.trees, ht, leavesAll_cons, leaves_leaf, leavesAll_nil]
      exact .cons (isLeafOf_value hrun ht) .nil

end Leaves

/-- The braces of a unit that is accepted match outside its values: from left to right never more are
closed than opened, and in the end equally many. So the unit as a whole is balanced exactly when its values
are balanced together, and its braces match if those of each value do. A value may close braces that it
did not open, but not if the brackets of the unit are nested: then the braces match in each value, so no
value contains the brace that closes its class or its namespace. -/
theorem parseTree_braces {source : String} {tree : Tree} (h : parseTree source = .ok tree) :
    ∃ chunks : List Chunk,
      tokenize source = .ok (chunks.flatMap Chunk.run) ∧
      List.Forall₂ (IsLeafOf source.toList) tree.leaves chunks ∧
      BracesMatch (chunks.flatMap Chunk.outside) ∧
      (Balanced (chunks.flatMap Chunk.run) ↔ Balanced (chunks.flatMap Chunk.within)) ∧
      ((∀ run, .value run ∈ chunks → BracesMatch run) → BracesMatch (chunks.flatMap Chunk.run)) ∧
      (Nested (chunks.flatMap Chunk.run) →
        BracesMatch (chunks.flatMap Chunk.run) ∧ ∀ run, .value run ∈ chunks → BracesMatch run) := by
  obtain ⟨a, htokens, rfl⟩ := parseTree_ok h
  have hshifts : (Phrase.production .compilationUnit).Shifts 0 0 := production_shifts .compilationUnit 0
  have houtside : BracesMatch (a.chunks.flatMap Chunk.outside) :=
    moves_zero_iff.mp (moves_chunks (fun _ => rfl) (fun _ => rfl) hshifts a
      fun _ _ => moves_zero_iff.mp (Moves.nil 0))
  have hwhole (hvalues : ∀ run, .value run ∈ a.chunks → BracesMatch run) :
      BracesMatch (a.chunks.flatMap Chunk.run) :=
    moves_zero_iff.mp (moves_chunks (fun _ => rfl) (fun _ => rfl) hshifts a hvalues)
  refine ⟨a.chunks, ?_, ?_, houtside, balanced_run_iff houtside.balanced, hwhole, ?_⟩
  · rwa [← yield_eq_chunks]
  · rw [leaves_node]
    exact forall₂_isLeafOf (production_outside .compilationUnit) a
  · intro hnested
    have hvalues (run : List Token) (hrun : .value run ∈ a.chunks) : BracesMatch run :=
      bracesMatch_of_nested (chunk_isRegion a) houtside.balanced hnested hrun
    exact ⟨hwhole hvalues, hvalues⟩

/-- A value and a body with brackets inside, all of them nested. -/
def nestedUnit : String :=
  "namespace N \x7b class A \x7b int x = f(\x7b;\x7d); void g() \x7b h[0] = 1; \x7d \x7d \x7d"

theorem parseTree_braces_nestedUnit :
    ∃ tree chunks, parseTree nestedUnit = .ok tree ∧
      tree.leaves.filter (·.isKind .valueLiteral) = [⟨.valueLiteral, "f(\x7b;\x7d);", ⟨32, 39⟩⟩] ∧
      tokenize nestedUnit = .ok (chunks.flatMap Chunk.run) ∧
      List.Forall₂ (IsLeafOf nestedUnit.toList) tree.leaves chunks ∧
      Nested (chunks.flatMap Chunk.run) ∧ BracesMatch (chunks.flatMap Chunk.run) ∧
      ∀ run, .value run ∈ chunks → BracesMatch run := by
  have hleaves : (parseTree nestedUnit).toOption.map
      (fun tree => tree.leaves.filter (·.isKind .valueLiteral)) = some
        [⟨.valueLiteral, "f(\x7b;\x7d);", ⟨32, 39⟩⟩] := by
    decide +kernel
  have hnested : (tokenize nestedUnit).toOption.map (fun tokens => decide (Nested tokens)) = some true := by
    decide +kernel
  obtain ⟨tree, htree, hleaves⟩ := Option.map_eq_some_iff.mp hleaves
  obtain ⟨chunks, htokens, hchunks, -, -, -, hvalues⟩ := parseTree_braces (eq_ok_of_toOption htree)
  rw [htokens] at hnested
  have hall : Nested (chunks.flatMap Chunk.run) := of_decide_eq_true (Option.some.inj hnested)
  exact ⟨tree, chunks, eq_ok_of_toOption htree, hleaves, htokens, hchunks, hall, hvalues hall⟩

/-- A value without its semicolon, and a class behind it. -/
def runawayUnit : String :=
  "namespace N \x7b class A \x7b int x = 1 \x7d class B \x7b int y; \x7d; \x7d \x7d"

/-- A unit is accepted although its braces do not match: the value contains the brace that closes its class,
with the next class, which is lost. -/
theorem parseTree_braces_runawayUnit :
    ∃ tree tokens, parseTree runawayUnit = .ok tree ∧ tokenize runawayUnit = .ok tokens ∧
      ¬ StaysInside 0 tokens ∧ ¬ Balanced tokens ∧
      (tree.leaves.filter (·.isKind .valueLiteral)).map (·.text) =
        ["1 \x7d class B \x7b int y; \x7d;"] ∧
      parse .drop runawayUnit = .ok ([⟨⟨"N", "A"⟩,
        .ofClass [⟨"x", "int", .isPrivate, some "1 \x7d class B \x7b int y; \x7d"⟩] []⟩], []) := by
  have htexts : (parseTree runawayUnit).toOption.map
      (fun tree => (tree.leaves.filter (·.isKind .valueLiteral)).map (·.text)) = some
        ["1 \x7d class B \x7b int y; \x7d;"] := by
    decide +kernel
  have hcounts : (tokenize runawayUnit).toOption.map (fun tokens => (opened tokens, closed tokens)) =
      some (3, 4) := by
    decide +kernel
  obtain ⟨tree, htree, htexts⟩ := Option.map_eq_some_iff.mp htexts
  obtain ⟨tokens, htokens, hcounts⟩ := Option.map_eq_some_iff.mp hcounts
  obtain ⟨hopened, hclosed⟩ := Prod.mk.inj hcounts
  refine ⟨tree, tokens, eq_ok_of_toOption htree, eq_ok_of_toOption htokens, ?_, ?_, htexts, ?_⟩
  · intro hinside
    have hall := hinside tokens List.prefix_rfl
    omega
  · intro hbalanced
    have hequal : opened tokens = closed tokens := hbalanced
    omega
  · exact eq_ok_of_toOption (by decide +kernel)

end ClassChart.Extract
