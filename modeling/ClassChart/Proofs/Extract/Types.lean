/-
# ClassChart.Proofs.Extract.Types — the text of a type gives the type back

In a model a type is a text: the texts of its tokens with nothing between them. Nothing is lost by that.
Names and marks alternate in a type, so the text falls into the same tokens again; these are read as one
type, which looks like the first one but for the places of its leaves. So types with one text have the same
tokens, however they were written.
-/
import ClassChart.Proofs.Extract.Parts
import ClassChart.Proofs.Extract.Writable

namespace ClassChart.Extract

open ClassChart.Tree ClassChart.Grammar Text

/-! ## The types of a source -/

/-- The node is a type of the source. It stands in the tree of the source; or the source has tokens that
are read as a type from one of them on, and it stands in that. -/
inductive IsTypeOf (source : String) (n : Tree) : Prop where
  | inTree {tree : Tree} (parsed : parseTree source = .ok tree)
      (found : n ∈ tree.descendants .typeName) : IsTypeOf source n
  | atToken {before ts rest : List Token} {ty : Tree} (tokens : tokenize source = .ok (before ++ ts))
      (reads : typeName ts = .ok [ty] rest) (found : n ∈ ty.descendants .typeName) : IsTypeOf source n

section Nodes

variable {source : List Char} {n : Tree} {s : Rule}

/-- A node inside a derivation is derived, from some of the tokens. -/
theorem exists_descendant {e : Phrase} (d : Derivation e) (hn : n ∈ collectAll s [] (d.trees source)) :
    ∃ a : Derivation (.production s), n = node s (a.trees source) ∧ a.yield ⊆ d.yield := by
  induction d with
  | token t _ => exact absurd hn (by simp [Derivation.trees, collectAll, collect])
  | seq a b iha ihb =>
      rw [Derivation.trees, collectAll_append] at hn
      rcases List.mem_append.mp hn with hn | hn
      · obtain ⟨inner, hinner, hyield⟩ := iha hn
        exact ⟨inner, hinner, List.subset_append_of_subset_left b.yield hyield⟩
      · obtain ⟨inner, hinner, hyield⟩ := ihb hn
        exact ⟨inner, hinner, List.subset_append_of_subset_right a.yield hyield⟩
  | left a ih => exact ih hn
  | right b ih => exact ih hn
  | none => exact absurd hn (by simp [Derivation.trees, collectAll])
  | some a ih => exact ih hn
  | nil => exact absurd hn (by simp [Derivation.trees, collectAll])
  | cons a more iha ihmore =>
      rw [Derivation.trees, collectAll_append] at hn
      rcases List.mem_append.mp hn with hn | hn
      · obtain ⟨inner, hinner, hyield⟩ := iha hn
        exact ⟨inner, hinner, List.subset_append_of_subset_left more.yield hyield⟩
      · obtain ⟨inner, hinner, hyield⟩ := ihmore hn
        exact ⟨inner, hinner, List.subset_append_of_subset_right a.yield hyield⟩
  | @rule r a ih =>
      rw [Derivation.trees, collectAll_node] at hn
      rcases List.mem_append.mp hn with hself | hinner
      · by_cases hrule : r = s
        · subst hrule
          rw [if_pos rfl] at hself
          exact ⟨a, List.mem_singleton.mp hself, List.Subset.refl _⟩
        · rw [if_neg hrule] at hself
          exact absurd hself List.not_mem_nil
      · exact ih hinner
  | body run _ => exact absurd hn (by simp [Derivation.trees, collectAll_runLeaf])
  | value run _ => exact absurd hn (by simp [Derivation.trees, collectAll_runLeaf])

theorem named_of_tokenize {text : String} {tokens : List Token} (h : tokenize text = .ok tokens) :
    Named tokens := by
  intro t ht hkind
  obtain ⟨kind, htoken, rfl | ⟨_, hnumber⟩⟩ := isToken_of_run (run_of_tokenize h) ht
  · rwa [hkind] at htoken
  · rw [hkind] at hnumber
    cases hnumber

/-- A type of a source is derived from tokens of it. -/
theorem exists_of_isTypeOf {text : String} (h : IsTypeOf text n) :
    ∃ a : Derivation (.production .typeName), n = node .typeName (a.trees text.toList) ∧
      Named a.yield := by
  cases h with
  | inTree parsed found =>
      obtain ⟨unit, htokens, rfl⟩ := parseTree_ok parsed
      rw [descendants_node (by decide)] at found
      obtain ⟨a, ha, hyield⟩ := exists_descendant unit found
      exact ⟨a, ha, fun t ht => named_of_tokenize htokens t (hyield ht)⟩
  | @atToken before ts rest ty tokens reads found =>
      have types : Sound text.toList typeName (.rule .typeName) := typeName_sound
      obtain ⟨d, rfl, hty⟩ := types ts [ty] rest reads
      have hfound : n ∈ collectAll .typeName [] (d.trees text.toList) := by
        rw [← hty, collectAll_eq_flatMap, List.flatMap_singleton]
        exact found
      obtain ⟨a, ha, hyield⟩ := exists_descendant d hfound
      refine ⟨a, ha, fun t ht => named_of_tokenize tokens t ?_⟩
      exact List.mem_append_right _ (List.mem_append_left _ (hyield ht))

/-- The leaves of a type are the tokens it is derived from. -/
theorem tokens_type (a : Derivation (.production .typeName)) :
    (node .typeName (a.trees source)).tokens = a.yield := by
  rw [tokens_eq, children, leavesAll_plain rfl]

end Nodes

/-! ## Types read anew -/

theorem flatten_congr {ts us : List Token} (h : ts.map Token.word = us.map Token.word) :
    flatten ts = flatten us := by
  have htexts := congrArg (List.map Prod.snd) h
  rw [List.map_map, List.map_map] at htexts
  exact congrArg String.join htexts

/-- Read from its text, a type is derived in the same way from the same words. -/
theorem exists_reread (a : Derivation (.production .typeName)) (h : Named a.yield)
    (source : List Char) :
    ∃ a' : Derivation (.production .typeName), tokenize (flatten a.yield) = .ok a'.yield ∧
      a'.yield.map Token.word = a.yield.map Token.word ∧
      typeName a'.yield = .ok [node .typeName (a'.trees source)] [] ∧
      (a'.trees source).map bare = (a.trees source).map bare := by
  obtain ⟨a', hyield, hbare⟩ := exists_laid rfl (production_textual .typeName) a 0 source source
  refine ⟨a', ?_, ?_, ?_, hbare⟩
  · have hscan := (tight_type a h).scan_joined .nil 0
    rw [List.append_nil, scan] at hscan
    rw [tokenize_ok, toList_flatten, hscan, hyield]
    simp [Scan.after]
  · rw [hyield, map_word_lay]
  · have types (size : Nat) : Reads source size typeName (.rule .typeName) endsType := typeName_reads
    have hread := Reads.accepts types (.rule a') [] rfl
    rw [List.append_nil] at hread
    exact hread

/-- The text of a type is read as its tokens, these are read as one type, and that is the same type but for
the places of its leaves, with the same text. -/
structure ReadsBack (n : Tree) : Prop where
  reread : ∃ ts n', tokenize (flatten n.tokens) = .ok ts ∧
    ts.map Token.word = n.tokens.map Token.word ∧ typeName ts = .ok [n'] [] ∧ n'.bare = n.bare ∧
    n'.tokens = ts ∧ flatten n'.tokens = flatten n.tokens
  /-- Wherever a declaration has leaves like these for its type, this is the text it gives. -/
  given : ∀ decl rule child, decl.childNode? rule = some child → child.tokens = n.tokens →
    typeText? decl rule = some (flatten n.tokens)

theorem readsBack_of_derivation (a : Derivation (.production .typeName)) (h : Named a.yield)
    (source : List Char) : ReadsBack (node .typeName (a.trees source)) := by
  refine ⟨?_, fun decl rule child hchild htokens => ?_⟩
  · obtain ⟨a', htokens, hwords, hread, hbare⟩ := exists_reread a h source
    refine ⟨a'.yield, node .typeName (a'.trees source), ?_, ?_, hread, ?_, tokens_type a', ?_⟩
    · rw [tokens_type, htokens]
    · rw [tokens_type, hwords]
    · rw [bare_node, bare_node, hbare]
    · rw [tokens_type, tokens_type, flatten_congr hwords]
  · rw [tokens_eq] at htokens
    refine typeText?_eq_some.mpr ⟨child, hchild, ?_, by rw [htokens]⟩
    obtain ⟨name, rest, hname, htrees⟩ := type_parts source a
    rw [htokens, tokens_eq, children, htrees, leavesAll_cons, leaves_leaf]
    show name.isKind .voidKeyword = false
    grind

/-- Types go into their texts and come back. A type of a source is read anew from its text, and two types,
of whatever sources, have the same text exactly when they have the same tokens. -/
theorem typeText_readsBack {source : String} {n : Tree} (h : IsTypeOf source n) :
    ReadsBack n ∧ ∀ source' m, IsTypeOf source' m →
      (flatten n.tokens = flatten m.tokens ↔ n.tokens.map Token.word = m.tokens.map Token.word) := by
  obtain ⟨a, rfl, ha⟩ := exists_of_isTypeOf h
  refine ⟨readsBack_of_derivation a ha source.toList, fun source' m hm => ⟨fun htext => ?_, flatten_congr⟩⟩
  obtain ⟨b, rfl, hb⟩ := exists_of_isTypeOf hm
  obtain ⟨ts, _, htokens, hwords, _⟩ := (readsBack_of_derivation a ha source.toList).reread
  obtain ⟨us, _, htokens', hwords', _⟩ := (readsBack_of_derivation b hb source'.toList).reread
  rw [htext, htokens'] at htokens
  rw [← hwords, ← hwords', Except.ok.inj htokens]

/-- Types in a base list, of an attribute, of a parameter and inside each other. -/
def nestedTypes : String :=
  "namespace N \x7b class A : B < é.C ? , D[ , ][] > \x7b Map<K, List< V? >>[] x; "
    ++ "void F(out int [] y) \x7b \x7d \x7d \x7d"

theorem typeText_readsBack_nested :
    ∃ n, IsTypeOf nestedTypes n ∧ flatten n.tokens = "B<é.C?,D[,][]>" ∧ ReadsBack n ∧
      ∃ m, IsTypeOf nestedTypes m ∧ flatten m.tokens = "Map<K,List<V?>>[]" ∧
        n.tokens.map Token.word ≠ m.tokens.map Token.word := by
  have hfound : (parseTree nestedTypes).toOption.map
      (fun tree => (tree.descendants .typeName).map fun n => flatten n.tokens) =
        some ["B<é.C?,D[,][]>", "é.C?", "D[,][]", "Map<K,List<V?>>[]", "K", "List<V?>", "V?", "int[]"] := by
    decide +kernel
  obtain ⟨tree, htree, htexts⟩ := Option.map_eq_some_iff.mp hfound
  have hmem (text : String) (h : text ∈ ["B<é.C?,D[,][]>", "Map<K,List<V?>>[]"]) :
      ∃ n, IsTypeOf nestedTypes n ∧ flatten n.tokens = text := by
    have hlisted : text ∈ (tree.descendants .typeName).map fun n => flatten n.tokens := by
      rw [htexts]
      rcases List.mem_pair.mp h with rfl | rfl <;> simp
    obtain ⟨n, hn, htext⟩ := List.mem_map.mp hlisted
    exact ⟨n, .inTree (eq_ok_of_toOption htree) hn, htext⟩
  obtain ⟨n, hn, hntext⟩ := hmem "B<é.C?,D[,][]>" (by simp)
  obtain ⟨m, hm, hmtext⟩ := hmem "Map<K,List<V?>>[]" (by simp)
  obtain ⟨hback, hsame⟩ := typeText_readsBack hn
  refine ⟨n, hn, hntext, hback, m, hm, hmtext, fun hwords => ?_⟩
  have htext := (hsame nestedTypes m hm).mpr hwords
  rw [hntext, hmtext] at htext
  exact absurd htext (by decide)

end ClassChart.Extract
