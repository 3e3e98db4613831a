/-
# ClassChart.Proofs.Extract.Leaves — a tree holds every token of its source

The leaves of a tree, taken one behind the other, give back the tokens that it was read from: each leaf
outside bodies and values is a token, and each body or value is the text from the first to the last token
of a run. That text is a source of its own, since the brace or the semicolon at its end stops whatever
stands before it, and reading it alone gives the tokens of the run again. Only the values of an enum can
be a node without leaves, and such a node stands between braces; so a node that has children spans what
its leaves span.
-/
import ClassChart.Proofs.Extract.Order
import ClassChart.Proofs.Token.Lossless

namespace ClassChart.Extract

open ClassChart.Tree ClassChart.Grammar Text Lexeme

/-! ## Tokens in order -/

/-- Tokens in the order of a source, none of which ends before it begins. -/
structure InOrder (ts : List Token) : Prop where
  pairwise : ts.Pairwise Token.Before
  start_le : ∀ t ∈ ts, t.span.start ≤ t.span.stop

theorem inOrder_of_run {rest text : List Char} {base : Nat} {ts : List Token}
    (h : Run rest base text ts) : InOrder ts where
  pairwise := h.pairwise
  start_le t ht := (h.within t ht).2.1

theorem InOrder.left {ts us : List Token} (h : InOrder (ts ++ us)) : InOrder ts where
  pairwise := (List.pairwise_append.mp h.pairwise).1
  start_le t ht := h.start_le t (List.mem_append_left us ht)

theorem InOrder.right {ts us : List Token} (h : InOrder (ts ++ us)) : InOrder us where
  pairwise := (List.pairwise_append.mp h.pairwise).2.1
  start_le t ht := h.start_le t (List.mem_append_right ts ht)

/-- The first of several tokens begins first. -/
theorem InOrder.head_le {ts : List Token} {first t : Token} (h : InOrder ts)
    (hfirst : ts.head? = some first) (ht : t ∈ ts) : first.span.start ≤ t.span.start := by
  obtain ⟨more, rfl⟩ := List.head?_eq_some_iff.mp hfirst
  rcases List.mem_cons.mp ht with rfl | hlater
  · exact Nat.le_refl _
  · have hbefore := (List.pairwise_cons.mp h.pairwise).1 t hlater
    exact Nat.le_of_lt hbefore.1

/-- The last of several tokens ends last. -/
theorem InOrder.le_getLast {ts : List Token} {last t : Token} (h : InOrder ts)
    (hlast : ts.getLast? = some last) (ht : t ∈ ts) : t.span.stop ≤ last.span.stop := by
  obtain ⟨front, rfl⟩ := List.getLast?_eq_some_iff.mp hlast
  rcases List.mem_append.mp ht with hearlier | hself
  · have hbefore := (List.pairwise_append.mp h.pairwise).2.2 t hearlier last (List.mem_singleton_self last)
    exact Nat.le_trans hbefore.2 (h.start_le last (List.mem_of_getLast? hlast))
  · rw [List.mem_singleton.mp hself]

/-! ## Regions as sources -/

/-- The text of a run up to a mark that stops what stands before it is read alike on its own. -/
theorem scan_alone {text : List Char} {before inner behind : List Token} {first last : Token} {c : Char}
    (h : Run [] 0 text (before ++ first :: (inner ++ last :: behind)))
    (hlast : last.isMark (String.ofList [c]) = true) (hmark : c ∈ marks) (hequals : c ≠ '=')
    (harrow : c ≠ '>') :
    ∃ x rest, (⟨first.span.start, last.span.stop⟩ : Span).Marks text x rest ∧
      scan 0 x = ⟨(first :: (inner ++ [last])).map (Token.move first.span.start 0), []⟩ := by
  obtain ⟨kind, front, x, more, rfl, rfl, _, hread, hmore⟩ := h.split
  have hbegin := Run.token hread hmore
  rw [← List.cons_append] at hbegin
  obtain ⟨_, middle, y, back, hsplit, rfl, hmiddle, _, _⟩ := hbegin.split
  obtain ⟨rfl, hy⟩ := eq_of_isMark hlast
  obtain rfl : y = [c] := by rw [hy, String.toList_ofList]
  rw [Nat.zero_add] at *
  refine ⟨middle ++ [c], back, ⟨front, ?_, ?_⟩, ?_⟩
  · rw [hsplit, List.append_assoc]
  · show (⟨byteLength front, byteLength front + byteLength middle + byteLength [c]⟩ : Span) = _
    rw [byteLength_append, Nat.add_assoc]
  · have hstops : Stops ([c] ++ (back ++ [])) := .cons (List.mem_append_right _ hmark) _
    have halone : Run [c] (byteLength front) middle (Token.placed (byteLength front) kind x :: inner) :=
      hmiddle.follow hstops rfl (by simpa using harrow)
    rw [(halone.move 0).scan_eq, scan_mark hmark hequals, scan, Scan.after_after, Nat.zero_add]
    have hmoved : (Token.placed (byteLength front + byteLength middle) .punctuation [c]).move
        (byteLength front) 0 = .placed (byteLength middle) .punctuation [c] := by
      simp only [Token.placed, Token.move, Span.move, Token.mk.injEq, Span.mk.injEq, true_and]
      omega
    show Scan.after _ ⟨[], []⟩ =
      (⟨(_ :: (inner ++ [_])).map (Token.move (byteLength front) 0), []⟩ : Scan)
    rw [← List.cons_append, List.map_append, List.map_singleton, hmoved, Scan.after, List.append_nil]

/-- The leaf stands for the run of tokens. A token stands for itself. A body or a value stands for a run
whose text it is, from the first token to the last, and that text is read as the run when it stands
alone. -/
inductive StandsFor (source : List Char) : Token → List Token → Prop where
  | token {t : Token} (outside : ¬ IsRegion t) : StandsFor source t [t]
  | region {t first last : Token} {run : List Token} {rest : List Char} (isRegion : IsRegion t)
      (begins : run.head? = some first) (ends : run.getLast? = some last)
      (span_eq : t.span = ⟨first.span.start, last.span.stop⟩)
      (marks : t.span.Marks source t.text.toList rest)
      (alone : tokenize t.text = .ok (run.map (Token.move first.span.start 0))) :
      StandsFor source t run

section Standing

variable {source : List Char} {before behind : List Token}

/-- The leaf of a region that ends with a stopping mark stands for the tokens of the region. -/
theorem standsFor_region {inner : List Token} {first last t : Token} {kind : TokenKind} {c : Char}
    (h : Run [] 0 source (before ++ first :: (inner ++ last :: behind)))
    (hlast : last.isMark (String.ofList [c]) = true) (hmark : c ∈ marks) (hequals : c ≠ '=')
    (harrow : c ≠ '>') (hkind : kind = .body ∨ kind = .valueLiteral)
    (hleaf : regionLeaf source kind first last = leaf t) :
    StandsFor source t (first :: (inner ++ [last])) := by
  obtain ⟨x, rest, hmarks, halone⟩ := scan_alone h hlast hmark hequals harrow
  have hunion : first.span.union last.span = ⟨first.span.start, last.span.stop⟩ := by
    have hpair := (List.pairwise_append.mp h.pairwise).2.1
    have hbefore : Token.Before first last := (List.pairwise_cons.mp hpair).1 last (by simp)
    have hfirst := h.within first (by simp)
    have hstop := h.within last (by simp)
    simp only [Token.Before] at hbefore
    simp only [Span.union, Span.mk.injEq]
    omega
  rw [regionLeaf, hunion, hmarks.slice_eq] at hleaf
  cases hleaf
  rw [← String.toList_ofList (l := x)] at hmarks halone
  have hend : (first :: (inner ++ [last])).getLast? = some last := by
    rw [← List.cons_append, List.getLast?_concat]
  exact .region hkind rfl hend rfl hmarks (tokenize_ok.mpr halone)

theorem standsFor_of_covers {run : List Token} {t : Token}
    (h : Run [] 0 source (before ++ (run ++ behind))) (hcovers : Covers source t run) :
    StandsFor source t run := by
  cases hcovers with
  | token outside => exact .token outside
  | body isBody leaf_eq =>
      obtain ⟨opening, inner, closing, rfl, _, hat⟩ := isBody_iff.mp isBody
      rw [runLeaf_cons_concat, List.singleton_inj] at leaf_eq
      rw [List.cons_append, List.append_assoc, List.singleton_append] at h
      exact standsFor_region h hat.closes (by decide) (by decide) (by decide) (Or.inl rfl) leaf_eq
  | value isValue leaf_eq =>
      obtain ⟨first, inner, last, rfl, _, hat⟩ := isValue_iff.mp isValue
      rw [runLeaf_cons_concat, List.singleton_inj] at leaf_eq
      rw [List.cons_append, List.append_assoc, List.singleton_append] at h
      exact standsFor_region h hat.ends (by decide) (by decide) (by decide) (Or.inr rfl) leaf_eq

/-- Leaves that cover the tokens of a source stand for them. -/
theorem forall₂_standsFor {leaves : List Token} {runs : List (List Token)}
    (h : Run [] 0 source (before ++ runs.flatten)) (hcovers : List.Forall₂ (Covers source) leaves runs) :
    List.Forall₂ (StandsFor source) leaves runs := by
  induction hcovers generalizing before with
  | nil => exact .nil
  | @cons t run leaves runs hfirst _ ih =>
      rw [List.flatten_cons] at h
      have hmore : Run [] 0 source ((before ++ run) ++ runs.flatten) := by rwa [List.append_assoc]
      exact .cons (standsFor_of_covers h hfirst) (ih hmore)

/-- A leaf spans what lies between two tokens of its run. -/
theorem StandsFor.exists_ends {t : Token} {run : List Token} (h : StandsFor source t run) :
    ∃ first ∈ run, ∃ last ∈ run, t.span = ⟨first.span.start, last.span.stop⟩ := by
  cases h with
  | token _ => exact ⟨t, List.mem_singleton_self t, t, List.mem_singleton_self t, rfl⟩
  | region _ begins ends span_eq _ _ =>
      exact ⟨_, List.mem_of_head? begins, _, List.mem_of_getLast? ends, span_eq⟩

/-- Leaves are in order as the tokens are that they stand for. -/
theorem inOrder_leaves {leaves : List Token} {runs : List (List Token)}
    (h : List.Forall₂ (StandsFor source) leaves runs) (hruns : InOrder runs.flatten) :
    InOrder leaves := by
  induction h with
  | nil => exact ⟨List.Pairwise.nil, fun t ht => absurd ht List.not_mem_nil⟩
  | @cons t run leaves runs hfirst hmore ih =>
      rw [List.flatten_cons] at hruns
      have hrest := ih hruns.right
      refine ⟨List.Pairwise.cons ?_ hrest.pairwise, List.forall_mem_cons.mpr ⟨?_, hrest.start_le⟩⟩
      · intro u hu
        obtain ⟨run', hrun', hstands⟩ := exists_of_forall₂ hmore.flip hu
        obtain ⟨first, hfirstMem, last, hlastMem, hspan⟩ := hfirst.exists_ends
        obtain ⟨first', hfirstMem', _, _, hspan'⟩ := hstands.exists_ends
        have hin : first' ∈ runs.flatten := List.mem_flatten.mpr ⟨run', hrun', hfirstMem'⟩
        have hacross := (List.pairwise_append.mp hruns.pairwise).2.2
        have hstart := (hacross first hfirstMem first' hin).1
        have hstop := (hacross last hlastMem first' hin).2
        rw [Token.Before, hspan, hspan']
        exact ⟨hstart, hstop⟩
      · cases hfirst with
        | token _ => exact hruns.left.start_le t (List.mem_singleton_self t)
        | region _ _ _ _ marks _ => exact marks.start_le

end Standing

/-! ## Spans of nodes -/

/-- The tree spans what lies between its first leaf and its last one. -/
def SpansLeaves (t : Tree) : Prop :=
  ∃ first last, t.leaves.head? = some first ∧ t.leaves.getLast? = some last ∧
    t.span = ⟨first.span.start, last.span.stop⟩

theorem spansLeaves_leaf (t : Token) : SpansLeaves (leaf t) := by
  refine ⟨t, t, ?_, ?_, ?_⟩
  · rw [leaves_leaf, List.head?_cons]
  · rw [leaves_leaf, List.getLast?_singleton]
  · exact span_leaf t

/-- The first leaf of the first of several trees is their first leaf. -/
theorem head?_leavesAll {ts : List Tree} {t : Tree} {first : Token} (ht : ts.head? = some t)
    (hfirst : t.leaves.head? = some first) : (leavesAll ts).head? = some first := by
  obtain ⟨more, rfl⟩ := List.head?_eq_some_iff.mp ht
  rw [leavesAll_cons, List.head?_append, hfirst, Option.some_or]

/-- The last leaf of the last of several trees is their last leaf. -/
theorem getLast?_leavesAll {ts : List Tree} {t : Tree} {last : Token} (ht : ts.getLast? = some t)
    (hlast : t.leaves.getLast? = some last) : (leavesAll ts).getLast? = some last := by
  obtain ⟨front, rfl⟩ := List.getLast?_eq_some_iff.mp ht
  rw [leavesAll_append, leavesAll_cons, leavesAll_nil, List.append_nil, List.getLast?_append, hlast,
    Option.some_or]

/-- A node whose first and last child span their leaves spans its own. -/
theorem spansLeaves_node {r : Rule} {cs : List Tree} {left right : Tree} (hleft : cs.head? = some left)
    (hright : cs.getLast? = some right) (hleftSpans : SpansLeaves left) (hrightSpans : SpansLeaves right)
    (horder : InOrder (leavesAll cs)) : SpansLeaves (node r cs) := by
  obtain ⟨first, first', hfirst, hfirst', hleftSpan⟩ := hleftSpans
  obtain ⟨last', last, hlast', hlast, hrightSpan⟩ := hrightSpans
  have hhead := head?_leavesAll hleft hfirst
  have hend := getLast?_leavesAll hright hlast
  refine ⟨first, last, by rwa [leaves_node], by rwa [leaves_node], ?_⟩
  have hstart : first.span.start ≤ last'.span.start :=
    horder.head_le hhead (mem_leavesAll (List.mem_of_getLast? hright) (List.mem_of_head? hlast'))
  have hstop : first'.span.stop ≤ last.span.stop :=
    horder.le_getLast hend (mem_leavesAll (List.mem_of_head? hleft) (List.mem_of_getLast? hfirst'))
  rw [span_node r hleft hright, hleftSpan, hrightSpan]
  simp only [Span.union, Span.mk.injEq]
  omega

/-- Whether a phrase derives nothing in some way. Of the rules, only the values of an enum do. -/
def mayBeEmpty : Phrase → Bool
  | .terminal _ => false
  | .seq e f => mayBeEmpty e && mayBeEmpty f
  | .alt e f => mayBeEmpty e || mayBeEmpty f
  | .opt _ => true
  | .many _ => true
  | .rule r => r == .enumBody
  | .body => false
  | .value => false

theorem production_mayBeEmpty (r : Rule) :
    mayBeEmpty (.production r) = (r == .enumBody) := by
  cases r <;> rfl

section Nodes

variable {source : List Char} {e : Phrase}

theorem trees_ne_nil (he : mayBeEmpty e = false) (d : Derivation e) : d.trees source ≠ [] := by
  induction d with
  | token t _ => exact List.cons_ne_nil _ _
  | seq a b iha ihb =>
      rcases Bool.and_eq_false_iff.mp he with hleft | hright
      · exact List.append_ne_nil_of_left_ne_nil (iha hleft) _
      · exact List.append_ne_nil_of_right_ne_nil _ (ihb hright)
  | left a ih => exact ih (Bool.or_eq_false_iff.mp he).1
  | right b ih => exact ih (Bool.or_eq_false_iff.mp he).2
  | none => cases he
  | some a _ => cases he
  | nil => cases he
  | cons a more _ _ => cases he
  | rule a _ => exact List.cons_ne_nil _ _
  | body run hrun =>
      obtain ⟨t, ht⟩ := exists_runLeaf source .body (Option.isSome_of_any hrun.opens)
      rw [Derivation.trees, ht]
      exact List.cons_ne_nil _ _
  | value run hrun =>
      obtain ⟨t, ht⟩ := exists_runLeaf source .valueLiteral (Option.isSome_of_any hrun.begins)
      rw [Derivation.trees, ht]
      exact List.cons_ne_nil _ _

/-- A node without children is that of an enum without values. -/
theorem rule_of_childless {t : Tree} (d : Derivation e) (ht : t ∈ d.trees source) {r : Rule}
    (hchildless : t = node r []) : r = .enumBody ∧ .enumBody ∈ e.rules := by
  rcases mem_trees (admits_true e) d ht with ⟨u, rfl, _⟩ | ⟨s, hs, a, rfl⟩
  · cases hchildless
  · obtain ⟨rfl, htrees⟩ := Tree.node.inj hchildless
    have hempty : mayBeEmpty (.production s) = true := by
      by_contra hfull
      exact trees_ne_nil (Bool.eq_false_iff.mpr hfull) a htrees
    rw [production_mayBeEmpty, beq_iff_eq] at hempty
    subst hempty
    exact ⟨rfl, hs⟩

/-- Where the values of an enum stand, a keyword stands before them and a brace behind. So neither the
first nor the last child of a node is childless itself. -/
theorem outer_child {r s : Rule} {t : Tree} (a : Derivation (.production r))
    (ht : (a.trees source).head? = some t ∨ (a.trees source).getLast? = some t) : t ≠ node s [] := by
  intro hchildless
  have hmem : t ∈ a.trees source := ht.elim List.mem_of_head? List.mem_of_getLast?
  obtain ⟨rfl, hrule⟩ := rule_of_childless a hmem hchildless
  have henum : ∀ r, Rule.enumBody ∈ (Phrase.production r).rules → r = .enumDecl := by
    intro r
    cases r <;> decide
  obtain rfl := henum r hrule
  obtain ⟨front, keyword, name, between, values, behind, _, _, htrees⟩ := enum_parts source a
  rw [htrees] at ht
  rcases ht with hhead | hlast
  · rw [List.head?_append] at hhead
    cases hfront : (front.trees source).head? with
    | none =>
        rw [hfront] at hhead
        cases hhead
        cases hchildless
    | some u =>
        rw [hfront] at hhead
        cases hhead
        have hnone := (rule_of_childless front (List.mem_of_head? hfront) hchildless).2
        exact absurd hnone (by decide)
  · have hne : behind.trees source ≠ [] := trees_ne_nil rfl behind
    obtain ⟨u, hend⟩ := Option.isSome_iff_exists.mp (List.getLast?_isSome.mpr hne)
    simp only [List.getLast?_append, List.getLast?_cons, hend, Option.getD_some, Option.some_or] at hlast
    cases hlast
    have hnone := (rule_of_childless behind (List.mem_of_getLast? hend) hchildless).2
    exact absurd hnone (by decide)

theorem spansLeaves_of_mem_leaf {t : Tree} {u : Token} (ht : t ∈ preorderAll [leaf u]) :
    SpansLeaves t := by
  rw [preorderAll_cons, preorder_leaf, preorderAll_nil, List.append_nil] at ht
  rw [List.mem_singleton.mp ht]
  exact spansLeaves_leaf u

/-- A node that has children spans its leaves, if all of its children with children do so. -/
theorem spansLeaves_rule {r : Rule} (a : Derivation (.production r)) (hne : a.trees source ≠ [])
    (horder : InOrder (leavesAll (a.trees source)))
    (hbelow : ∀ c ∈ a.trees source, SpansLeaves c ∨ ∃ s, c = node s []) :
    SpansLeaves (node r (a.trees source)) := by
  obtain ⟨left, hleft⟩ := Option.isSome_iff_exists.mp (List.isSome_head?.mpr hne)
  obtain ⟨right, hright⟩ := Option.isSome_iff_exists.mp (List.getLast?_isSome.mpr hne)
  have hleftSpans : SpansLeaves left := by
    refine (hbelow left (List.mem_of_head? hleft)).resolve_right ?_
    rintro ⟨s, hchildless⟩
    exact outer_child a (Or.inl hleft) hchildless
  have hrightSpans : SpansLeaves right := by
    refine (hbelow right (List.mem_of_getLast? hright)).resolve_right ?_
    rintro ⟨s, hchildless⟩
    exact outer_child a (Or.inr hright) hchildless
  exact spansLeaves_node hleft hright hleftSpans hrightSpans horder

/-- Every tree inside a derivation spans its leaves, unless it is a node without children. -/
theorem spansLeaves_of_mem (d : Derivation e) (horder : InOrder (leavesAll (d.trees source))) {t : Tree}
    (ht : t ∈ preorderAll (d.trees source)) : SpansLeaves t ∨ ∃ r, t = node r [] := by
  induction d generalizing t with
  | token u _ => exact Or.inl (spansLeaves_of_mem_leaf ht)
  | seq a b iha ihb =>
      rw [Derivation.trees, leavesAll_append] at horder
      rw [Derivation.trees, preorderAll_append, List.mem_append] at ht
      exact ht.elim (iha horder.left) (ihb horder.right)
  | left a ih => exact ih horder ht
  | right b ih => exact ih horder ht
  | none =>
      rw [Derivation.trees, preorderAll_nil] at ht
      exact absurd ht List.not_mem_nil
  | some a ih => exact ih horder ht
  | nil =>
      rw [Derivation.trees, preorderAll_nil] at ht
      exact absurd ht List.not_mem_nil
  | cons a more iha ihmore =>
      rw [Derivation.trees, leavesAll_append] at horder
      rw [Derivation.trees, preorderAll_append, List.mem_append] at ht
      exact ht.elim (iha horder.left) (ihmore horder.right)
  | @rule r a ih =>
      rw [Derivation.trees, leavesAll_cons, leaves_node, leavesAll_nil, List.append_nil] at horder
      rw [Derivation.trees, preorderAll_cons, preorder_node, preorderAll_nil, List.append_nil] at ht
      rcases List.mem_cons.mp ht with rfl | hbelow
      · by_cases hne : a.trees source = []
        · exact Or.inr ⟨r, by rw [hne]⟩
        · exact Or.inl (spansLeaves_rule a hne horder fun c hc => ih horder (mem_preorderAll hc))
      · exact ih horder hbelow
  | body run hrun =>
      obtain ⟨u, hu⟩ := exists_runLeaf source .body (Option.isSome_of_any hrun.opens)
      rw [Derivation.trees, hu] at ht
      exact Or.inl (spansLeaves_of_mem_leaf ht)
  | value run hrun =>
      obtain ⟨u, hu⟩ := exists_runLeaf source .valueLiteral (Option.isSome_of_any hrun.begins)
      rw [Derivation.trees, hu] at ht
      exact Or.inl (spansLeaves_of_mem_leaf ht)

end Nodes

/-! ## Source texts -/

/-- A tree loses nothing of the tokens it was read from. Its leaves stand for runs of tokens that, laid
end to end, are all tokens of the source, and each node with children spans what its leaves span. -/
theorem parseTree_lossless {source : String} {tree : Tree} (h : parseTree source = .ok tree) :
    ∃ tokens, tokenize source = .ok tokens ∧
      (∃ runs, List.Forall₂ (StandsFor source.toList) tree.leaves runs ∧ runs.flatten = tokens) ∧
      ∀ t ∈ tree.preorder, t.children ≠ [] → SpansLeaves t := by
  obtain ⟨a, htokens, rfl⟩ := parseTree_ok h
  have hrun := run_of_tokenize htokens
  have hcover : CoverAll source.toList (leavesAll (a.trees source.toList)) a.yield :=
    coverAll_leaves (production_outside .compilationUnit) a
  obtain ⟨runs, hcovers, hflat⟩ := hcover
  rw [← hflat] at hrun htokens
  have hstands : List.Forall₂ (StandsFor source.toList) (leavesAll (a.trees source.toList)) runs :=
    forall₂_standsFor (List.nil_append runs.flatten ▸ hrun) hcovers
  have horder := inOrder_leaves hstands (inOrder_of_run hrun)
  refine ⟨runs.flatten, htokens, ⟨runs, by rwa [leaves_node], rfl⟩, ?_⟩
  intro t ht hchildren
  have hmem : t ∈ preorderAll ((Derivation.rule a).trees source.toList) := by
    rwa [Derivation.trees, preorderAll_cons, preorderAll_nil, List.append_nil]
  have horder' : InOrder (leavesAll ((Derivation.rule a).trees source.toList)) := by
    rwa [Derivation.trees, leavesAll_cons, leaves_node, leavesAll_nil, List.append_nil]
  rcases spansLeaves_of_mem (.rule a) horder' hmem with hspans | ⟨r, rfl⟩
  · exact hspans
  · exact absurd rfl hchildren

/-- A value with a semicolon in brackets, an empty body, and an enum without values. -/
def classWithRegions : String :=
  "namespace N; class A \x7b int x = f(\x7b;\x7d); A() \x7b \x7d \x7d enum B \x7b \x7d"

theorem parseTree_lossless_regions :
    ∃ tree, parseTree classWithRegions = .ok tree ∧
      tree.leaves.filter (fun t => IsRegion t) =
        [⟨.valueLiteral, "f(\x7b;\x7d);", ⟨31, 38⟩⟩, ⟨.body, "\x7b \x7d", ⟨43, 46⟩⟩] ∧
      ∃ tokens, tokenize classWithRegions = .ok tokens ∧
        (∃ runs, List.Forall₂ (StandsFor classWithRegions.toList) tree.leaves runs ∧
          runs.flatten = tokens) ∧
        ∀ t ∈ tree.preorder, t.children ≠ [] → SpansLeaves t := by
  have hsome : (parseTree classWithRegions).toOption.map
      (fun tree => tree.leaves.filter fun t => IsRegion t) = some
        [⟨.valueLiteral, "f(\x7b;\x7d);", ⟨31, 38⟩⟩, ⟨.body, "\x7b \x7d", ⟨43, 46⟩⟩] := by
    decide +kernel
  match htree : parseTree classWithRegions with
  | .error e =>
      rw [htree] at hsome
      cases hsome
  | .ok tree =>
      rw [htree] at hsome
      exact ⟨tree, rfl, Option.some.inj hsome, parseTree_lossless htree⟩

end ClassChart.Extract
