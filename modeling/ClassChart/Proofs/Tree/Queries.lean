/-
# ClassChart.Proofs.Tree.Queries — what the queries of trees give

The cursor and the search for descendants are written as walks, with what is still to be done or what
was found so far handed along. Here each is stated as what it gives: the cursor comes to the leaves in
source order, and a search adds what it finds in a tree behind what it had. The span of a node is read
off its first and its last child.
-/
import ClassChart.Tree.Cursor

namespace ClassChart.Tree

/-! ## Leaves -/

@[simp] theorem leavesAll_nil : leavesAll [] = [] := by
  rw [leavesAll]

@[simp] theorem leavesAll_cons (t : Tree) (ts : List Tree) :
    leavesAll (t :: ts) = t.leaves ++ leavesAll ts := by
  rw [leavesAll]

@[simp] theorem leaves_leaf (t : Token) : (leaf t).leaves = [t] := by
  rw [leaves]

@[simp] theorem leaves_node (r : Rule) (cs : List Tree) : (node r cs).leaves = leavesAll cs := by
  rw [leaves]

/-- Leaves are listed from left to right. -/
@[simp] theorem leavesAll_append (ts us : List Tree) :
    leavesAll (ts ++ us) = leavesAll ts ++ leavesAll us := by
  induction ts with
  | nil => rw [List.nil_append, leavesAll_nil, List.nil_append]
  | cons t ts ih => rw [List.cons_append, leavesAll_cons, leavesAll_cons, ih, List.append_assoc]

/-- The leaves of each tree are among the leaves of all. -/
theorem mem_leavesAll {ts : List Tree} {t : Tree} {u : Token} (ht : t ∈ ts) (hu : u ∈ t.leaves) :
    u ∈ leavesAll ts := by
  induction ts with
  | nil => exact absurd ht List.not_mem_nil
  | cons s ts ih =>
      rw [leavesAll_cons, List.mem_append]
      rcases List.mem_cons.mp ht with rfl | ht
      · exact Or.inl hu
      · exact Or.inr (ih ht)

/-- A leaf that is found among the children is one of the leaves. -/
theorem childToken?_mem_leaves {t : Tree} {kind : TokenKind} {u : Token}
    (hu : t.childToken? kind = some u) : u ∈ t.leaves ∧ u.isKind kind = true := by
  cases t with
  | leaf v => cases hu
  | node r cs =>
      obtain ⟨c, hc, hcu⟩ := List.mem_filterMap.mp (List.mem_of_find?_eq_some hu)
      refine ⟨?_, List.find?_some hu⟩
      rw [leaves_node]
      cases c with
      | node r cs => cases hcu
      | leaf v =>
          cases hcu
          exact mem_leavesAll hc (by rw [leaves_leaf]; exact List.mem_singleton_self u)

/-! ## Nodes and spans -/

@[simp] theorem preorderAll_nil : preorderAll [] = [] := by
  rw [preorderAll]

@[simp] theorem preorderAll_cons (t : Tree) (ts : List Tree) :
    preorderAll (t :: ts) = t.preorder ++ preorderAll ts := by
  rw [preorderAll]

@[simp] theorem preorder_leaf (t : Token) : (leaf t).preorder = [leaf t] := by
  rw [preorder]

@[simp] theorem preorder_node (r : Rule) (cs : List Tree) :
    (node r cs).preorder = node r cs :: preorderAll cs := by
  rw [preorder]

theorem preorderAll_append (ts us : List Tree) :
    preorderAll (ts ++ us) = preorderAll ts ++ preorderAll us := by
  induction ts with
  | nil => rw [List.nil_append, preorderAll_nil, List.nil_append]
  | cons t ts ih => rw [List.cons_append, preorderAll_cons, preorderAll_cons, ih, List.append_assoc]

/-- A tree comes first among its own nodes and leaves. -/
theorem mem_preorderAll {ts : List Tree} {t : Tree} (ht : t ∈ ts) : t ∈ preorderAll ts := by
  have hself : t ∈ t.preorder := by
    cases t with
    | leaf u => rw [preorder_leaf]; exact List.mem_singleton_self _
    | node r cs => rw [preorder_node]; exact List.mem_cons_self
  induction ts with
  | nil => exact absurd ht List.not_mem_nil
  | cons s ts ih =>
      rw [preorderAll_cons, List.mem_append]
      rcases List.mem_cons.mp ht with rfl | ht
      · exact Or.inl hself
      · exact Or.inr (ih ht)

@[simp] theorem span_leaf (t : Token) : (leaf t).span = t.span := by
  rw [span]

/-- The spans of some trees, one by one. -/
theorem spans_eq_map (ts : List Tree) : spans ts = ts.map span := by
  induction ts with
  | nil => rw [spans, List.map_nil]
  | cons t ts ih => rw [spans, ih, List.map_cons]

/-- A node spans what its first and its last child span. -/
theorem span_node (r : Rule) {cs : List Tree} {first last : Tree} (hfirst : cs.head? = some first)
    (hlast : cs.getLast? = some last) : (node r cs).span = first.span.union last.span := by
  obtain ⟨more, rfl⟩ := List.head?_eq_some_iff.mp hfirst
  rw [List.getLast?_eq_some_getLast (List.cons_ne_nil first more)] at hlast
  rw [← Option.some.inj hlast, span, spans_eq_map]
  show first.span.union (((first :: more).map span).getLast _) = _
  rw [List.getLast_map]

/-! ## The cursor -/

namespace Cursor

/-- The leaves that are left, level by level. -/
def left (levels : List (List Tree)) : List Token := levels.flatMap leavesAll

theorem left_cons (level : List Tree) (outer : List (List Tree)) :
    left (level :: outer) = leavesAll level ++ left outer := List.flatMap_cons

/-- A step of the cursor takes the first leaf that is left. -/
theorem nextIn_eq (levels : List (List Tree)) :
    match nextIn levels with
    | none => left levels = []
    | some (t, rest) => left levels = t :: left rest := by
  fun_induction nextIn levels with
  | case1 => rfl
  | case2 outer ih => rwa [left_cons, leavesAll_nil, List.nil_append]
  | case3 t ts outer =>
      show left _ = t :: left (ts :: outer)
      rw [left_cons, left_cons, leavesAll_cons, leaves_leaf]
      rfl
  | case4 r cs ts outer ih =>
      have hleft : left ((node r cs :: ts) :: outer) = left (cs :: ts :: outer) := by
        rw [left_cons, left_cons, left_cons, leavesAll_cons, leaves_node, List.append_assoc]
      rwa [hleft]

/-- A cursor is at its end when no leaf is left. -/
theorem next?_eq_none_iff (c : Cursor) : c.next? = none ↔ left c.levels = [] := by
  have hleft := nextIn_eq c.levels
  rw [next?, Option.map_eq_none_iff]
  cases hnext : nextIn c.levels with
  | none =>
      rw [hnext] at hleft
      exact ⟨fun _ => hleft, fun _ => rfl⟩
  | some found =>
      rw [hnext] at hleft
      exact ⟨nofun, fun h => absurd (hleft.symm.trans h) (List.cons_ne_nil _ _)⟩

/-- The leaf that a cursor gives is the first that is left, and the others stay. -/
theorem left_of_next? {c d : Cursor} {t : Token} (h : c.next? = some (t, d)) :
    left c.levels = t :: left d.levels := by
  obtain ⟨⟨u, rest⟩, hnext, hfound⟩ := Option.map_eq_some_iff.mp h
  obtain ⟨rfl, rfl⟩ := Prod.mk.inj hfound
  have hleft := nextIn_eq c.levels
  rw [hnext] at hleft
  exact hleft

/-- A run of the cursor takes every leaf that is left. -/
theorem drain_eq (levels : List (List Tree)) : drain levels = left levels := by
  fun_induction drain levels with
  | case1 levels hnext =>
      have hleft := nextIn_eq levels
      rw [hnext] at hleft
      exact hleft.symm
  | case2 levels t rest hnext ih =>
      have hleft := nextIn_eq levels
      rw [hnext] at hleft
      rw [ih]
      exact hleft.symm

end Cursor

/-- Before the first leaf all those under the tree are left. -/
theorem left_cursor (t : Tree) : Cursor.left t.cursor.levels = leavesAll t.children :=
  List.append_nil _

theorem tokens_eq (t : Tree) : t.tokens = leavesAll t.children := by
  rw [tokens, Cursor.drain_eq, left_cursor]

/-! ## Descendants -/

mutual

/-- A search adds what it finds behind what it had. -/
theorem collect_eq (rule : Rule) (found : List Tree) (t : Tree) :
    collect rule found t = found ++ collect rule [] t := by
  cases t with
  | leaf t => rw [collect, collect, List.append_nil]
  | node r cs =>
      rw [collect, collect, collectAll_eq rule _ cs, collectAll_eq rule (if r = rule then _ else []) cs]
      split
      · rw [List.append_assoc]
        rfl
      · rfl

/-- What was found before stays in front. -/
theorem collectAll_eq (rule : Rule) (found : List Tree) (ts : List Tree) :
    collectAll rule found ts = found ++ collectAll rule [] ts := by
  cases ts with
  | nil => rw [collectAll, collectAll, List.append_nil]
  | cons t ts =>
      rw [collectAll, collectAll, collectAll_eq rule _ ts, collectAll_eq rule (collect rule [] t) ts,
        collect_eq rule found t, List.append_assoc]

end

theorem collectAll_cons (rule : Rule) (t : Tree) (ts : List Tree) :
    collectAll rule [] (t :: ts) = collect rule [] t ++ collectAll rule [] ts := by
  rw [collectAll, collectAll_eq]

/-- A search through several trees is one through each of them. -/
theorem collectAll_eq_flatMap (rule : Rule) (ts : List Tree) :
    collectAll rule [] ts = ts.flatMap fun t => t.descendants rule := by
  induction ts with
  | nil => rw [collectAll, List.flatMap_nil]
  | cons t ts ih =>
      rw [collectAll_cons, ih, List.flatMap_cons]
      rfl

/-- Nodes are found from left to right. -/
theorem collectAll_append (rule : Rule) (ts us : List Tree) :
    collectAll rule [] (ts ++ us) = collectAll rule [] ts ++ collectAll rule [] us := by
  rw [collectAll_eq_flatMap, collectAll_eq_flatMap, collectAll_eq_flatMap, List.flatMap_append]

/-- A node of the rule comes before those below it. -/
theorem collectAll_node (rule r : Rule) (cs : List Tree) :
    collectAll rule [] [node r cs] =
      (if r = rule then [node r cs] else []) ++ collectAll rule [] cs := by
  rw [collectAll, collectAll, collect, collectAll_eq]
  split <;> rfl

/-- A node of another rule is passed through. -/
theorem descendants_node {rule r : Rule} (hne : r ≠ rule) (cs : List Tree) :
    (node r cs).descendants rule = collectAll rule [] cs := by
  rw [descendants, collect, if_neg hne]

end ClassChart.Tree
