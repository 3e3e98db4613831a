/-
# ClassChart.Proofs.Tree.Walk — a query visits every position of a tree once

A position says which child to go to, level by level, so two equal subtrees at different places have
different positions, and document order is the lexicographic order of positions. Both queries of whole
subtrees are selections from one listing by position: a cursor gives what stands at the positions of
leaves, and a search for a rule what stands at the positions of its nodes. The listing is in order and
complete, for any tree: nodes without children and equal neighbours included.
-/
import ClassChart.Proofs.Tree.Queries

namespace ClassChart.Tree

/-! ## Selections from the pre-order -/

mutual

/-- The leaves are the pre-order without its nodes. -/
theorem map_leaf_leaves (t : Tree) :
    t.leaves.map leaf = t.preorder.filter fun u => u.token?.isSome := by
  cases t with
  | leaf t =>
      rw [leaves_leaf, preorder_leaf]
      rfl
  | node r cs =>
      rw [leaves_node, preorder_node, map_leaf_leavesAll]
      rfl

theorem map_leaf_leavesAll (ts : List Tree) :
    (leavesAll ts).map leaf = (preorderAll ts).filter fun u => u.token?.isSome := by
  cases ts with
  | nil =>
      rw [leavesAll_nil, preorderAll_nil]
      rfl
  | cons t ts =>
      rw [leavesAll_cons, preorderAll_cons, List.map_append, List.filter_append, map_leaf_leaves,
        map_leaf_leavesAll]

end

mutual

/-- What a search finds is what the pre-order has of the rule. -/
theorem descendants_eq_filter (t : Tree) (rule : Rule) :
    t.descendants rule = t.preorder.filter fun u => u.rule? = some rule := by
  cases t with
  | leaf t =>
      rw [preorder_leaf, descendants, collect]
      rfl
  | node r cs =>
      rw [descendants, collect, collectAll_eq, collectAll_eq_filter_preorder, preorder_node,
        List.filter_cons]
      by_cases hr : r = rule
      · subst hr
        simp [rule?]
      · simp [rule?, hr]

theorem collectAll_eq_filter_preorder (ts : List Tree) (rule : Rule) :
    collectAll rule [] ts = (preorderAll ts).filter fun u => u.rule? = some rule := by
  cases ts with
  | nil => rw [collectAll, preorderAll_nil, List.filter_nil]
  | cons t ts =>
      rw [collectAll_cons, preorderAll_cons, List.filter_append, collectAll_eq_filter_preorder ts rule,
        ← descendants_eq_filter t rule, descendants]

end

/-! ## Positions -/

/-- What stands at a position: which child to go to, level by level. -/
def subtree? (t : Tree) : List Nat → Option Tree
  | [] => some t
  | i :: p => t.children[i]?.bind fun c => c.subtree? p

/-- Positions and what stands there: in document order, hence none twice, and none is left out that
satisfies `P`. -/
structure Surveys (t : Tree) (P : Tree → Prop) (visits : List (List Nat × Tree)) : Prop where
  inOrder : visits.Pairwise fun v w => List.Lex (· < ·) v.1 w.1
  mem_iff : ∀ p u, (p, u) ∈ visits ↔ t.subtree? p = some u ∧ P u

mutual

/-- Every node and leaf of a tree with its position, a node before its children. -/
def visits : Tree → List (List Nat × Tree)
  | leaf t => [([], leaf t)]
  | node r cs => ([], node r cs) :: visitsFrom 0 cs

/-- The same for several trees that are children with the numbers from `i` on. -/
def visitsFrom (i : Nat) : List Tree → List (List Nat × Tree)
  | [] => []
  | t :: ts => t.visits.map (Prod.map (i :: ·) id) ++ visitsFrom (i + 1) ts

end

mutual

/-- Without their positions the visits are the pre-order. -/
theorem map_visits (t : Tree) : t.visits.map Prod.snd = t.preorder := by
  cases t with
  | leaf t =>
      rw [visits, preorder_leaf]
      rfl
  | node r cs => rw [visits, preorder_node, List.map_cons, map_visitsFrom]

theorem map_visitsFrom (i : Nat) (ts : List Tree) :
    (visitsFrom i ts).map Prod.snd = preorderAll ts := by
  cases ts with
  | nil => rw [visitsFrom, preorderAll_nil, List.map_nil]
  | cons t ts =>
      rw [visitsFrom, preorderAll_cons, List.map_append, List.map_map, map_visitsFrom, ← map_visits]
      rfl

end

theorem subtree?_cons (t : Tree) (i : Nat) (p : List Nat) (u : Tree) :
    t.subtree? (i :: p) = some u ↔ ∃ c, t.children[i]? = some c ∧ c.subtree? p = some u := by
  rw [subtree?, Option.bind_eq_some_iff]

mutual

/-- The visits are the positions of the tree. -/
theorem mem_visits (t : Tree) (p : List Nat) (u : Tree) :
    (p, u) ∈ t.visits ↔ t.subtree? p = some u := by
  cases t with
  | leaf t =>
      rw [visits, List.mem_singleton]
      cases p with
      | nil => simp [subtree?, eq_comm]
      | cons i p => simp [subtree?_cons, children]
  | node r cs =>
      rw [visits, List.mem_cons, mem_visitsFrom]
      cases p with
      | nil => simp [subtree?, eq_comm]
      | cons i p =>
          rw [subtree?_cons]
          constructor
          · rintro (h | ⟨k, q, c, hp, hc, hu⟩)
            · cases h
            · obtain ⟨rfl, rfl⟩ := List.cons.inj hp
              exact ⟨c, by rwa [Nat.zero_add], hu⟩
          · rintro ⟨c, hc, hu⟩
            exact Or.inr ⟨i, p, c, by rw [Nat.zero_add], hc, hu⟩

/-- The same along the children: the first number of a position says which child it is in. -/
theorem mem_visitsFrom (i : Nat) (ts : List Tree) (p : List Nat) (u : Tree) :
    (p, u) ∈ visitsFrom i ts ↔
      ∃ k q c, p = (i + k) :: q ∧ ts[k]? = some c ∧ c.subtree? q = some u := by
  cases ts with
  | nil => simp [visitsFrom]
  | cons t ts =>
      rw [visitsFrom, List.mem_append, mem_visitsFrom (i + 1) ts, List.mem_map]
      constructor
      · rintro (⟨⟨q, c⟩, hq, hp⟩ | ⟨k, q, c, rfl, hc, hu⟩)
        · obtain ⟨rfl, rfl⟩ := Prod.mk.inj hp
          exact ⟨0, q, t, rfl, rfl, (mem_visits t q c).mp hq⟩
        · exact ⟨k + 1, q, c, by rw [Nat.add_right_comm, Nat.add_assoc], hc, hu⟩
      · rintro ⟨k, q, c, rfl, hc, hu⟩
        cases k with
        | zero =>
            obtain rfl := Option.some.inj hc
            exact Or.inl ⟨(q, u), (mem_visits t q u).mpr hu, rfl⟩
        | succ k => exact Or.inr ⟨k, q, c, by rw [Nat.add_right_comm, Nat.add_assoc], hc, hu⟩

end

mutual

theorem visits_inOrder (t : Tree) : t.visits.Pairwise fun v w => List.Lex (· < ·) v.1 w.1 := by
  cases t with
  | leaf t =>
      rw [visits]
      exact List.pairwise_singleton _ _
  | node r cs =>
      rw [visits, List.pairwise_cons]
      refine ⟨?_, visitsFrom_inOrder 0 cs⟩
      rintro ⟨p, u⟩ hv
      obtain ⟨k, q, c, rfl, -⟩ := (mem_visitsFrom 0 cs p u).mp hv
      exact List.Lex.nil

theorem visitsFrom_inOrder (i : Nat) (ts : List Tree) :
    (visitsFrom i ts).Pairwise fun v w => List.Lex (· < ·) v.1 w.1 := by
  cases ts with
  | nil =>
      rw [visitsFrom]
      exact List.Pairwise.nil
  | cons t ts =>
      rw [visitsFrom, List.pairwise_append, List.pairwise_map]
      refine ⟨(visits_inOrder t).imp List.Lex.cons, visitsFrom_inOrder (i + 1) ts, ?_⟩
      -- what comes later has a later child to go to, whatever the rest of its position
      rintro v hv ⟨p, u⟩ hw
      obtain ⟨v, -, rfl⟩ := List.mem_map.mp hv
      obtain ⟨k, q, c, rfl, -⟩ := (mem_visitsFrom (i + 1) ts p u).mp hw
      exact List.Lex.rel (by omega)

end

/-- A selection from the pre-order comes from the positions of what is selected. -/
theorem surveys_filter (t : Tree) (P : Tree → Prop) [DecidablePred P] :
    ∃ visits, t.Surveys P visits ∧ t.preorder.filter (fun u => P u) = visits.map Prod.snd := by
  refine ⟨t.visits.filter fun v => P v.2, ⟨(visits_inOrder t).filter _, ?_⟩, ?_⟩
  · intro p u
    rw [List.mem_filter, mem_visits, decide_eq_true_iff]
  · rw [← map_visits, List.filter_map]
    rfl

/-! ## Runs of a cursor -/

namespace Cursor

/-- From `c` the cursor gives these leaves, one after the other, and then stands as `c'`. -/
inductive Produces : Cursor → List Token → Cursor → Prop
  | refl (c : Cursor) : Produces c [] c
  | next {c d c' : Cursor} {t : Token} {ts : List Token} :
      c.next? = some (t, d) → Produces d ts c' → Produces c (t :: ts) c'

/-- A run gives the front of the leaves that are left and leaves the others. -/
theorem Produces.left_eq {c c' : Cursor} {ts : List Token} (h : c.Produces ts c') :
    left c.levels = ts ++ left c'.levels := by
  induction h with
  | refl c => rfl
  | next hnext _ ih => rw [left_of_next? hnext, ih, List.cons_append]

/-- Every front of the leaves that are left is given by a run. -/
theorem exists_produces {ts us : List Token} {c : Cursor} (h : left c.levels = ts ++ us) :
    ∃ c', c.Produces ts c' := by
  induction ts generalizing c with
  | nil => exact ⟨c, .refl c⟩
  | cons t ts ih =>
      -- a leaf is left, so the cursor is not at its end
      cases hnext : c.next? with
      | none =>
          rw [(next?_eq_none_iff c).mp hnext] at h
          cases h
      | some found =>
          obtain ⟨u, d⟩ := found
          rw [left_of_next? hnext] at h
          obtain ⟨rfl, hd⟩ := List.cons.inj h
          obtain ⟨c', hrun⟩ := ih hd
          exact ⟨c', .next hnext hrun⟩

/-- A cursor can be stopped behind each front of the leaves that are left, and nowhere else. -/
theorem produces_iff (c : Cursor) (ts : List Token) :
    (∃ c', c.Produces ts c') ↔ ts <+: left c.levels := by
  constructor
  · rintro ⟨c', h⟩
    exact ⟨left c'.levels, h.left_eq.symm⟩
  · rintro ⟨us, h⟩
    exact exists_produces h.symm

/-- A cursor comes to its end, with all the leaves that were left and no others. -/
theorem produces_end_iff (c : Cursor) (ts : List Token) :
    (∃ c', c.Produces ts c' ∧ c'.next? = none) ↔ ts = left c.levels := by
  constructor
  · rintro ⟨c', h, hend⟩
    rw [h.left_eq, (next?_eq_none_iff c').mp hend, List.append_nil]
  · rintro rfl
    obtain ⟨c', h⟩ := exists_produces (List.append_nil (left c.levels)).symm
    refine ⟨c', h, (next?_eq_none_iff c').mpr ?_⟩
    exact List.self_eq_append_right.mp h.left_eq

end Cursor

/-! ## Both queries -/

/-- On any tree a cursor can be stopped behind each front of the leaves and nowhere else, it ends behind
all of them, and they come from the positions of leaves, in document order and each position once. A
search gives what the pre-order has of the rule, from the positions of such nodes in the same way. -/
theorem queries_exact (r : Rule) (cs : List Tree) :
    (∀ ts, (∃ c, (node r cs).cursor.Produces ts c) ↔ ts <+: (node r cs).leaves) ∧
    (∀ ts, (∃ c, (node r cs).cursor.Produces ts c ∧ c.next? = none) ↔ ts = (node r cs).leaves) ∧
    (node r cs).tokens = (node r cs).leaves ∧
    (∃ visits, (node r cs).Surveys (fun u => u.token?.isSome) visits ∧
      (node r cs).tokens.map leaf = visits.map Prod.snd) ∧
    ∀ rule,
      (node r cs).descendants rule = (node r cs).preorder.filter (fun u => u.rule? = some rule) ∧
      ∃ visits, (node r cs).Surveys (fun u => u.rule? = some rule) visits ∧
        (node r cs).descendants rule = visits.map Prod.snd := by
  have hleft : Cursor.left (node r cs).cursor.levels = (node r cs).leaves := by
    rw [left_cursor, leaves_node, children]
  have htokens : (node r cs).tokens = (node r cs).leaves := by
    rw [tokens_eq, leaves_node, children]
  refine ⟨fun ts => ?_, fun ts => ?_, htokens, ?_, fun rule => ⟨descendants_eq_filter _ rule, ?_⟩⟩
  · rw [← hleft]
    exact Cursor.produces_iff _ ts
  · rw [← hleft]
    exact Cursor.produces_end_iff _ ts
  · rw [htokens, map_leaf_leaves]
    simpa using surveys_filter (node r cs) fun u => u.token?.isSome
  · rw [descendants_eq_filter]
    exact surveys_filter (node r cs) fun u => u.rule? = some rule

/-- Nodes without children give no leaf, and equal leaves and equal nodes side by side each count. -/
example (t : Token) :
    let bare := node .params []
    let tree := node .params [bare, node .typeName [bare, leaf t, leaf t], bare]
    tree.tokens = [t, t] ∧ tree.descendants .params = [tree, bare, bare, bare] := by
  refine ⟨?_, rfl⟩
  rw [tokens_eq]
  rfl

end ClassChart.Tree
