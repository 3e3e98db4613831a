/-
# ClassChart.Proofs.Tree.Bare — trees without positions and bodies

Whoever makes a model of a tree looks neither at positions nor at what stands in bodies. `bare` takes
both away, and every query of trees commutes with it: what is found in a bare tree is, bare, what is
found in the tree. Two trees that are equal when bare therefore answer all queries alike.
-/
import ClassChart.Proofs.Tree.Queries

namespace ClassChart

/-- The token without its position and, where it is a body, without its text. Only a text that reads as
an equals sign is left, since initializers are looked for by that alone. -/
def Token.bare (t : Token) : Token :=
  ⟨t.kind, if t.kind = .body ∧ t.text ≠ "=" then "" else t.text, Span.empty⟩

namespace Token

@[simp] theorem bare_kind (t : Token) : t.bare.kind = t.kind := rfl

@[simp] theorem bare_isKind (t : Token) (kind : TokenKind) : t.bare.isKind kind = t.isKind kind := rfl

/-- Only the text of a body is lost. -/
theorem bare_text {t : Token} (h : t.kind ≠ .body) : t.bare.text = t.text := by
  simp [bare, h]

/-- A body is not written `=`, with or without its text. -/
@[simp] theorem bare_text_eq (t : Token) : t.bare.text = "=" ↔ t.text = "=" := by
  simp only [bare]
  split
  · rename_i h
    simp [h.2]
  · rfl

/-- Tokens are alike when bare if their kinds and texts are the same. -/
theorem bare_congr {t t' : Token} (hkind : t.kind = t'.kind) (htext : t.text = t'.text) :
    t.bare = t'.bare := by
  rw [bare, bare, hkind, htext]

end Token

namespace Tree

mutual

/-- The tree without positions and the texts of bodies. -/
def bare : Tree → Tree
  | leaf t => leaf t.bare
  | node r cs => node r (bareAll cs)

/-- Several trees without positions and the texts of bodies. -/
def bareAll : List Tree → List Tree
  | [] => []
  | t :: ts => t.bare :: bareAll ts

end

theorem bareAll_eq_map (ts : List Tree) : bareAll ts = ts.map bare := by
  induction ts with
  | nil => rw [bareAll, List.map_nil]
  | cons t ts ih => rw [bareAll, List.map_cons, ih]

@[simp] theorem bare_leaf (t : Token) : (leaf t).bare = leaf t.bare := by
  rw [bare]

@[simp] theorem bare_node (r : Rule) (cs : List Tree) : (node r cs).bare = node r (cs.map bare) := by
  rw [bare, bareAll_eq_map]

@[simp] theorem bare_rule? (t : Tree) : t.bare.rule? = t.rule? := by
  cases t with
  | leaf t => rw [bare_leaf, rule?, rule?]
  | node r cs => rw [bare_node, rule?, rule?]

@[simp] theorem bare_token? (t : Tree) : t.bare.token? = t.token?.map Token.bare := by
  cases t with
  | leaf t => simp [token?]
  | node r cs => simp [token?]

@[simp] theorem bare_children (t : Tree) : t.bare.children = t.children.map bare := by
  cases t with
  | leaf t => simp [children]
  | node r cs => simp [children]

/-! ## Queries -/

@[simp] theorem bare_childToken? (t : Tree) (kind : TokenKind) :
    t.bare.childToken? kind = (t.childToken? kind).map Token.bare := by
  have htokens : (t.children.map bare).filterMap token? =
      (t.children.filterMap token?).map Token.bare := by
    rw [List.filterMap_map, List.map_filterMap]
    congr 1
    funext c
    exact bare_token? c
  rw [childToken?, childToken?, bare_children, htokens, List.find?_map]
  rfl

@[simp] theorem bare_childNode? (t : Tree) (rule : Rule) :
    t.bare.childNode? rule = (t.childNode? rule).map bare := by
  rw [childNode?, childNode?, bare_children, List.find?_map]
  congr 2
  funext c
  simp

@[simp] theorem bare_childNodes (t : Tree) (rule : Rule) :
    t.bare.childNodes rule = (t.childNodes rule).map bare := by
  rw [childNodes, childNodes, bare_children, List.filter_map]
  congr 2
  funext c
  simp

mutual

/-- Leaves become bare one by one. -/
theorem bare_leaves (t : Tree) : t.bare.leaves = t.leaves.map Token.bare := by
  cases t with
  | leaf t => simp
  | node r cs => rw [bare_node, leaves_node, leaves_node, bare_leavesAll]

theorem bare_leavesAll (ts : List Tree) : leavesAll (ts.map bare) = (leavesAll ts).map Token.bare := by
  cases ts with
  | nil => simp
  | cons t ts =>
      rw [List.map_cons, leavesAll_cons, leavesAll_cons, List.map_append, bare_leaves, bare_leavesAll]

end

@[simp] theorem bare_tokens (t : Tree) : t.bare.tokens = t.tokens.map Token.bare := by
  rw [tokens_eq, tokens_eq, bare_children, bare_leavesAll]

/-- The first leaf under a tree. -/
theorem cursor_next? (t : Tree) :
    t.cursor.next?.map (·.1) = (leavesAll t.children).head? := by
  rw [← left_cursor]
  cases hnext : t.cursor.next? with
  | none =>
      rw [(Cursor.next?_eq_none_iff _).mp hnext]
      rfl
  | some found =>
      rw [Cursor.left_of_next? hnext]
      rfl

mutual

/-- The nodes of a rule become bare where they stand. -/
theorem bare_collect (rule : Rule) (t : Tree) :
    collect rule [] t.bare = (collect rule [] t).map bare := by
  cases t with
  | leaf t => rw [bare_leaf, collect, collect, List.map_nil]
  | node r cs =>
      rw [bare_node, collect, collect, collectAll_eq, collectAll_eq rule _ cs, List.map_append,
        bare_collectAll]
      split <;> simp

theorem bare_collectAll (rule : Rule) (ts : List Tree) :
    collectAll rule [] (ts.map bare) = (collectAll rule [] ts).map bare := by
  cases ts with
  | nil => rw [List.map_nil, collectAll, List.map_nil]
  | cons t ts =>
      rw [List.map_cons, collectAll_cons, collectAll_cons, List.map_append, bare_collect,
        bare_collectAll]

end

@[simp] theorem bare_descendants (t : Tree) (rule : Rule) :
    t.bare.descendants rule = (t.descendants rule).map bare :=
  bare_collect rule t

end Tree

end ClassChart
