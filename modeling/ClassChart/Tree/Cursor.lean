/-
# ClassChart.Tree.Cursor — leaf by leaf through a tree

A `Cursor` stands between two leaves of a tree. It keeps, innermost first, what is left to visit at
each level, so that the next leaf is found without walking the tree again, whatever its depth.
-/
import ClassChart.Tree

namespace ClassChart.Tree

mutual

/-- The number of leaves and nodes of a tree. -/
def size : Tree → Nat
  | leaf _ => 1
  | node _ cs => 1 + sizeAll cs

/-- The number of leaves and nodes of several trees. -/
def sizeAll : List Tree → Nat
  | [] => 0
  | t :: ts => t.size + sizeAll ts

end

/-- What is left to visit, level by level, the innermost level first. -/
structure Cursor where
  levels : List (List Tree)
deriving Repr

namespace Cursor

/-- A bound on the steps that are left: each tree is entered and left, each level is left. -/
def work : List (List Tree) → Nat
  | [] => 0
  | level :: outer => 2 * sizeAll level + 1 + work outer

/-- The next leaf in source order, with the levels that are left behind it. -/
def nextIn (levels : List (List Tree)) : Option (Token × List (List Tree)) :=
  match levels with
  | [] => none
  | [] :: outer => nextIn outer
  | (.leaf t :: ts) :: outer => some (t, ts :: outer)
  | (.node _ cs :: ts) :: outer => nextIn (cs :: ts :: outer)
termination_by work levels
decreasing_by
  · simp [work, sizeAll]
  · simp only [work, sizeAll, size]; omega

/-- The next leaf in source order, and the cursor behind it. -/
def next? (c : Cursor) : Option (Token × Cursor) := (nextIn c.levels).map fun (t, rest) => (t, ⟨rest⟩)

/-- Finding a leaf leaves less to do. -/
theorem work_lt_of_nextIn {levels rest : List (List Tree)} {t : Token}
    (found : nextIn levels = some (t, rest)) : work rest < work levels := by
  fun_induction nextIn levels with
  | case1 => simp at found
  | case2 outer ih => exact Nat.lt_of_lt_of_le (ih found) (by simp [work, sizeAll])
  | case3 outer token ts =>
    simp only [Option.some.injEq, Prod.mk.injEq] at found
    obtain ⟨rfl, rfl⟩ := found
    simp only [work, sizeAll, size]; omega
  | case4 outer rule cs ts ih =>
    have := ih found
    simp only [work, sizeAll, size] at this ⊢; omega

/-- Every leaf that a cursor with these levels still comes to. -/
def drain (levels : List (List Tree)) : List Token :=
  match _found : nextIn levels with
  | none => []
  | some (t, rest) => t :: drain rest
termination_by work levels
decreasing_by exact work_lt_of_nextIn _found

end Cursor

/-- A cursor before the first leaf under a tree. A leaf has nothing under it. -/
def cursor (t : Tree) : Cursor := ⟨[t.children]⟩

/-- Every leaf under a tree in source order. -/
def tokens (t : Tree) : List Token := Cursor.drain t.cursor.levels

end ClassChart.Tree
