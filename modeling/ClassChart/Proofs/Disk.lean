/-
# ClassChart.Proofs.Disk — what writing a file changes

A place is a list of names from the root down. What stands there is nothing, a directory or a file with
its bytes, and a path is followed from place to place by that alone (`content_follow`). Writing a file
changes what stands at one place, and it was no directory before: so a path leads to something else
afterwards only if it ends at that place.
-/
import ClassChart.Disk

namespace ClassChart

open ClassChart.Path

/-! ## Places -/

/-- What stands at a place. -/
inductive Content where
  | nothing
  | directory
  | file (bytes : ByteArray)

instance (c : Content) : Decidable (c = .directory) :=
  match c with
  | .nothing => isFalse nofun
  | .directory => isTrue rfl
  | .file _ => isFalse nofun

namespace Entry

/-- What the entry is. -/
def content : Entry → Content
  | file bytes => .file bytes
  | directory _ => .directory

/-- What stands at a place below the entry. -/
def contentAt (e : Entry) : List String → Content
  | [] => e.content
  | name :: rest =>
    match e.child? name with
    | some child => child.contentAt rest
    | none => .nothing

theorem isDirectory_iff (e : Entry) : e.isDirectory = true ↔ e.content = .directory := by
  cases e <;> simp [isDirectory, content]

theorem contentAt_some {e child : Entry} {name : String} (h : e.child? name = some child)
    (rest : List String) : e.contentAt (name :: rest) = child.contentAt rest := by
  simp only [contentAt, h]

theorem contentAt_none {e : Entry} {name : String} (h : e.child? name = none) (rest : List String) :
    e.contentAt (name :: rest) = .nothing := by
  simp only [contentAt, h]

/-- Only a directory has entries. -/
theorem content_of_child? {e child : Entry} {name : String} (h : e.child? name = some child) :
    e.content = .directory := by
  cases e with
  | file bytes => cases h
  | directory entries => rfl

/-- Something stands only below a directory. -/
theorem content_of_contentAt {e : Entry} {place : List String} (h : e.contentAt place = .directory) :
    e.content = .directory := by
  cases place with
  | nil => exact h
  | cons name rest =>
      cases hchild : e.child? name with
      | none =>
          rw [contentAt_none hchild] at h
          cases h
      | some child => exact content_of_child? hchild

/-- The place around a directory is one. -/
theorem contentAt_dropLast {e : Entry} {place : List String} (h : e.contentAt place = .directory) :
    e.contentAt place.dropLast = .directory := by
  induction place generalizing e with
  | nil => exact h
  | cons name rest ih =>
      cases hchild : e.child? name with
      | none =>
          rw [contentAt_none hchild] at h
          cases h
      | some child =>
          rw [contentAt_some hchild] at h
          cases rest with
          | nil => exact content_of_child? hchild
          | cons next rest =>
              rw [List.dropLast_cons_cons, contentAt_some hchild]
              exact ih h

end Entry

namespace Disk

/-! ## Following a path -/

/-- The place behind a part of a path. -/
def step (place : List String) (part : String) : List String :=
  if isIdle part then place else if part = ".." then place.dropLast else place ++ [part]

/-- What parts lead to from a place, by what stands at the places on the way. -/
def walk (what : List String → Content) (place : List String) : List String → Content
  | [] => what place
  | part :: rest => if what place = .directory then walk what (step place part) rest else .nothing

theorem names_eq (parts : List String) : names parts = parts.foldl step [] := rfl

section Walk

variable {what what' : List String → Content} {target : List String}

theorem walk_concat (place parts : List String) (last : String) :
    walk what place (parts ++ [last]) =
      if walk what place parts = .directory then what (step (parts.foldl step place) last)
      else .nothing := by
  induction parts generalizing place with
  | nil => rfl
  | cons part rest ih =>
      rw [List.cons_append, walk, walk, List.foldl_cons]
      split
      · exact ih (step place part)
      · rfl

/-- Parts that lead to something lead to the place they come down to. -/
theorem what_of_walk {place parts : List String} (h : walk what place parts ≠ .nothing) :
    what (parts.foldl step place) = walk what place parts := by
  induction parts generalizing place with
  | nil => rfl
  | cons part rest ih =>
      rw [walk] at h ⊢
      split at h
      · rename_i hdir
        rw [if_pos hdir]
        exact ih h
      · exact absurd rfl h

/-- A change at a place that is no directory, before or after, matters only to parts that end there. -/
theorem walk_congr (hsame : ∀ place, place ≠ target → what' place = what place)
    (hold : what target ≠ .directory) (hnew : what' target ≠ .directory) {place parts : List String}
    (hend : parts.foldl step place ≠ target) : walk what' place parts = walk what place parts := by
  induction parts generalizing place with
  | nil => exact hsame place hend
  | cons part rest ih =>
      rw [walk, walk, ih hend]
      by_cases hplace : place = target
      · subst hplace
        rw [if_neg hnew, if_neg hold]
      · rw [hsame place hplace]

end Walk

/-- The entry stands at the place below the root, with those around it in order. -/
inductive Stands (root : Entry) : List String → Entry → List Entry → Prop where
  | root : Stands root [] root []
  | inside {place : List String} {here child : Entry} {around : List Entry} {name : String} :
      Stands root place here around → here.child? name = some child →
      Stands root (place ++ [name]) child (here :: around)

variable {root here : Entry} {place : List String} {around : List Entry}

theorem Stands.contentAt (h : Stands root place here around) (rest : List String) :
    root.contentAt (place ++ rest) = here.contentAt rest := by
  induction h generalizing rest with
  | root => rfl
  | inside _ hchild ih => rw [List.append_assoc, List.singleton_append, ih, Entry.contentAt_some hchild]

theorem Stands.content (h : Stands root place here around) : root.contentAt place = here.content := by
  have hhere := h.contentAt []
  rwa [List.append_nil] at hhere

/-- What the parts lead to. -/
def found : Except SystemError Entry → Content
  | .ok e => e.content
  | .error _ => .nothing

theorem any_isDirectory_iff (result : Except SystemError Entry) :
    result.toOption.any (·.isDirectory) = true ↔ found result = .directory := by
  cases result with
  | ok e => exact e.isDirectory_iff
  | error error => simp [Except.toOption, found]

/-- A path is followed by what stands at the places on the way. -/
theorem content_follow (h : Stands root place here around) (parts : List String) :
    found (follow here around parts) = walk root.contentAt place parts := by
  induction parts generalizing place here around with
  | nil => exact h.content.symm
  | cons part rest ih =>
      rw [follow.eq_def, walk, h.content]
      dsimp only
      by_cases hdir : here.content = .directory
      · rw [if_pos hdir, (here.isDirectory_iff).mpr hdir, Bool.not_true, if_neg Bool.false_ne_true, step]
        split
        · exact ih h
        · split
          · cases h with
            | root => exact ih .root
            | inside houter _ =>
                rw [List.dropLast_concat]
                exact ih houter
          · cases hchild : here.child? part with
            | some child => exact ih (h.inside hchild)
            | none =>
                have hnothing : root.contentAt (place ++ [part]) = .nothing := by
                  rw [h.contentAt, Entry.contentAt_none hchild]
                cases rest with
                | nil => exact hnothing.symm
                | cons next rest =>
                    rw [walk, hnothing, if_neg nofun]
                    rfl
      · have hfile : here.isDirectory = false := by
          rw [← Bool.not_eq_true, here.isDirectory_iff]
          exact hdir
        rw [if_neg hdir, hfile, Bool.not_false, if_pos rfl]
        rfl

/-- What a path leads to. -/
def content (d : Disk) (path : String) : Content := found (d.lookup path)

theorem content_eq (d : Disk) {path : String} (h : path ≠ "") :
    d.content path = walk d.root.contentAt [] (d.fromRoot path) := by
  rw [content, lookup, if_neg h, content_follow .root]

theorem content_empty (d : Disk) : d.content "" = .nothing := rfl

/-! ## Writing a file -/

theorem child?_cons (name : String) (entry : String × Entry) (entries : List (String × Entry)) :
    (Entry.directory (entry :: entries)).child? name =
      if entry.1 = name then some entry.2 else (Entry.directory entries).child? name := by
  by_cases h : entry.1 = name
  · simp [Entry.child?, Entry.entries, h]
  · simp [Entry.child?, Entry.entries, h]

theorem child?_setEntry (name other : String) (change : Option Entry → Entry)
    (entries : List (String × Entry)) :
    (Entry.directory (setEntry name change entries)).child? other =
      if other = name then some (change ((Entry.directory entries).child? name))
      else (Entry.directory entries).child? other := by
  induction entries with
  | nil =>
      rw [setEntry, child?_cons]
      by_cases hname : other = name
      · rw [if_pos hname, if_pos hname.symm]
        rfl
      · rw [if_neg hname, if_neg (Ne.symm hname)]
  | cons entry rest ih =>
      obtain ⟨first, e⟩ := entry
      rw [setEntry, child?_cons name, child?_cons other]
      by_cases hfirst : first = name
      · subst hfirst
        rw [if_pos rfl, if_pos rfl, child?_cons]
        by_cases hother : other = first
        · rw [if_pos hother, if_pos hother.symm]
        · rw [if_neg hother, if_neg (Ne.symm hother), if_neg (Ne.symm hother)]
      · rw [if_neg hfirst, if_neg hfirst, child?_cons, ih]
        by_cases hother : first = other
        · subst hother
          rw [if_pos rfl, if_neg hfirst, if_pos rfl]
        · rw [if_neg hother, if_neg hother]

theorem contentAt_file (bytes : ByteArray) (place : List String) :
    (Entry.file bytes).contentAt place = if place = [] then .file bytes else .nothing := by
  cases place <;> rfl

/-- Where no directory is, nothing stands further down. -/
theorem contentAt_below {e : Entry} {place : List String} (h : e.content ≠ .directory) (hne : place ≠ []) :
    e.contentAt place = .nothing := by
  cases e with
  | file bytes => rw [contentAt_file, if_neg hne]
  | directory entries => exact absurd rfl h

theorem eq_directory {e : Entry} (h : e.content = .directory) : e = .directory e.entries := by
  cases e with
  | file bytes => cases h
  | directory entries => rfl

/-- A file that is put where no directory is, into a directory that is there, changes that place only. -/
theorem contentAt_put {old : Entry} {place : List String} (bytes : ByteArray) (hne : place ≠ [])
    (hdir : old.contentAt place.dropLast = .directory) (hfree : old.contentAt place ≠ .directory)
    (other : List String) :
    (Entry.put (.file bytes) place old).contentAt other =
      if other = place then .file bytes else old.contentAt other := by
  induction place generalizing old other with
  | nil => exact absurd rfl hne
  | cons name rest ih =>
      have hold : old = .directory old.entries := eq_directory (Entry.content_of_contentAt hdir)
      cases other with
      | nil =>
          rw [if_neg nofun, hold]
          rfl
      | cons first below =>
          by_cases hfirst : first = name
          · subst hfirst
            have hput : (Entry.put (.file bytes) (first :: rest) old).contentAt (first :: below) =
                (Entry.put (.file bytes) rest ((old.child? first).getD (.directory []))).contentAt below := by
              refine Entry.contentAt_some ?_ below
              rw [Entry.put, child?_setEntry, if_pos rfl, ← hold]
            rw [hput]
            cases rest with
            | nil =>
                -- The file itself, and below it nothing: as before, since there was no directory.
                rw [show Entry.put (.file bytes) [] _ = .file bytes from rfl, contentAt_file]
                by_cases hbelow : below = []
                · rw [if_pos hbelow, if_pos (by rw [hbelow])]
                · rw [if_neg hbelow, if_neg fun heq => hbelow (List.cons.inj heq).2]
                  cases hchild : old.child? first with
                  | none => rw [Entry.contentAt_none hchild]
                  | some child =>
                      rw [Entry.contentAt_some hchild] at hfree ⊢
                      rw [contentAt_below hfree hbelow]
            | cons next more =>
                cases hchild : old.child? first with
                | none =>
                    rw [List.dropLast_cons_cons, Entry.contentAt_none hchild] at hdir
                    cases hdir
                | some child =>
                    rw [List.dropLast_cons_cons, Entry.contentAt_some hchild] at hdir
                    rw [Entry.contentAt_some hchild] at hfree ⊢
                    rw [Option.getD_some, ih nofun hdir hfree below]
                    simp only [List.cons.injEq, true_and]
          · have hput : (Entry.put (.file bytes) (name :: rest) old).child? first = old.child? first := by
              rw [Entry.put, child?_setEntry, if_neg hfirst, ← hold]
            rw [if_neg fun heq => hfirst (List.cons.inj heq).1, Entry.contentAt, hput, Entry.contentAt]

theorem isDirectory_of_not {e : Entry} (h : ¬(!e.isDirectory) = true) : e.content = .directory := by
  rw [← e.isDirectory_iff]
  simpa using h

/-- Writing succeeds at a last name in a directory, where no directory is yet. -/
theorem write_eq_ok {d d' : Disk} {path : String} {bytes : ByteArray} (h : d.write path bytes = .ok d') :
    d' = d.put path (.file bytes) ∧ path ≠ "" ∧
      ∃ front last, d.fromRoot path = front ++ [last] ∧ last ≠ "" ∧
        walk d.root.contentAt [] front = .directory ∧
        walk d.root.contentAt [] (d.fromRoot path) ≠ .directory := by
  unfold write at h
  split at h
  · cases h
  · rename_i hpath
    dsimp only at h
    split at h
    · cases h
    · rename_i outer houter
      split at h
      · cases h
      · rename_i hdir
        split at h
        · cases h
        · rename_i hfree
          cases h
          rw [not_or] at hfree
          obtain ⟨hslash, hfree⟩ := hfree
          rcases List.eq_nil_or_concat (d.fromRoot path) with hnil | ⟨front, last, hall⟩
          · -- No parts at all lead to the root.
            rw [hnil] at houter hfree
            cases houter
            exact absurd ((any_isDirectory_iff (.ok d.root)).mpr (isDirectory_of_not hdir)) hfree
          · rw [List.concat_eq_append] at hall
            have hlast : last ≠ "" := by
              rintro rfl
              exact hslash (by rw [hall, List.getLast?_concat])
            have htrimmed : ((d.fromRoot path).reverse.dropWhile (· == "")).reverse = front ++ [last] := by
              simp [hall, hlast]
            rw [htrimmed] at houter hfree
            rw [List.dropLast_concat] at houter
            refine ⟨rfl, hpath, front, last, hall, hlast, ?_, ?_⟩
            · rw [← content_follow .root, houter]
              exact isDirectory_of_not hdir
            · rw [hall, ← content_follow .root]
              exact fun hfound => hfree ((any_isDirectory_iff _).mpr hfound)

theorem names_concat (front : List String) (last : String) :
    names (front ++ [last]) = step (names front) last := by
  rw [names_eq, List.foldl_append]
  rfl

/-- Parts that lead to a directory come down to its place. -/
theorem contentAt_names {root : Entry} {parts : List String}
    (h : walk root.contentAt [] parts = .directory) : root.contentAt (names parts) = .directory := by
  have hplace : root.contentAt (parts.foldl step []) = walk root.contentAt [] parts :=
    what_of_walk (by rw [h]; nofun)
  exact hplace.trans h

/-- The place of a file that was written: a name in a directory, and no directory itself. -/
theorem place_of_write {d d' : Disk} {path : String} {bytes : ByteArray}
    (h : d.write path bytes = .ok d') :
    names (d.fromRoot path) ≠ [] ∧
      d.root.contentAt (names (d.fromRoot path)).dropLast = .directory ∧
      d.root.contentAt (names (d.fromRoot path)) ≠ .directory := by
  obtain ⟨_, _, front, last, hall, _, hfront, hfree⟩ := write_eq_ok h
  have houter := contentAt_names hfront
  rw [hall, walk_concat, if_pos hfront, ← names_eq] at hfree
  rw [hall, names_concat]
  unfold step at hfree ⊢
  split at hfree
  · exact absurd houter hfree
  · split at hfree
    · exact absurd (Entry.contentAt_dropLast houter) hfree
    · rename_i hidle hup
      rw [if_neg hidle, if_neg hup, List.dropLast_concat]
      exact ⟨by simp, houter, hfree⟩

/-- The second disk is the first one with a file of these bytes at the path, and otherwise the same. -/
structure Gains (d d' : Disk) (path : String) (bytes : ByteArray) : Prop where
  working_eq : d'.working = d.working
  content_eq : d'.content path = .file bytes
  content_other : ∀ other, names (d.fromRoot other) ≠ names (d.fromRoot path) →
    d'.content other = d.content other

/-- Writing a file is seen at the paths that lead to its place, and at no other. -/
theorem gains_of_write {d d' : Disk} {path : String} {bytes : ByteArray}
    (h : d.write path bytes = .ok d') : Gains d d' path bytes := by
  obtain ⟨hne, houter, hfree⟩ := place_of_write h
  obtain ⟨hput, hpath, front, last, hall, _, hfront, _⟩ := write_eq_ok h
  have hroot : ∀ place, d'.root.contentAt place =
      if place = names (d.fromRoot path) then .file bytes else d.root.contentAt place := by
    rw [hput]
    exact contentAt_put bytes hne houter hfree
  have hworking : d'.working = d.working := by
    rw [hput]
    rfl
  have hparts (other : String) : d'.fromRoot other = d.fromRoot other := by
    rw [fromRoot, hworking]
    rfl
  have hplace : d'.root.contentAt (names (d.fromRoot path)) = .file bytes := (hroot _).trans (if_pos rfl)
  have hsame (parts : List String) (hends : names parts ≠ names (d.fromRoot path)) :
      walk d'.root.contentAt [] parts = walk d.root.contentAt [] parts := by
    refine walk_congr (fun place hne => (hroot place).trans (if_neg hne)) hfree ?_ hends
    rw [hplace]
    nofun
  refine ⟨hworking, ?_, ?_⟩
  · have houter' : walk d'.root.contentAt [] front = .directory := by
      refine (hsame front fun heq => hfree ?_).trans hfront
      rw [← heq]
      exact contentAt_names hfront
    rw [Disk.content_eq _ hpath, hparts, hall, walk_concat, if_pos houter', ← names_eq, ← names_concat,
      ← hall, hplace]
  · intro other hends
    by_cases hempty : other = ""
    · rw [hempty, content_empty, content_empty]
    · rw [Disk.content_eq _ hempty, Disk.content_eq _ hempty, hparts]
      exact hsame _ hends

end Disk

end ClassChart
