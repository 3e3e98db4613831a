/-
# ClassChart.Proofs.Model.Merge — merging is grouping by key

`Model.merge` folds entity after entity into what it has. The reference here looks at the model as a whole:
the first entity of each key, and for each of them the members of all entities with its key and its kind,
reduced to first occurrences. Both agree on every model, warnings included. The induction takes the last
entity away, since that is the one the fold sees last; the invariant is the reference itself, taken of
the entities seen so far.
-/
import ClassChart.Model.Merge
import Mathlib.Data.List.Induction

namespace ClassChart

/-! ## First occurrences -/

section FirstOccurrences

variable {α κ : Type} [DecidableEq κ] {key : α → κ} {xs : List α} {x : α}

/-- The first of those with the same key, in order. -/
def firstsBy (key : α → κ) : List α → List α
  | [] => []
  | x :: xs => x :: (firstsBy key xs).filter fun y => key y ≠ key x

/-- No key is lost. -/
theorem exists_mem_firstsBy (key : α → κ) (hx : x ∈ xs) : ∃ y ∈ firstsBy key xs, key y = key x := by
  induction xs with
  | nil => exact absurd hx List.not_mem_nil
  | cons z xs ih =>
      rw [firstsBy]
      by_cases hz : key x = key z
      · exact ⟨z, List.mem_cons_self, hz.symm⟩
      · have hmem : x ∈ xs := by
          rcases List.mem_cons.mp hx with rfl | hmem
          · exact absurd rfl hz
          · exact hmem
        obtain ⟨y, hy, hkey⟩ := ih hmem
        refine ⟨y, List.mem_cons_of_mem z (List.mem_filter.mpr ⟨hy, ?_⟩), hkey⟩
        rw [hkey]
        exact decide_eq_true hz

/-- No key occurs twice. -/
theorem firstsBy_pairwise (key : α → κ) (xs : List α) :
    (firstsBy key xs).Pairwise fun x y => key x ≠ key y := by
  induction xs with
  | nil => exact List.Pairwise.nil
  | cons x xs ih =>
      rw [firstsBy]
      refine List.Pairwise.cons ?_ (ih.filter _)
      intro y hy
      have hne := (List.mem_filter.mp hy).2
      exact (of_decide_eq_true hne).symm

/-- Looking for a key finds the same before and after. -/
theorem find?_firstsBy (key : α → κ) (xs : List α) (k : κ) :
    (firstsBy key xs).find? (fun y => key y == k) = xs.find? fun y => key y == k := by
  induction xs with
  | nil => rfl
  | cons x xs ih =>
      rw [firstsBy]
      by_cases hx : key x = k
      · rw [List.find?_cons_of_pos (by simp [hx]), List.find?_cons_of_pos (by simp [hx])]
      · -- What the head filters out has the key of the head, which is not the one looked for.
        rw [List.find?_cons_of_neg (by simp [hx]), List.find?_cons_of_neg (by simp [hx]),
          List.find?_filter, ← ih]
        congr 1
        funext y
        by_cases hy : key y = k
        · subst hy
          simp [Ne.symm hx]
        · simp [hy]

theorem addNew_of_mem (hx : ∃ y ∈ xs, key y = key x) : addNew key xs x = xs := by
  rw [addNew, if_pos]
  simpa using hx

theorem addNew_of_not_mem (hx : ∀ y ∈ xs, key y ≠ key x) : addNew key xs x = xs ++ [x] := by
  rw [addNew, if_neg]
  simpa using hx

/-- One more element is added, unless its key is there. -/
theorem firstsBy_concat (key : α → κ) (xs : List α) (x : α) :
    firstsBy key (xs ++ [x]) = addNew key (firstsBy key xs) x := by
  induction xs with
  | nil => rfl
  | cons z xs ih =>
      rw [List.cons_append, firstsBy, firstsBy, ih]
      by_cases hold : ∃ y ∈ firstsBy key xs, key y = key x
      · rw [addNew_of_mem hold]
        obtain ⟨y, hy, hkey⟩ := hold
        refine (addNew_of_mem ?_).symm
        -- The element with the key may have been filtered out, but then the head has that key.
        by_cases hz : key y = key z
        · exact ⟨z, List.mem_cons_self, hz ▸ hkey⟩
        · have hkept : decide (key y ≠ key z) = true := decide_eq_true hz
          exact ⟨y, List.mem_cons_of_mem z (List.mem_filter.mpr ⟨hy, hkept⟩), hkey⟩
      · have hnew : ∀ y ∈ firstsBy key xs, key y ≠ key x := by
          intro y hy hkey
          exact hold ⟨y, hy, hkey⟩
        rw [addNew_of_not_mem hnew, List.filter_append]
        by_cases hz : key z = key x
        · rw [addNew_of_mem ⟨z, List.mem_cons_self, hz⟩]
          simp [hz]
        · rw [addNew_of_not_mem]
          · simp [Ne.symm hz]
          · intro y hy
            rcases List.mem_cons.mp hy with rfl | hy
            · exact hz
            · exact hnew y (List.mem_filter.mp hy).1

/-- Adding elements one by one, unless their key is there, keeps the first occurrences. -/
theorem unionBy_firstsBy (key : α → κ) (xs ys : List α) :
    unionBy key (firstsBy key xs) ys = firstsBy key (xs ++ ys) := by
  induction ys generalizing xs with
  | nil => rw [List.append_nil, unionBy, List.foldl_nil]
  | cons y ys ih =>
      have hstep := ih (xs ++ [y])
      rw [List.append_assoc, firstsBy_concat] at hstep
      exact hstep

end FirstOccurrences

/-! ## The reference -/

namespace Model

/-- The entities with the key and the kind of the given one. -/
def likes (m : Model) (first : Entity) : Model :=
  m.filter fun e => e.key = first.key ∧ e.isClass = first.isClass

/-- The members of several classes, or of several enums, each the first time it occurs. -/
def members (isClass : Bool) (m : Model) : EntityBody :=
  if isClass then
    .ofClass (firstsBy Attribute.name (m.flatMap Entity.attributes))
      (firstsBy Method.signature (m.flatMap Entity.methods))
  else .ofEnum (firstsBy id (m.flatMap Entity.values))

/-- All entities with the key and the kind of the given one as a single entity. -/
def combined (m : Model) (first : Entity) : Entity :=
  ⟨first.key, members first.isClass (m.likes first)⟩

/-- One entity for each key, in the order in which the keys first occur. -/
def grouped (m : Model) : Model := (firstsBy Entity.key m).map m.combined

/-- Whether the kind of an entity is not that of the first one with its key. -/
def isConflict (m : Model) (e : Entity) : Bool := (m.find? e.key).any (·.isClass != e.isClass)

/-- A warning for each entity whose kind is not that of the first one with its key. -/
def conflicts (m : Model) : List Warning := (m.filter m.isConflict).map (.kindConflict ·.key)

end Model

/-! ## Folding in one entity -/

/-- An entity as it is after another one was folded in. -/
def Entity.absorb (e f : Entity) : Entity :=
  if f.key = e.key then ⟨f.key, (f.body.absorb? e.body).getD f.body⟩ else f

/-- Members are taken over exactly when the kinds agree. -/
theorem absorb?_isSome (e f : Entity) :
    (f.body.absorb? e.body).isSome = (f.isClass == e.isClass) := by
  unfold Entity.isClass
  cases f.body <;> cases e.body <;> rfl

/-- An entity with a new key comes last. -/
theorem mergeEntity_of_new {m : Model} {e : Entity} (hnew : ∀ f ∈ m, f.key ≠ e.key) :
    mergeEntity m e = (m ++ [⟨e.key, e.body.distinct⟩], []) := by
  induction m with
  | nil => rfl
  | cons f m ih =>
      rw [mergeEntity, if_neg (hnew f List.mem_cons_self),
        ih fun g hg => hnew g (List.mem_cons_of_mem f hg)]
      rfl

theorem isConflict_cons_of_eq {m : Model} {e f : Entity} (hkey : f.key = e.key) :
    Model.isConflict (f :: m) e = (f.isClass != e.isClass) := by
  have hfind : Model.find? (f :: m) e.key = some f := List.find?_cons_of_pos (by simp [hkey])
  rw [Model.isConflict, hfind]
  rfl

theorem isConflict_cons_of_ne {m : Model} {e f : Entity} (hkey : f.key ≠ e.key) :
    Model.isConflict (f :: m) e = m.isConflict e := by
  have hfind : Model.find? (f :: m) e.key = Model.find? m e.key :=
    List.find?_cons_of_neg (by simp [hkey])
  rw [Model.isConflict, hfind]
  rfl

/-- Folding changes the entity with the key, and only that. -/
theorem mergeEntity_of_old {m : Model} {e : Entity} (hm : m.Pairwise fun f g => f.key ≠ g.key)
    (hold : ∃ f ∈ m, f.key = e.key) :
    mergeEntity m e = (m.map e.absorb, if m.isConflict e then [.kindConflict e.key] else []) := by
  induction m with
  | nil =>
      obtain ⟨f, hf, _⟩ := hold
      exact absurd hf List.not_mem_nil
  | cons f m ih =>
      obtain ⟨hne, hm⟩ := List.pairwise_cons.mp hm
      by_cases hkey : f.key = e.key
      · -- Keys are distinct, so absorbing leaves all that follows as it is.
        have hothers : m.map e.absorb = m := by
          refine List.map_congr_left (fun g hg => ?_) |>.trans (List.map_id m)
          exact if_neg fun hg' => hne g hg (hkey.trans hg'.symm)
        have hsome := absorb?_isSome e f
        rw [mergeEntity, if_pos hkey, List.map_cons, hothers, isConflict_cons_of_eq hkey,
          Entity.absorb, if_pos hkey]
        cases habsorb : f.body.absorb? e.body with
        | none =>
            rw [habsorb, Option.isSome_none] at hsome
            rw [bne, ← hsome]
            rfl
        | some body =>
            rw [habsorb, Option.isSome_some] at hsome
            rw [bne, ← hsome]
            rfl
      · have hrest : ∃ g ∈ m, g.key = e.key := by
          obtain ⟨g, hg, hgkey⟩ := hold
          rcases List.mem_cons.mp hg with rfl | hg
          · exact absurd hgkey hkey
          · exact ⟨g, hg, hgkey⟩
        rw [mergeEntity, if_neg hkey, ih hm hrest, List.map_cons, isConflict_cons_of_ne hkey,
          Entity.absorb, if_neg hkey]

/-! ## The reference behind one more entity -/

theorem likes_concat_of_like {m : Model} {e f : Entity}
    (hlike : e.key = f.key ∧ e.isClass = f.isClass) :
    Model.likes (m ++ [e]) f = m.likes f ++ [e] := by
  rw [Model.likes, List.filter_append, List.filter_cons_of_pos (by simpa using hlike)]
  rfl

theorem likes_concat_of_unlike {m : Model} {e f : Entity}
    (hunlike : ¬(e.key = f.key ∧ e.isClass = f.isClass)) :
    Model.likes (m ++ [e]) f = m.likes f := by
  rw [Model.likes, List.filter_append, List.filter_cons_of_neg (by simpa using hunlike),
    List.filter_nil, List.append_nil]
  rfl

/-- Members are added at the end, unless they are there. -/
theorem members_absorb?_of_like (m : Model) (e : Entity) :
    (Model.members e.isClass m).absorb? e.body = some (Model.members e.isClass (m ++ [e])) := by
  unfold Model.members Entity.isClass
  cases hbody : e.body with
  | ofClass attributes methods =>
      have hattributes : e.attributes = attributes := by rw [Entity.attributes, hbody]
      have hmethods : e.methods = methods := by rw [Entity.methods, hbody]
      rw [if_pos rfl, if_pos rfl, EntityBody.absorb?, unionBy_firstsBy, unionBy_firstsBy,
        List.flatMap_append, List.flatMap_append, List.flatMap_singleton, List.flatMap_singleton,
        hattributes, hmethods]
  | ofEnum values =>
      have hvalues : e.values = values := by rw [Entity.values, hbody]
      rw [if_neg Bool.false_ne_true, if_neg Bool.false_ne_true, EntityBody.absorb?,
        unionBy_firstsBy, List.flatMap_append, List.flatMap_singleton, hvalues]

theorem combined_isClass (m : Model) (f : Entity) : (m.combined f).isClass = f.isClass := by
  unfold Model.combined Model.members Entity.isClass
  cases f.body <;> rfl

/-- Folding an entity into what stands for the entities so far gives what stands for all of them. -/
theorem combined_concat (m : Model) (e f : Entity) :
    Model.combined (m ++ [e]) f = e.absorb (m.combined f) := by
  have hcombined : (m.combined f).key = f.key := rfl
  by_cases hkey : f.key = e.key
  · rw [Entity.absorb, if_pos (hcombined.trans hkey)]
    by_cases hkind : e.isClass = f.isClass
    · rw [Model.combined, likes_concat_of_like ⟨hkey.symm, hkind⟩, ← hkind,
        Model.combined, ← hkind, members_absorb?_of_like]
      rfl
    · -- An entity of the other kind is left out on both sides.
      have hnone : (m.combined f).body.absorb? e.body = none := by
        have hsome := absorb?_isSome e (m.combined f)
        rw [combined_isClass, beq_eq_false_iff_ne.mpr (Ne.symm hkind)] at hsome
        exact Option.isSome_eq_false_iff.mp hsome |> Option.isNone_iff_eq_none.mp
      rw [hnone, Model.combined, likes_concat_of_unlike fun h => hkind h.2]
      rfl
  · rw [Entity.absorb, hcombined, if_neg hkey, Model.combined,
      likes_concat_of_unlike fun h => hkey h.1.symm]
    rfl

/-- An entity with a new key stands for itself. -/
theorem combined_concat_of_new {m : Model} {e : Entity} (hnew : ∀ f ∈ m, f.key ≠ e.key) :
    Model.combined (m ++ [e]) e = ⟨e.key, e.body.distinct⟩ := by
  have hlikes : m.likes e = [] :=
    List.filter_eq_nil_iff.mpr fun f hf h => hnew f hf (of_decide_eq_true h).1
  rw [Model.combined, likes_concat_of_like ⟨rfl, rfl⟩, hlikes]
  have habsorb := members_absorb?_of_like [] e
  have hblank : Model.members e.isClass [] = e.body.blank := by
    unfold Model.members Entity.isClass
    cases e.body <;> rfl
  rw [hblank] at habsorb
  rw [EntityBody.distinct, habsorb]
  rfl

/-! ## Runs -/

/-- The reference has the kinds of the first entities, so conflicts with it are conflicts with them. -/
theorem isConflict_grouped (m : Model) (e : Entity) : m.grouped.isConflict e = m.isConflict e := by
  have hfind : m.grouped.find? e.key = (m.find? e.key).map m.combined := by
    rw [Model.grouped, Model.find?, List.find?_map]
    exact congrArg _ (find?_firstsBy Entity.key m e.key)
  rw [Model.isConflict, hfind, Option.any_map, Model.isConflict]
  cases m.find? e.key with
  | none => rfl
  | some f =>
      show ((m.combined f).isClass != e.isClass) = (f.isClass != e.isClass)
      rw [combined_isClass]

/-- One step of the fold takes the reference of the entities so far to that of one more. -/
theorem mergeEntity_grouped (m : Model) (e : Entity) :
    mergeEntity m.grouped e =
      (Model.grouped (m ++ [e]), if m.isConflict e then [.kindConflict e.key] else []) := by
  have hmap : (firstsBy Entity.key m).map (Model.combined (m ++ [e])) = m.grouped.map e.absorb := by
    rw [Model.grouped, List.map_map]
    exact List.map_congr_left fun f _ => combined_concat m e f
  have hnext : Model.grouped (m ++ [e]) =
      (addNew Entity.key (firstsBy Entity.key m) e).map (Model.combined (m ++ [e])) := by
    rw [Model.grouped, firstsBy_concat]
  rw [hnext]
  by_cases hold : ∃ f ∈ firstsBy Entity.key m, f.key = e.key
  · have hapart : m.grouped.Pairwise fun f g => f.key ≠ g.key :=
      (firstsBy_pairwise Entity.key m).map m.combined fun _ _ hne => hne
    have hgrouped : ∃ f ∈ m.grouped, f.key = e.key := by
      obtain ⟨f, hf, hkey⟩ := hold
      exact ⟨m.combined f, List.mem_map_of_mem hf, hkey⟩
    rw [mergeEntity_of_old hapart hgrouped, isConflict_grouped, addNew_of_mem hold, hmap]
  · have hfirsts : ∀ f ∈ firstsBy Entity.key m, f.key ≠ e.key := fun f hf hkey => hold ⟨f, hf, hkey⟩
    have hgrouped : ∀ f ∈ m.grouped, f.key ≠ e.key := by
      intro f hf
      obtain ⟨g, hg, rfl⟩ := List.mem_map.mp hf
      exact hfirsts g hg
    have hnew : ∀ f ∈ m, f.key ≠ e.key := by
      intro f hf hkey
      obtain ⟨g, hg, hgkey⟩ := exists_mem_firstsBy Entity.key hf
      exact hfirsts g hg (hgkey.trans hkey)
    have hkept : m.grouped.map e.absorb = m.grouped :=
      (List.map_congr_left fun f hf => if_neg (hgrouped f hf)).trans (List.map_id _)
    have hnone : m.isConflict e = false := by
      rw [← isConflict_grouped, Model.isConflict, Model.find?,
        List.find?_eq_none.mpr fun f hf => by simpa using hgrouped f hf]
      rfl
    rw [mergeEntity_of_new hgrouped, hnone, addNew_of_not_mem hfirsts, List.map_append, hmap, hkept,
      List.map_singleton, combined_concat_of_new hnew]
    rfl

/-- Whether an entity conflicts is settled by what stands before it. -/
theorem isConflict_concat {m : Model} {e f : Entity} (hf : f ∈ m ∨ f = e) :
    Model.isConflict (m ++ [e]) f = m.isConflict f := by
  have hfind : Model.find? (m ++ [e]) f.key = (m.find? f.key).or (Model.find? [e] f.key) :=
    List.find?_append
  rw [Model.isConflict, hfind, Model.isConflict]
  cases hfound : m.find? f.key with
  | some first => rfl
  | none =>
      rcases hf with hf | rfl
      · have hne := List.find?_eq_none.mp hfound f hf
        exact absurd (beq_self_eq_true f.key) hne
      · have hself : Model.find? [f] f.key = some f := List.find?_cons_of_pos (beq_self_eq_true _)
        rw [hself]
        exact bne_self_eq_false _

theorem conflicts_concat (m : Model) (e : Entity) :
    Model.conflicts (m ++ [e]) =
      m.conflicts ++ if m.isConflict e then [.kindConflict e.key] else [] := by
  have hfront : m.filter (Model.isConflict (m ++ [e])) = m.filter m.isConflict :=
    List.filter_congr fun f hf => isConflict_concat (Or.inl hf)
  rw [Model.conflicts, List.filter_append, hfront, List.map_append, List.filter_cons,
    isConflict_concat (Or.inr rfl)]
  cases m.isConflict e <;> rfl

theorem merge_concat (m : Model) (e : Entity) :
    Model.merge (m ++ [e]) =
      ((mergeEntity m.merge.1 e).1, m.merge.2 ++ (mergeEntity m.merge.1 e).2) := by
  rw [Model.merge, mergeInto, List.foldl_append]
  rfl

/-- What is merged is grouped. The last entity goes into groups that are there or makes one. -/
theorem merge_model (m : Model) : m.merge.1 = m.grouped := by
  induction m using List.reverseRecOn with
  | nil => rfl
  | append_singleton m e ih => rw [merge_concat, ih, mergeEntity_grouped]

theorem merge_warnings (m : Model) : m.merge.2 = m.conflicts := by
  induction m using List.reverseRecOn with
  | nil => rfl
  | append_singleton m e ih =>
      rw [merge_concat, merge_model, mergeEntity_grouped, ih, conflicts_concat]

end ClassChart
