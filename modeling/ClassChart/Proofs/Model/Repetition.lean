/-
# ClassChart.Proofs.Model.Repetition — what was merged once brings nothing a second time

Merging keeps the first of everything: the first entity of a key, and of its members the first of each
name, signature or value. An entity that comes again therefore changes nothing, whether it was kept, was
folded into an earlier one, lost some members to an earlier one, or was left out because of its kind.
The argument is the same at every level, since every level keeps first occurrences by a key.

So merging twice is merging once, the models that merging leaves alone are exactly the settled ones, and
a batch may hold the same text any number of times.
-/
import ClassChart.Batch
import ClassChart.Proofs.Model.Laws

namespace ClassChart

/-! ## Repetitions in a list -/

section Lists

variable {α κ : Type} [DecidableEq κ] (key : α → κ)

/-- What stands in a list already adds no first occurrence. -/
theorem firstsBy_append_of_subset {xs ys : List α} (hsub : ys ⊆ xs) :
    firstsBy key (xs ++ ys) = firstsBy key xs := by
  have hnone : (firstsBy key ys).filter (fun y => decide (key y ∉ xs.map key)) = [] := by
    apply List.filter_eq_nil_iff.mpr
    intro y hy hnew
    apply of_decide_eq_true hnew
    exact List.mem_map_of_mem (hsub (firstsBy_subset key ys hy))
  rw [firstsBy_append, hnone, List.append_nil]

theorem flatMap_subset {β : Type} (f : α → List β) {xs ys : List α} (hsub : ys ⊆ xs) :
    ys.flatMap f ⊆ xs.flatMap f := by
  intro b hb
  obtain ⟨a, ha, hmem⟩ := List.mem_flatMap.mp hb
  exact List.mem_flatMap.mpr ⟨a, hsub ha, hmem⟩

/-- First occurrences among members, with the members of entities that come again. -/
theorem firstsBy_flatMap_append {β : Type} (f : β → List α) {xs ys : List β} (hsub : ys ⊆ xs) :
    firstsBy key ((xs ++ ys).flatMap f) = firstsBy key (xs.flatMap f) := by
  rw [List.flatMap_append]
  exact firstsBy_append_of_subset key (flatMap_subset f hsub)

end Lists

/-! ## Repetitions in a model -/

section Models

variable {m n : Model}

theorem members_append_of_subset (hsub : n ⊆ m) (isClass : Bool) :
    Model.members isClass (m ++ n) = Model.members isClass m := by
  unfold Model.members
  rw [firstsBy_flatMap_append Attribute.name Entity.attributes hsub,
    firstsBy_flatMap_append Method.signature Entity.methods hsub,
    firstsBy_flatMap_append id Entity.values hsub]

/-- What stands for an entity is the same with the repetitions. -/
theorem combined_append_of_subset (hsub : n ⊆ m) (f : Entity) :
    Model.combined (m ++ n) f = m.combined f := by
  have hlikes : n.likes f ⊆ m.likes f := List.filter_subset _ hsub
  rw [Model.combined, likes_append, members_append_of_subset hlikes]
  rfl

theorem grouped_append_of_subset (hsub : n ⊆ m) : Model.grouped (m ++ n) = m.grouped := by
  rw [Model.grouped, firstsBy_append_of_subset Entity.key hsub]
  apply List.map_congr_left
  intro f _
  exact combined_append_of_subset hsub f

/-- Entities that occur already change nothing, in whatever order and number they come again. -/
theorem merge_append_of_subset (hsub : n ⊆ m) : (Model.merge (m ++ n)).1 = m.merge.1 := by
  rw [merge_model, merge_model]
  exact grouped_append_of_subset hsub

/-- Merging leaves a model alone exactly when it is settled. -/
theorem merge_eq_self_iff (m : Model) : m.merge.1 = m ↔ m.Settled := by
  constructor
  · intro hself
    have hsettled := merge_settled m
    rwa [hself] at hsettled
  · intro hsettled
    rw [merge_of_settled hsettled]

/-- Of several things that bring the same entities, all but the first may be left out. -/
theorem merge_flatMap_firstsBy {α κ : Type} [DecidableEq κ] (key : α → κ) (entities : α → Model)
    (hkey : ∀ x y, key x = key y → entities x = entities y) (xs : List α) :
    (Model.merge ((firstsBy key xs).flatMap entities)).1 = (Model.merge (xs.flatMap entities)).1 := by
  -- The last one either brings something new on both sides or repeats an earlier one.
  induction xs using List.reverseRecOn with
  | nil => rfl
  | append_singleton xs x ih =>
      rw [firstsBy_concat, List.flatMap_append, List.flatMap_singleton]
      by_cases hold : ∃ y ∈ firstsBy key xs, key y = key x
      · have hsub : entities x ⊆ xs.flatMap entities := by
          obtain ⟨y, hy, hsame⟩ := hold
          intro e he
          rw [← hkey y x hsame] at he
          exact List.mem_flatMap.mpr ⟨y, firstsBy_subset key xs hy, he⟩
        rw [addNew_of_mem hold, merge_append_of_subset hsub, ih]
      · have hnew : ∀ y ∈ firstsBy key xs, key y ≠ key x := by
          intro y hy hsame
          exact hold ⟨y, hy, hsame⟩
        rw [addNew_of_not_mem hnew, List.flatMap_append, List.flatMap_singleton,
          ← merge_append_left, ih, merge_append_left]

end Models

/-! ## Repetitions in a batch -/

section Units

variable (settings : Settings)

/-- The entities that a unit brings into a batch; none if it fails. -/
def SourceUnit.entities (unit : SourceUnit) : Model :=
  match unit.extract settings with
  | .ok (model, _) => model
  | .error _ => []

/-- Units with the same text bring the same entities, whatever their names. -/
theorem entities_congr {unit other : SourceUnit} (htext : unit.text = other.text) :
    unit.entities settings = other.entities settings := by
  unfold SourceUnit.entities SourceUnit.extract
  rw [htext]
  cases parse settings.defaultValues other.text with
  | ok result => rfl
  | error error => rfl

theorem successes_flatMap (units : List SourceUnit) :
    (successes (units.map (·.extract settings))).flatMap (·.1) =
      units.flatMap (SourceUnit.entities settings) := by
  induction units with
  | nil => rfl
  | cons unit units ih =>
      rw [List.flatMap_cons, ← ih, SourceUnit.entities, List.map_cons]
      cases hunit : unit.extract settings with
      | ok result =>
          show (result :: successes (units.map (·.extract settings))).flatMap (·.1) = _
          rw [List.flatMap_cons]
      | error failure => rfl

/-- With merging on, the model of a batch is the merge of what its units bring. -/
theorem extractUnits_model (hmerge : settings.merge = true) (units : List SourceUnit) :
    (extractUnits settings units).model =
      (Model.merge (units.flatMap (SourceUnit.entities settings))).1 := by
  rw [← successes_flatMap]
  show (settings.mergeIfEnabled _).1 = _
  rw [Settings.mergeIfEnabled, if_pos hmerge]

end Units

/-- Merging is idempotent and ignores repetitions. Entities that come again change nothing, not even
those that were left out the first time; a merged model is merged to itself without a warning; and a model
is its own merge exactly when no key occurs in it twice and in none of its entities an attribute name, a
method signature or an enum value. So with merging on, units that repeat the text of an earlier one may be
left out of a batch. -/
theorem merge_ignores_repetitions (m : Model) :
    (∀ n : Model, n ⊆ m → (Model.merge (m ++ n)).1 = m.merge.1) ∧
    Model.merge m.merge.1 = (m.merge.1, []) ∧
    (m.merge.1 = m ↔ m.Settled) ∧
    (∀ (settings : Settings) (units : List SourceUnit), settings.merge = true →
      (extractUnits settings (firstsBy SourceUnit.text units)).model =
        (extractUnits settings units).model) := by
  refine ⟨fun n => merge_append_of_subset, merge_of_settled (merge_settled m), merge_eq_self_iff m, ?_⟩
  intro settings units hmerge
  rw [extractUnits_model settings hmerge, extractUnits_model settings hmerge]
  apply merge_flatMap_firstsBy
  intro unit other htext
  exact entities_congr settings htext

/-- A class, an enum with its key, and the class again with another type for its attribute. -/
def clashingModel : Model :=
  [⟨⟨"N", "K"⟩, .ofClass [⟨"x", "int", .isPublic, none⟩] []⟩,
    ⟨⟨"N", "K"⟩, .ofEnum ["A"]⟩,
    ⟨⟨"N", "K"⟩, .ofClass [⟨"x", "long", .isPublic, none⟩, ⟨"y", "int", .isPublic, none⟩] []⟩]

/-- Two units with one text, and one with another. -/
def repeatedUnits : List SourceUnit :=
  [⟨"a", "namespace N; enum E \x7b A \x7d"⟩, ⟨"b", "namespace N; enum E \x7b B \x7d"⟩,
    ⟨"c", "namespace N; enum E \x7b A \x7d"⟩]

theorem merge_ignores_repetitions_clashing :
    clashingModel.reverse ⊆ clashingModel ∧
      (Model.merge (clashingModel ++ clashingModel.reverse)).1 = clashingModel.merge.1 ∧
      clashingModel.merge.1 = [⟨⟨"N", "K"⟩,
        .ofClass [⟨"x", "int", .isPublic, none⟩, ⟨"y", "int", .isPublic, none⟩] []⟩] ∧
      Settings.standard.merge = true ∧ repeatedUnits.length = 3 ∧
      (firstsBy SourceUnit.text repeatedUnits).length = 2 ∧
      (extractUnits .standard (firstsBy SourceUnit.text repeatedUnits)).model =
        (extractUnits .standard repeatedUnits).model := by
  have hsub : clashingModel.reverse ⊆ clashingModel := by simp
  have hmerge : Settings.standard.merge = true := rfl
  exact ⟨hsub, (merge_ignores_repetitions clashingModel).1 _ hsub, by decide, hmerge, rfl, by decide,
    (merge_ignores_repetitions clashingModel).2.2.2 _ _ hmerge⟩

end ClassChart
