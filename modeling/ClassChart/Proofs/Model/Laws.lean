/-
# ClassChart.Proofs.Model.Laws — merging in parts, and in any order

What merging gives is *settled*: no key and no member occurs twice in it. A settled model is its own
merge, so a model that was merged on the way can be merged again with what came later. On the left this
holds without conditions, since the first kind of a key is kept. On the right it needs that no key
occurs as a class and as an enum: otherwise the kind that comes first in the right part decides what is
left of it before the left part is seen.

Where no kinds clash, the place of an entity decides only which of several members with one name is
kept. So the sets of names, signatures and values do not depend on the order at all.
-/
import ClassChart.Proofs.Model.Merge
import ClassChart.Session
import Mathlib.Data.Finset.Dedup
import Mathlib.Data.List.Forall2
import Mathlib.Data.List.Pairwise

namespace ClassChart

/-! ## First occurrences of joined lists -/

section FirstOccurrences

variable {α κ : Type} [DecidableEq κ] (key : α → κ)

/-- What has no repetition is left as it is. -/
theorem firstsBy_of_pairwise {xs : List α} (hxs : xs.Pairwise fun x y => key x ≠ key y) :
    firstsBy key xs = xs := by
  induction xs with
  | nil => rfl
  | cons x xs ih =>
      obtain ⟨hx, hxs⟩ := List.pairwise_cons.mp hxs
      rw [firstsBy, ih hxs, List.filter_eq_self.mpr]
      intro y hy
      exact decide_eq_true (hx y hy).symm

theorem firstsBy_firstsBy (xs : List α) : firstsBy key (firstsBy key xs) = firstsBy key xs :=
  firstsBy_of_pairwise key (firstsBy_pairwise key xs)

theorem firstsBy_subset (xs : List α) : firstsBy key xs ⊆ xs := by
  induction xs with
  | nil => exact List.Subset.refl _
  | cons x xs ih =>
      apply List.cons_subset_cons
      intro y hy
      exact ih (List.mem_filter.mp hy).1

/-- The keys are those of the list. -/
theorem mem_map_firstsBy (xs : List α) (k : κ) : k ∈ (firstsBy key xs).map key ↔ k ∈ xs.map key := by
  simp only [List.mem_map]
  constructor
  · rintro ⟨x, hx, hkey⟩
    exact ⟨x, firstsBy_subset key xs hx, hkey⟩
  · rintro ⟨x, hx, rfl⟩
    exact exists_mem_firstsBy key hx

/-- Of the second list remains what has no key of the first. -/
theorem firstsBy_append (xs ys : List α) :
    firstsBy key (xs ++ ys) =
      firstsBy key xs ++ (firstsBy key ys).filter fun y => decide (key y ∉ xs.map key) := by
  induction xs with
  | nil =>
      show firstsBy key ys = _
      simp [firstsBy]
  | cons x xs ih =>
      rw [List.cons_append, firstsBy, firstsBy, ih, List.filter_append, List.filter_filter,
        List.cons_append]
      congr 2
      apply List.filter_congr
      intro y _
      simp

/-- The first occurrences can be taken of the second list beforehand. -/
theorem firstsBy_append_firstsBy (xs ys : List α) :
    firstsBy key (xs ++ firstsBy key ys) = firstsBy key (xs ++ ys) := by
  rw [firstsBy_append, firstsBy_append, firstsBy_firstsBy]

theorem prefix_unionBy (xs ys : List α) : xs <+: unionBy key xs ys := by
  induction ys generalizing xs with
  | nil => exact List.prefix_rfl
  | cons y ys ih =>
      have hstep : xs <+: addNew key xs y := by
        unfold addNew
        split
        · exact List.prefix_rfl
        · exact List.prefix_append xs [y]
      exact hstep.trans (ih _)

end FirstOccurrences

/-! ## Models without clashes -/

/-- No key occurs both as a class and as an enum. -/
def Model.NoClash (m : Model) : Prop :=
  ∀ e ∈ m, ∀ f ∈ m, e.key = f.key → e.isClass = f.isClass

instance (m : Model) : Decidable m.NoClash :=
  inferInstanceAs (Decidable (∀ e ∈ m, ∀ f ∈ m, e.key = f.key → e.isClass = f.isClass))

theorem Model.NoClash.of_subset {m n : Model} (h : n.NoClash) (hsub : m ⊆ n) : m.NoClash :=
  fun e he f hf => h e (hsub he) f (hsub hf)

theorem conflicts_of_noClash {m : Model} (h : m.NoClash) : m.conflicts = [] := by
  have hnone : m.filter m.isConflict = [] := by
    apply List.filter_eq_nil_iff.mpr
    intro e he hconflict
    obtain ⟨f, hf, hkind⟩ := (Option.any_eq_true _ _).mp hconflict
    rw [Model.find?] at hf
    have hkey : f.key = e.key := by simpa using List.find?_some hf
    have hsame := h f (List.mem_of_find?_eq_some hf) e he hkey
    rw [hsame, bne_self_eq_false] at hkind
    exact Bool.noConfusion hkind
  rw [Model.conflicts, hnone, List.map_nil]

/-! ## Settled models -/

/-- No member of the entity occurs twice. -/
structure Entity.Distinct (e : Entity) : Prop where
  attributes : e.attributes.Pairwise fun a b => a.name ≠ b.name
  methods : e.methods.Pairwise fun a b => a.signature ≠ b.signature
  values : e.values.Pairwise fun a b => a ≠ b

/-- No key occurs twice, and no member of any entity. -/
structure Model.Settled (m : Model) : Prop where
  keys : m.Pairwise fun e f => e.key ≠ f.key
  entities : ∀ e ∈ m, e.Distinct

section Settled

variable {m : Model}

theorem combined_distinct (m : Model) (f : Entity) : (m.combined f).Distinct := by
  unfold Model.combined Model.members
  split
  · refine ⟨firstsBy_pairwise _ _, firstsBy_pairwise _ _, List.Pairwise.nil⟩
  · exact ⟨List.Pairwise.nil, List.Pairwise.nil, firstsBy_pairwise _ _⟩

theorem grouped_settled (m : Model) : m.grouped.Settled where
  keys := (firstsBy_pairwise Entity.key m).map m.combined fun _ _ hne => hne
  entities := by
    intro e he
    obtain ⟨f, _, rfl⟩ := List.mem_map.mp he
    exact combined_distinct m f

/-- Where no key occurs twice, an entity has only itself to be joined with. -/
theorem likes_of_settled (hm : m.Settled) {e : Entity} (he : e ∈ m) : m.likes e = [e] := by
  have hkeys := hm.keys
  clear hm
  induction m with
  | nil => exact absurd he List.not_mem_nil
  | cons f m ih =>
      obtain ⟨hf, hkeys⟩ := List.pairwise_cons.mp hkeys
      rcases List.mem_cons.mp he with rfl | he
      · have hrest : Model.likes m e = [] := by
          apply List.filter_eq_nil_iff.mpr
          intro g hg hlike
          exact hf g hg (of_decide_eq_true hlike).1.symm
        rw [Model.likes, List.filter_cons_of_pos (by simp)]
        exact congrArg (e :: ·) hrest
      · rw [Model.likes, List.filter_cons_of_neg (by simp [hf e he])]
        exact ih he hkeys

theorem members_of_distinct {e : Entity} (he : e.Distinct) :
    Model.members e.isClass [e] = e.body := by
  obtain ⟨key, body⟩ := e
  cases body with
  | ofClass attributes methods =>
      have hattributes : firstsBy Attribute.name attributes = attributes :=
        firstsBy_of_pairwise _ he.attributes
      have hmethods : firstsBy Method.signature methods = methods :=
        firstsBy_of_pairwise _ he.methods
      simp [Model.members, Entity.isClass, Entity.attributes, Entity.methods, hattributes, hmethods]
  | ofEnum values =>
      have hvalues : firstsBy id values = values := firstsBy_of_pairwise id he.values
      simp [Model.members, Entity.isClass, Entity.values, hvalues]

/-- A settled model is its own merge. -/
theorem grouped_of_settled (hm : m.Settled) : m.grouped = m := by
  rw [Model.grouped, firstsBy_of_pairwise _ hm.keys]
  refine (List.map_congr_left fun e he => ?_).trans (List.map_id m)
  rw [Model.combined, likes_of_settled hm he, members_of_distinct (hm.entities e he)]
  rfl

/-- Where no key occurs twice, none occurs as a class and as an enum. -/
theorem Model.Settled.noClash (hm : m.Settled) : m.NoClash := by
  intro e he f hf hkey
  by_contra hkind
  have hne : e ≠ f := by
    rintro rfl
    exact hkind rfl
  have hsymm : Std.Symm fun e f : Entity => e.key ≠ f.key := ⟨fun _ _ h => h.symm⟩
  exact hm.keys.forall he hf hne hkey

theorem merge_of_settled (hm : m.Settled) : m.merge = (m, []) := by
  apply Prod.ext
  · rw [merge_model, grouped_of_settled hm]
  · rw [merge_warnings, conflicts_of_noClash hm.noClash]

theorem merge_settled (m : Model) : m.merge.1.Settled := by
  rw [merge_model]
  exact grouped_settled m

end Settled

/-! ## Merging in parts -/

section Parts

/-- What is folded in does not depend on the warnings so far. -/
theorem mergeInto_eq (m : Model) (warnings : List Warning) (entities : Model) :
    mergeInto (m, warnings) entities =
      ((mergeInto (m, []) entities).1, warnings ++ (mergeInto (m, []) entities).2) := by
  induction entities generalizing m warnings with
  | nil =>
      show (m, warnings) = (m, warnings ++ [])
      rw [List.append_nil]
  | cons e entities ih =>
      have hstep (found : List Warning) : mergeInto (m, found) (e :: entities) =
          mergeInto ((mergeEntity m e).1, found ++ (mergeEntity m e).2) entities := rfl
      rw [hstep, hstep, ih, ih _ ([] ++ _), List.nil_append, List.append_assoc]

theorem merge_append (a b : Model) : Model.merge (a ++ b) = mergeInto a.merge b := by
  rw [Model.merge, mergeInto, List.foldl_append]
  rfl

/-- A model can be merged before others are appended to it. The warnings come in two parts. -/
theorem merge_append_eq (a b : Model) :
    Model.merge (a ++ b) =
      ((Model.merge (a.merge.1 ++ b)).1, a.merge.2 ++ (Model.merge (a.merge.1 ++ b)).2) := by
  have hleft : Model.merge (a.merge.1 ++ b) = mergeInto (a.merge.1, []) b := by
    rw [merge_append, merge_of_settled (merge_settled a)]
  rw [hleft, merge_append]
  exact mergeInto_eq a.merge.1 a.merge.2 b

theorem merge_append_left (a b : Model) :
    (Model.merge (a.merge.1 ++ b)).1 = (Model.merge (a ++ b)).1 := by
  rw [merge_append_eq a b]

/-- The steps that append models one after another, each followed by a merge where it says so. -/
def appendSteps (parts : List (Model × Bool)) : List Step :=
  parts.flatMap fun (more, mergeNow) => .append more :: if mergeNow then [.merge] else []

/-- The model after several steps. -/
def Step.runAll (settings : Settings) (m : Model) (steps : List Step) : Model :=
  steps.foldl (fun m step => (step.run settings m).model) m

theorem Step.runAll_append (settings : Settings) (m : Model) (steps more : List Step) :
    Step.runAll settings m (steps ++ more) =
      Step.runAll settings (Step.runAll settings m steps) more :=
  List.foldl_append

/-- An append, with or without a merge behind it, comes to the same once all is merged. -/
theorem merge_appendStep (settings : Settings) (m more rest : Model) (mergeNow : Bool) :
    (Model.merge (Step.runAll settings m (appendSteps [(more, mergeNow)]) ++ rest)).1 =
      (Model.merge (m ++ (more ++ rest))).1 := by
  rw [← List.append_assoc]
  cases mergeNow with
  | false => rfl
  | true => exact merge_append_left (m ++ more) rest

/-- Any number of appends with merges between them comes to the same once all is merged. -/
theorem merge_appendSteps (settings : Settings) (m : Model) (parts : List (Model × Bool)) :
    (Model.merge (Step.runAll settings m (appendSteps parts))).1 =
      (Model.merge (m ++ parts.flatMap (·.1))).1 := by
  induction parts generalizing m with
  | nil =>
      rw [List.flatMap_nil, List.append_nil]
      rfl
  | cons part parts ih =>
      obtain ⟨more, mergeNow⟩ := part
      have hsplit : appendSteps ((more, mergeNow) :: parts) =
          appendSteps [(more, mergeNow)] ++ appendSteps parts := by
        simp [appendSteps]
      rw [hsplit, Step.runAll_append, ih, merge_appendStep, List.flatMap_cons]

/-! ## What merging keeps of the left part -/

/-- The entity has the key and the kind of the other one, and begins with its members. -/
structure Entity.Extends (e f : Entity) : Prop where
  key : e.key = f.key
  kind : e.isClass = f.isClass
  attributes : f.attributes <+: e.attributes
  methods : f.methods <+: e.methods
  values : f.values <+: e.values

/-- The model begins with the entities of the other one, each of them extended or as it was. -/
def Model.Extends (m n : Model) : Prop :=
  ∃ front rest, m = front ++ rest ∧ List.Forall₂ (fun f e => e.Extends f) n front

theorem Entity.extends_refl (e : Entity) : e.Extends e :=
  ⟨rfl, rfl, List.prefix_rfl, List.prefix_rfl, List.prefix_rfl⟩

theorem Entity.Extends.trans {e f g : Entity} (hef : e.Extends f) (hfg : f.Extends g) :
    e.Extends g where
  key := hef.key.trans hfg.key
  kind := hef.kind.trans hfg.kind
  attributes := hfg.attributes.trans hef.attributes
  methods := hfg.methods.trans hef.methods
  values := hfg.values.trans hef.values

theorem Model.extends_nil (m : Model) : m.Extends [] := ⟨[], m, rfl, .nil⟩

theorem Model.Extends.cons {m n : Model} {e f : Entity} (hef : e.Extends f) (hmn : m.Extends n) :
    Model.Extends (e :: m) (f :: n) := by
  obtain ⟨front, rest, rfl, hfront⟩ := hmn
  exact ⟨e :: front, rest, rfl, .cons hef hfront⟩

theorem Model.extends_refl (m : Model) : m.Extends m := by
  induction m with
  | nil => exact extends_nil []
  | cons e m ih => exact ih.cons e.extends_refl

theorem Model.Extends.trans {l m n : Model} (hlm : l.Extends m) (hmn : m.Extends n) :
    l.Extends n := by
  induction n generalizing l m with
  | nil => exact extends_nil l
  | cons g n ih =>
      obtain ⟨front, rest, rfl, hfront⟩ := hmn
      cases hfront with | @cons _ f _ front hfg hfront =>
      obtain ⟨front', rest', rfl, hfront'⟩ := hlm
      cases hfront' with | @cons _ e _ front' hef hfront' =>
      have hrest : Model.Extends (front ++ rest) n := ⟨front, rest, rfl, hfront⟩
      have hrest' : Model.Extends (front' ++ rest') (front ++ rest) :=
        ⟨front', rest', rfl, hfront'⟩
      exact (ih hrest' hrest).cons (hef.trans hfg)

theorem absorb?_extends {key : EntityKey} {body more joined : EntityBody}
    (h : body.absorb? more = some joined) : Entity.Extends ⟨key, joined⟩ ⟨key, body⟩ := by
  cases body with
  | ofClass attributes methods =>
      cases more with
      | ofClass moreAttributes moreMethods =>
          cases h
          exact ⟨rfl, rfl, prefix_unionBy _ _ _, prefix_unionBy _ _ _, List.prefix_rfl⟩
      | ofEnum values => cases h
  | ofEnum values =>
      cases more with
      | ofClass attributes methods => cases h
      | ofEnum moreValues =>
          cases h
          exact ⟨rfl, rfl, List.prefix_rfl, List.prefix_rfl, prefix_unionBy _ _ _⟩

/-- One step of the fold keeps what is there. -/
theorem mergeEntity_extends (m : Model) (e : Entity) : (mergeEntity m e).1.Extends m := by
  induction m with
  | nil => exact Model.extends_nil _
  | cons f m ih =>
      rw [mergeEntity]
      split
      · split
        · rename_i body hbody
          exact (Model.extends_refl m).cons (absorb?_extends hbody)
        · exact Model.extends_refl _
      · exact ih.cons f.extends_refl

/-- So does the whole fold. -/
theorem mergeInto_extends (m : Model) (warnings : List Warning) (entities : Model) :
    (mergeInto (m, warnings) entities).1.Extends m := by
  induction entities generalizing m warnings with
  | nil => exact Model.extends_refl m
  | cons e entities ih =>
      show (mergeInto ((mergeEntity m e).1, warnings ++ (mergeEntity m e).2) entities).1.Extends m
      exact (ih _ _).trans (mergeEntity_extends m e)

theorem merge_extends (a b : Model) : (Model.merge (a ++ b)).1.Extends a.merge.1 := by
  rw [merge_append]
  exact mergeInto_extends a.merge.1 a.merge.2 b

end Parts

/-! ## Merging the right part beforehand -/

section NoClash

variable {a b m : Model}

/-- What stands for an entity depends on its key and its kind alone. -/
theorem combined_congr (m : Model) {e f : Entity} (hkey : e.key = f.key)
    (hkind : e.isClass = f.isClass) : m.combined e = m.combined f := by
  rw [Model.combined, Model.combined, Model.likes, Model.likes, hkey, hkind]

/-- Where no kinds clash, the first entity with a key is of the kind of all others. -/
theorem exists_first (hm : m.NoClash) {f : Entity} (hf : f ∈ m) :
    ∃ e ∈ firstsBy Entity.key m, e.key = f.key ∧ e.isClass = f.isClass := by
  obtain ⟨e, he, hkey⟩ := exists_mem_firstsBy Entity.key hf
  exact ⟨e, he, hkey, hm e (firstsBy_subset Entity.key m he) f hf hkey⟩

/-- Of the merged entities one at most has the key and the kind of a given one: what stands for it. -/
theorem likes_grouped (hm : m.NoClash) {f : Entity} (hf : f ∈ m) :
    m.grouped.likes f = [m.combined f] := by
  obtain ⟨e, he, hkey, hkind⟩ := exists_first hm hf
  have hmem : m.combined e ∈ m.grouped := List.mem_map_of_mem he
  have hlikes := likes_of_settled (grouped_settled m) hmem
  rw [combined_congr m hkey hkind] at hlikes
  rw [← hlikes, Model.likes, Model.likes, combined_isClass]
  rfl

theorem likes_append (a b : Model) (f : Entity) : Model.likes (a ++ b) f = a.likes f ++ b.likes f :=
  List.filter_append ..

theorem likes_eq_nil {f : Entity} (hf : f.key ∉ m.map Entity.key) : m.likes f = [] := by
  apply List.filter_eq_nil_iff.mpr
  intro e he hlike
  apply hf
  rw [← (of_decide_eq_true hlike).1]
  exact List.mem_map_of_mem he

/-- Members can be joined before they are added to others. -/
theorem members_append_combined (a b : Model) (f : Entity) :
    Model.members f.isClass (a ++ [b.combined f]) = Model.members f.isClass (a ++ b.likes f) := by
  obtain ⟨key, body⟩ := f
  cases body <;>
    simp [Model.members, Model.combined, Entity.isClass, Entity.attributes, Entity.methods,
      Entity.values, firstsBy_append_firstsBy]

theorem keys_grouped (m : Model) : m.grouped.map Entity.key = (firstsBy Entity.key m).map Entity.key := by
  rw [Model.grouped, List.map_map]
  rfl

/-- Merging the right part leaves what stands for an entity as it is. -/
theorem combined_append_grouped (h : Model.NoClash (a ++ b)) {f : Entity} (hf : f ∈ a ++ b) :
    Model.combined (a ++ b.grouped) f = Model.combined (a ++ b) f := by
  rw [Model.combined, Model.combined, likes_append, likes_append]
  congr 1
  by_cases hkey : f.key ∈ b.map Entity.key
  · obtain ⟨g, hg, hgkey⟩ := List.mem_map.mp hkey
    have hgkind : g.isClass = f.isClass := h g (List.mem_append_right a hg) f hf hgkey
    have hlikes (n : Model) : n.likes g = n.likes f := by
      rw [Model.likes, Model.likes, hgkey, hgkind]
    have hb : b.NoClash := h.of_subset (List.subset_append_right a b)
    rw [← hlikes b.grouped, likes_grouped hb hg, combined_congr b hgkey hgkind,
      members_append_combined]
  · have hgrouped : f.key ∉ b.grouped.map Entity.key := by
      rwa [keys_grouped, mem_map_firstsBy]
    rw [likes_eq_nil hkey, likes_eq_nil hgrouped]

/-- Where no kinds clash, the right part can be merged before it is appended. -/
theorem grouped_append_grouped (h : Model.NoClash (a ++ b)) :
    Model.grouped (a ++ b.grouped) = Model.grouped (a ++ b) := by
  have hfirsts : firstsBy Entity.key b.grouped = b.grouped :=
    firstsBy_of_pairwise Entity.key (grouped_settled b).keys
  show (firstsBy Entity.key (a ++ b.grouped)).map _ = (firstsBy Entity.key (a ++ b)).map _
  rw [firstsBy_append, firstsBy_append, hfirsts, List.map_append, List.map_append]
  congr 1
  · apply List.map_congr_left
    intro f hf
    exact combined_append_grouped h (List.mem_append_left b (firstsBy_subset _ _ hf))
  · -- The entities that the right part adds are those of its first entities with new keys.
    rw [Model.grouped, List.filter_map, List.map_map]
    apply List.map_congr_left
    intro f hf
    have hmem : f ∈ a ++ b :=
      List.mem_append_right a (firstsBy_subset _ _ (List.mem_filter.mp hf).1)
    have hsame : Model.combined (a ++ b.grouped) (b.combined f) =
        Model.combined (a ++ b.grouped) f :=
      combined_congr _ rfl (combined_isClass b f)
    exact hsame.trans (combined_append_grouped h hmem)

/-- Merging the right part brings no clash. -/
theorem noClash_append_grouped (h : Model.NoClash (a ++ b)) : Model.NoClash (a ++ b.grouped) := by
  have hlike : ∀ e ∈ a ++ b.grouped, ∃ f ∈ a ++ b, f.key = e.key ∧ f.isClass = e.isClass := by
    intro e he
    rcases List.mem_append.mp he with he | he
    · exact ⟨e, List.mem_append_left b he, rfl, rfl⟩
    · obtain ⟨f, hf, rfl⟩ := List.mem_map.mp he
      have hmem : f ∈ a ++ b := List.mem_append_right a (firstsBy_subset _ _ hf)
      exact ⟨f, hmem, rfl, (combined_isClass b f).symm⟩
  intro e he f hf hkey
  obtain ⟨e', he', hekey, hekind⟩ := hlike e he
  obtain ⟨f', hf', hfkey, hfkind⟩ := hlike f hf
  rw [← hekind, ← hfkind]
  exact h e' he' f' hf' (by rw [hekey, hfkey, hkey])

/-- Where no kinds clash, both parts can be merged beforehand. -/
theorem merge_append_both (h : Model.NoClash (a ++ b)) :
    Model.merge (a.merge.1 ++ b.merge.1) = Model.merge (a ++ b) := by
  have hb : b.merge.1 = b.grouped := merge_model b
  have hquiet : (Model.merge (a ++ b.grouped)).2 = [] := by
    rw [merge_warnings]
    exact conflicts_of_noClash (noClash_append_grouped h)
  have hparts := merge_append_eq a b.grouped
  rw [hb]
  apply Prod.ext
  · rw [merge_append_left, merge_model, merge_model, grouped_append_grouped h]
  · -- Both sides give no warning at all.
    rw [hparts] at hquiet
    rw [(List.append_eq_nil_iff.mp hquiet).2, merge_warnings]
    exact (conflicts_of_noClash h).symm

end NoClash

/-- Merging in parts agrees with merging once. What was merged can be merged again with more behind it,
so merges may be put anywhere between appends. What is merged first keeps its place, its kind and its
members, and more members only come behind them. And where no key occurs as a class and as an enum, the
parts may be merged each on its own. -/
theorem merge_in_parts (a b : Model) :
    (Model.merge (a.merge.1 ++ b)).1 = (Model.merge (a ++ b)).1 ∧
    (∀ settings m parts, Step.runAll settings m (appendSteps parts ++ [.merge]) =
      (Model.merge (m ++ parts.flatMap (·.1))).1) ∧
    (Model.merge (a ++ b)).1.Extends a.merge.1 ∧
    (Model.NoClash (a ++ b) → Model.merge (a.merge.1 ++ b.merge.1) = Model.merge (a ++ b)) := by
  refine ⟨merge_append_left a b, ?_, merge_extends a b, merge_append_both⟩
  intro settings m parts
  rw [Step.runAll_append]
  exact merge_appendSteps settings m parts

/-- A class with one attribute. -/
def counterPart : Model :=
  [⟨⟨"App", "Counter"⟩, .ofClass [⟨"count", "int", .isPrivate, none⟩] []⟩]

/-- The same class with the attribute under another type, a further one and a method, and an enum that
repeats a value. -/
def counterRest : Model :=
  [⟨⟨"App", "Counter"⟩,
      .ofClass [⟨"count", "long", .isPublic, none⟩, ⟨"step", "int", .isPrivate, some "1"⟩]
        [⟨"Add", none, .isPublic, [⟨"n", "int", .input, none⟩]⟩]⟩,
    ⟨⟨"App", "Mode"⟩, .ofEnum ["Up", "Down", "Up"]⟩]

theorem merge_in_parts_counter :
    Model.NoClash (counterPart ++ counterRest) ∧
      Model.merge (counterPart.merge.1 ++ counterRest.merge.1) =
        Model.merge (counterPart ++ counterRest) := by
  have h : Model.NoClash (counterPart ++ counterRest) := by decide
  exact ⟨h, (merge_in_parts counterPart counterRest).2.2.2 h⟩

/-- With a clash in the right part, merging it first loses the class that the left part continues. -/
example :
    let left : Model := [⟨⟨"N", "K"⟩, .ofClass [] []⟩]
    let right : Model := [⟨⟨"N", "K"⟩, .ofEnum []⟩,
      ⟨⟨"N", "K"⟩, .ofClass [⟨"x", "int", .isPublic, none⟩] []⟩]
    (Model.merge (left.merge.1 ++ right.merge.1)).1 ≠ (Model.merge (left ++ right)).1 := by
  decide

/-! ## Merging in any order -/

/-- What merging keeps of an entity whatever the order: its key and kind, and the sets of its attribute
names, method signatures and enum values. -/
structure MemberSets where
  key : EntityKey
  isClass : Bool
  names : Finset String
  signatures : Finset Signature
  values : Finset String
deriving DecidableEq

def Entity.memberSets (e : Entity) : MemberSets where
  key := e.key
  isClass := e.isClass
  names := (e.attributes.map Attribute.name).toFinset
  signatures := (e.methods.map Method.signature).toFinset
  values := e.values.toFinset

section Order

variable {m n : Model}

/-- The key and the kind of an entity. -/
def Entity.heading (e : Entity) : EntityKey × Bool := (e.key, e.isClass)

theorem toFinset_map_firstsBy {α κ : Type} [DecidableEq κ] (key : α → κ) (xs : List α) :
    ((firstsBy key xs).map key).toFinset = (xs.map key).toFinset := by
  ext k
  rw [List.mem_toFinset, List.mem_toFinset, mem_map_firstsBy]

theorem toFinset_map_flatMap {α κ : Type} [DecidableEq κ] (key : α → κ) (members : Entity → List α)
    (hperm : m.Perm n) :
    ((m.flatMap members).map key).toFinset = ((n.flatMap members).map key).toFinset :=
  List.toFinset_eq_of_perm _ _ ((hperm.flatMap_right members).map key)

/-- What stands for an entity has the same member sets, whatever the order. -/
theorem memberSets_combined (hperm : m.Perm n) (f : Entity) :
    (m.combined f).memberSets = (n.combined f).memberSets := by
  have hlikes : (m.likes f).Perm (n.likes f) := hperm.filter _
  have hnames := toFinset_map_flatMap Attribute.name Entity.attributes hlikes
  have hsignatures := toFinset_map_flatMap Method.signature Entity.methods hlikes
  have hvalues := toFinset_map_flatMap id Entity.values hlikes
  have hfirsts (xs : List String) : (firstsBy id xs).toFinset = xs.toFinset := by
    simpa using toFinset_map_firstsBy id xs
  obtain ⟨key, body⟩ := f
  cases body with
  | ofClass attributes methods =>
      simp [Entity.memberSets, Model.combined, Model.members, Entity.isClass, Entity.attributes,
        Entity.methods, Entity.values, toFinset_map_firstsBy, hnames, hsignatures]
  | ofEnum values =>
      rw [List.map_id, List.map_id] at hvalues
      simp [Entity.memberSets, Model.combined, Model.members, Entity.isClass, Entity.attributes,
        Entity.methods, Entity.values, hfirsts, hvalues]

/-- Where no kinds clash, the first entities have the headings of all. -/
theorem mem_headings_firstsBy (hm : m.NoClash) (h : EntityKey × Bool) :
    h ∈ (firstsBy Entity.key m).map Entity.heading ↔ h ∈ m.map Entity.heading := by
  simp only [List.mem_map]
  constructor
  · rintro ⟨e, he, hheading⟩
    exact ⟨e, firstsBy_subset _ _ he, hheading⟩
  · rintro ⟨f, hf, rfl⟩
    obtain ⟨e, he, hkey, hkind⟩ := exists_first hm hf
    exact ⟨e, he, Prod.ext hkey hkind⟩

theorem headings_nodup (m : Model) : ((firstsBy Entity.key m).map Entity.heading).Nodup := by
  refine (firstsBy_pairwise Entity.key m).map Entity.heading ?_
  intro e f hne hheading
  exact hne (congrArg Prod.fst hheading)

theorem headings_perm (hm : m.NoClash) (hperm : m.Perm n) :
    ((firstsBy Entity.key m).map Entity.heading).Perm ((firstsBy Entity.key n).map Entity.heading) := by
  have hn : n.NoClash := hm.of_subset hperm.symm.subset
  apply (List.perm_ext_iff_of_nodup (headings_nodup m) (headings_nodup n)).mpr
  intro h
  rw [mem_headings_firstsBy hm, mem_headings_firstsBy hn]
  exact (hperm.map Entity.heading).mem_iff

/-- An entity with the given key and kind and no members. -/
def bareEntity (h : EntityKey × Bool) : Entity :=
  ⟨h.1, if h.2 then .ofClass [] [] else .ofEnum []⟩

theorem combined_bareEntity (m : Model) (f : Entity) :
    m.combined (bareEntity f.heading) = m.combined f := by
  refine combined_congr m rfl ?_
  obtain ⟨key, body⟩ := f
  cases body <;> rfl

theorem memberSets_grouped (m : Model) :
    m.grouped.map Entity.memberSets =
      ((firstsBy Entity.key m).map Entity.heading).map fun h =>
        (m.combined (bareEntity h)).memberSets := by
  rw [Model.grouped, List.map_map, List.map_map]
  apply List.map_congr_left
  intro f _
  exact congrArg Entity.memberSets (combined_bareEntity m f).symm

end Order

/-- Merging forgets the order up to member sets. Where no key occurs as a class and as an enum, the merges
of a model and of any reordering of it have the same keys with the same kinds, and for each key the same
attribute names, method signatures and enum values. -/
theorem merge_perm_memberSets {m n : Model} (hm : m.NoClash) (hperm : m.Perm n) :
    (m.merge.1.map Entity.memberSets).Perm (n.merge.1.map Entity.memberSets) := by
  rw [merge_model, merge_model, memberSets_grouped, memberSets_grouped]
  have hsame : ∀ h, (m.combined (bareEntity h)).memberSets = (n.combined (bareEntity h)).memberSets :=
    fun h => memberSets_combined hperm (bareEntity h)
  simp only [hsame]
  exact (headings_perm hm hperm).map _

/-- The parts of the counter the other way round. -/
theorem merge_perm_memberSets_counter :
    Model.NoClash (counterPart ++ counterRest) ∧
      (counterPart ++ counterRest).Perm (counterRest ++ counterPart) ∧
      ((Model.merge (counterPart ++ counterRest)).1.map Entity.memberSets).Perm
        ((Model.merge (counterRest ++ counterPart)).1.map Entity.memberSets) := by
  have hclash : Model.NoClash (counterPart ++ counterRest) := by decide
  have hperm : (counterPart ++ counterRest).Perm (counterRest ++ counterPart) := List.perm_append_comm
  exact ⟨hclash, hperm, merge_perm_memberSets hclash hperm⟩

end ClassChart
