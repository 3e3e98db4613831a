/-
# ClassChart.Proofs.Model.Edits — what may be changed in a written model

What is written of a model may be changed in what does not matter: the order of keys, keys that are no
fields, and a `null` that is left out. It is still read as the same model, after any number of such edits
and however deep in the model they are made. A value that lacks a field which is required is not read.

An edit is harmless because it keeps `Fills`, on which alone reading depends. `Shape` says which fields
each kind of record has, which of them may be missing, and which hold further records.
-/
import ClassChart.Proofs.Model.Json
import Mathlib.Logic.Relation

namespace ClassChart

open Json

/-! ## Edits -/

/-- The kinds of record in a model. -/
inductive Shape where
  | ofClass
  | ofEnum
  | ofAttribute
  | ofMethod
  | ofParameter
deriving DecidableEq, Repr

namespace Shape

/-- The names of the fields. -/
def fields : Shape → List String
  | ofClass => ["kind", "namespace", "name", "attributes", "methods"]
  | ofEnum => ["kind", "namespace", "name", "values"]
  | ofAttribute => ["name", "type_name", "visibility", "initial_value"]
  | ofMethod => ["name", "return_type", "visibility", "parameters"]
  | ofParameter => ["name", "type_name", "direction", "default"]

/-- The fields that may be left out. -/
def optional : Shape → List String
  | ofClass => []
  | ofEnum => []
  | ofAttribute => ["initial_value"]
  | ofMethod => ["return_type"]
  | ofParameter => ["default"]

/-- The fields that hold further records. -/
def parts : Shape → List (String × Shape)
  | ofClass => [("attributes", ofAttribute), ("methods", ofMethod)]
  | ofEnum => []
  | ofAttribute => []
  | ofMethod => [("parameters", ofParameter)]
  | ofParameter => []

/-- The kind of an entity. -/
def tag? : Shape → Option String
  | ofClass => some "class"
  | ofEnum => some "enum"
  | ofAttribute => none
  | ofMethod => none
  | ofParameter => none

/-- Whether an object is read as such a record. -/
def isRead (s : Shape) (members : List (String × Json)) : Bool :=
  match s with
  | ofClass => (Entity.ofJson? (.object members)).isSome
  | ofEnum => (Entity.ofJson? (.object members)).isSome
  | ofAttribute => (Attribute.ofJson? (.object members)).isSome
  | ofMethod => (Method.ofJson? (.object members)).isSome
  | ofParameter => (Parameter.ofJson? (.object members)).isSome

/-- The form is the one of a record of this kind. -/
inductive Admits : Shape → Form → Prop where
  | ofClass (key : EntityKey) (attributes : List Attribute) (methods : List Method) :
      Admits ofClass (Entity.form ⟨key, .ofClass attributes methods⟩)
  | ofEnum (key : EntityKey) (values : List String) : Admits ofEnum (Entity.form ⟨key, .ofEnum values⟩)
  | ofAttribute (a : Attribute) : Admits ofAttribute a.form
  | ofMethod (m : Method) : Admits ofMethod m.form
  | ofParameter (p : Parameter) : Admits ofParameter p.form

end Shape

/-- One edit of a record that does not matter, in the record itself or in one that it holds. -/
inductive Edited : Shape → List (String × Json) → List (String × Json) → Prop where
  /-- The order of the keys is changed. -/
  | permute {s : Shape} {members members' : List (String × Json)} (perm : members.Perm members') :
      Edited s members members'
  /-- A key that is no field is added. -/
  | add {s : Shape} {front back : List (String × Json)} {key : String} {value : Json}
      (other : key ∉ s.fields) : Edited s (front ++ back) (front ++ (key, value) :: back)
  /-- The value of a key that is no field is changed. -/
  | change {s : Shape} {front back : List (String × Json)} {key : String} {value value' : Json}
      (other : key ∉ s.fields) :
      Edited s (front ++ (key, value) :: back) (front ++ (key, value') :: back)
  /-- A `null` that may be missing is left out. -/
  | leaveOut {s : Shape} {front back : List (String × Json)} {key : String} (may : key ∈ s.optional) :
      Edited s (front ++ (key, .null) :: back) (front ++ back)
  /-- A record in a list is edited. -/
  | part {s t : Shape} {front back members members' : List (String × Json)} {key : String}
      {before behind : List Json} (isPart : (key, t) ∈ s.parts) (edit : Edited t members members') :
      Edited s (front ++ (key, .array (before ++ .object members :: behind)) :: back)
        (front ++ (key, .array (before ++ .object members' :: behind)) :: back)

/-- A field that is required is taken away, in the record itself or in one that it holds. -/
inductive Removed : Shape → List (String × Json) → List (String × Json) → Prop where
  | field {s : Shape} {front back : List (String × Json)} {key : String} {value : Json}
      (isField : key ∈ s.fields) (required : key ∉ s.optional) :
      Removed s (front ++ (key, value) :: back) (front ++ back)
  | part {s t : Shape} {front back members members' : List (String × Json)} {key : String}
      {before behind : List Json} (isPart : (key, t) ∈ s.parts) (removal : Removed t members members') :
      Removed s (front ++ (key, .array (before ++ .object members :: behind)) :: back)
        (front ++ (key, .array (before ++ .object members' :: behind)) :: back)

/-- An edit that does not matter, in one of the entities of a model. -/
inductive EditedModel : Json → Json → Prop where
  | entity {s : Shape} {tag : String} {members members' : List (String × Json)} {before behind : List Json}
      (isEntity : s.tag? = some tag) (kind : ("kind", .string tag) ∈ members)
      (edit : Edited s members members') :
      EditedModel (.array (before ++ .object members :: behind)) (.array (before ++ .object members' :: behind))

/-- A field that is required is taken away from one of the entities of a model, or from a record in it. -/
inductive RemovedModel : Json → Json → Prop where
  | entity {s : Shape} {tag : String} {members members' : List (String × Json)} {before behind : List Json}
      (isEntity : s.tag? = some tag) (kind : ("kind", .string tag) ∈ members)
      (removal : Removed s members members') :
      RemovedModel (.array (before ++ .object members :: behind)) (.array (before ++ .object members' :: behind))

section Edits

variable {s t : Shape} {form : Form} {members members' : List (String × Json)} {key : String}
  {field : FieldForm}

theorem map_fst_of_admits (h : s.Admits form) : form.map Prod.fst = s.fields := by
  cases h <;> rfl

theorem mem_fields (h : s.Admits form) (hf : (key, field) ∈ form) : key ∈ s.fields := by
  rw [← map_fst_of_admits h]
  exact List.mem_map_of_mem hf

theorem exists_mem_of_mem_fields (h : s.Admits form) (hkey : key ∈ s.fields) :
    ∃ field, (key, field) ∈ form := by
  rw [← map_fst_of_admits h] at hkey
  obtain ⟨⟨_, field⟩, hf, rfl⟩ := List.mem_map.mp hkey
  exact ⟨field, hf⟩

theorem mem_fields_of_mem_parts (h : (key, t) ∈ s.parts) : key ∈ s.fields := by
  have hall : ∀ p ∈ s.parts, p.1 ∈ s.fields := by
    cases s <;> decide
  exact hall _ h

/-- A field that may be left out is an optional text. -/
theorem optional_of_mem (h : s.Admits form) (hf : (key, field) ∈ form) (hkey : key ∈ s.optional) :
    ∃ value?, field = .optional value? := by
  cases h with
  | ofClass _ _ _ => cases hkey
  | ofEnum _ _ => cases hkey
  | ofAttribute a =>
      obtain rfl := List.mem_singleton.mp hkey
      exact ⟨a.initial?, by simpa [Attribute.form] using hf⟩
  | ofMethod m =>
      obtain rfl := List.mem_singleton.mp hkey
      exact ⟨m.returnType?, by simpa [Method.form] using hf⟩
  | ofParameter p =>
      obtain rfl := List.mem_singleton.mp hkey
      exact ⟨p.default?, by simpa [Parameter.form] using hf⟩

/-- A field that holds records is a list of objects of their forms. -/
theorem objects_of_mem (h : s.Admits form) (hf : (key, field) ∈ form) (hkey : (key, t) ∈ s.parts) :
    ∃ forms, field = .objects forms ∧ ∀ g ∈ forms, t.Admits g := by
  cases h with
  | ofClass _ attributes methods =>
      simp only [Shape.parts, List.mem_cons, Prod.mk.injEq, List.not_mem_nil, or_false] at hkey
      rcases hkey with ⟨rfl, rfl⟩ | ⟨rfl, rfl⟩
      · exact ⟨attributes.map Attribute.form, by simpa [Entity.form] using hf,
          List.forall_mem_map.mpr fun a _ => .ofAttribute a⟩
      · exact ⟨methods.map Method.form, by simpa [Entity.form] using hf,
          List.forall_mem_map.mpr fun m _ => .ofMethod m⟩
  | ofEnum _ _ => cases hkey
  | ofAttribute _ => cases hkey
  | ofMethod m =>
      simp only [Shape.parts, List.mem_cons, Prod.mk.injEq, List.not_mem_nil, or_false] at hkey
      obtain ⟨rfl, rfl⟩ := hkey
      exact ⟨m.parameters.map Parameter.form, by simpa [Method.form] using hf,
        List.forall_mem_map.mpr fun p _ => .ofParameter p⟩
  | ofParameter _ => cases hkey

/-- One element of a list may be exchanged for another with the same partner. -/
theorem forall₂_exchange {α β : Type} {R : α → β → Prop} {before behind : List α} {x : α} {ys : List β}
    (h : List.Forall₂ R (before ++ x :: behind) ys) :
    ∃ y ∈ ys, R x y ∧ ∀ x', R x' y → List.Forall₂ R (before ++ x' :: behind) ys := by
  induction before generalizing ys with
  | nil =>
      cases h with | cons hy h =>
      exact ⟨_, List.mem_cons_self, hy, fun _ hx' => .cons hx' h⟩
  | cons b before ih =>
      cases h with | cons hb h =>
      obtain ⟨y, hmem, hy, hother⟩ := ih h
      exact ⟨y, List.mem_cons_of_mem _ hmem, hy, fun x' hx' => .cons hb (hother x' hx')⟩

/-- An edit keeps what a record is read by. -/
theorem Fills.edited (hform : s.Admits form) (hfills : Fills members form) (h : Edited s members members') :
    Fills members' form := by
  induction h generalizing form with
  | permute perm =>
      intro f hf
      rw [member?_perm perm]
      exact hfills f hf
  | @add s front back key value other =>
      rintro ⟨name, field⟩ hf
      have hne : name ≠ key := fun heq => other (heq ▸ mem_fields hform hf)
      rw [member?_insert_ne hne]
      exact hfills _ hf
  | @change s front back key value value' other =>
      rintro ⟨name, field⟩ hf
      have hne : name ≠ key := fun heq => other (heq ▸ mem_fields hform hf)
      obtain ⟨found, hfound, hholds⟩ := hfills _ hf
      rw [member?_insert_ne hne] at hfound ⊢
      exact ⟨found, hfound, hholds⟩
  | @leaveOut s front back key may =>
      rintro ⟨name, field⟩ hf
      obtain ⟨found, hfound, hholds⟩ := hfills _ hf
      by_cases hname : name = key
      · subst hname
        obtain ⟨rfl, hmissing, _⟩ := member?_insert_self hfound
        obtain ⟨value?, rfl⟩ := optional_of_mem hform hf may
        refine ⟨none, hmissing, .inr ⟨?_, rfl⟩⟩
        rcases hholds with hnull | ⟨hnone, _⟩
        · cases value? with
          | none => rfl
          | some value => cases hnull
        · exact hnone
      · rw [member?_insert_ne hname] at hfound
        exact ⟨found, hfound, hholds⟩
  | @part s t front back members members' key before behind isPart _ ih =>
      rintro ⟨name, field⟩ hf
      obtain ⟨found, hfound, hholds⟩ := hfills _ hf
      by_cases hname : name = key
      · subst hname
        obtain ⟨rfl, _, hother⟩ := member?_insert_self hfound
        obtain ⟨forms, rfl, hforms⟩ := objects_of_mem hform hf isPart
        obtain ⟨js, hjs, hobjects⟩ := hholds
        cases hjs
        obtain ⟨g, hg, ⟨_, hmembers, hfill⟩, hexchange⟩ := forall₂_exchange hobjects
        cases hmembers
        exact ⟨_, hother _, _, rfl, hexchange _ ⟨members', rfl, ih (hforms g hg) hfill⟩⟩
      · rw [member?_insert_ne hname] at hfound ⊢
        exact ⟨found, hfound, hholds⟩

/-- The kind of an entity is written as it should be. -/
def Shape.Tagged (s : Shape) (members : List (String × Json)) : Prop :=
  ∀ tag, s.tag? = some tag → member? members "kind" = some (some (.string tag))

theorem tagged_of_fills (hform : s.Admits form) (h : Fills members form) : s.Tagged members := by
  intro tag htag
  cases hform with
  | ofClass key attributes methods =>
      cases htag
      obtain ⟨_, hkind, rfl⟩ := h ("kind", .text "class") List.mem_cons_self
      exact hkind
  | ofEnum key values =>
      cases htag
      obtain ⟨_, hkind, rfl⟩ := h ("kind", .text "enum") List.mem_cons_self
      exact hkind
  | ofAttribute _ => cases htag
  | ofMethod _ => cases htag
  | ofParameter _ => cases htag

/-- What is read as a record has the fields that it must. -/
theorem exists_member?_of_isRead (htag : s.Tagged members) (h : s.isRead members = true)
    (hkey : key ∈ s.fields) (hrequired : key ∉ s.optional) :
    ∃ value, member? members key = some (some value) := by
  cases s with
  | ofClass =>
      have hkind := htag _ rfl
      simp only [Shape.isRead, Entity.ofJson?_class hkind, Option.isSome_iff_exists] at h
      obtain ⟨e, he⟩ := h
      obtain ⟨scope, name, attributes, methods, hscope, hname, hattributes, hmethods, _⟩ :=
        Entity.found_of_classOfJson? he
      simp only [Shape.fields, List.mem_cons, List.not_mem_nil, or_false] at hkey
      rcases hkey with rfl | rfl | rfl | rfl | rfl
      exacts [⟨_, hkind⟩, ⟨_, hscope⟩, ⟨_, hname⟩, ⟨_, hattributes⟩, ⟨_, hmethods⟩]
  | ofEnum =>
      have hkind := htag _ rfl
      simp only [Shape.isRead, Entity.ofJson?_enum hkind, Option.isSome_iff_exists] at h
      obtain ⟨e, he⟩ := h
      obtain ⟨scope, name, values, hscope, hname, hvalues⟩ := Entity.found_of_enumOfJson? he
      simp only [Shape.fields, List.mem_cons, List.not_mem_nil, or_false] at hkey
      rcases hkey with rfl | rfl | rfl | rfl
      exacts [⟨_, hkind⟩, ⟨_, hscope⟩, ⟨_, hname⟩, ⟨_, hvalues⟩]
  | ofAttribute =>
      obtain ⟨a, ha⟩ := Option.isSome_iff_exists.mp h
      obtain ⟨name, typeName, visibility, hname, htype, hvisibility⟩ := Attribute.found_of_ofJson? ha
      simp only [Shape.fields, Shape.optional, List.mem_cons, List.not_mem_nil, or_false] at hkey hrequired
      rcases hkey with rfl | rfl | rfl | rfl
      exacts [⟨_, hname⟩, ⟨_, htype⟩, ⟨_, hvisibility⟩, (hrequired rfl).elim]
  | ofMethod =>
      obtain ⟨m, hm⟩ := Option.isSome_iff_exists.mp h
      obtain ⟨name, visibility, parameters, hname, hvisibility, hparameters, _⟩ :=
        Method.found_of_ofJson? hm
      simp only [Shape.fields, Shape.optional, List.mem_cons, List.not_mem_nil, or_false] at hkey hrequired
      rcases hkey with rfl | rfl | rfl | rfl
      exacts [⟨_, hname⟩, (hrequired rfl).elim, ⟨_, hvisibility⟩, ⟨_, hparameters⟩]
  | ofParameter =>
      obtain ⟨p, hp⟩ := Option.isSome_iff_exists.mp h
      obtain ⟨name, typeName, direction, hname, htype, hdirection⟩ := Parameter.found_of_ofJson? hp
      simp only [Shape.fields, Shape.optional, List.mem_cons, List.not_mem_nil, or_false] at hkey hrequired
      rcases hkey with rfl | rfl | rfl | rfl
      exacts [⟨_, hname⟩, ⟨_, htype⟩, ⟨_, hdirection⟩, (hrequired rfl).elim]

/-- What is read as a record holds records that are read. -/
theorem isRead_of_mem_part {elements : List Json} {part : List (String × Json)} (htag : s.Tagged members)
    (h : s.isRead members = true) (hkey : (key, t) ∈ s.parts)
    (hfound : member? members key = some (some (.array elements))) (hpart : .object part ∈ elements) :
    t.isRead part = true := by
  cases s with
  | ofClass =>
      simp only [Shape.isRead, Entity.ofJson?_class (htag _ rfl), Option.isSome_iff_exists] at h
      obtain ⟨e, he⟩ := h
      obtain ⟨_, _, attributes, methods, _, _, hattributes, hmethods, hread, hread'⟩ :=
        Entity.found_of_classOfJson? he
      simp only [Shape.parts, List.mem_cons, Prod.mk.injEq, List.not_mem_nil, or_false] at hkey
      rcases hkey with ⟨rfl, rfl⟩ | ⟨rfl, rfl⟩
      · cases hattributes.symm.trans hfound
        exact isSome_of_mem hread hpart
      · cases hmethods.symm.trans hfound
        exact isSome_of_mem hread' hpart
  | ofEnum => cases hkey
  | ofAttribute => cases hkey
  | ofMethod =>
      obtain ⟨m, hm⟩ := Option.isSome_iff_exists.mp h
      obtain ⟨_, _, parameters, _, _, hparameters, hread⟩ := Method.found_of_ofJson? hm
      simp only [Shape.parts, List.mem_cons, Prod.mk.injEq, List.not_mem_nil, or_false] at hkey
      obtain ⟨rfl, rfl⟩ := hkey
      cases hparameters.symm.trans hfound
      exact isSome_of_mem hread hpart
  | ofParameter => cases hkey

theorem isRead_untagged (hkey : "kind" ∈ s.fields) (h : member? members "kind" = some none) :
    s.isRead members = false := by
  cases s with
  | ofClass => simp [Shape.isRead, Entity.ofJson?_untagged h]
  | ofEnum => simp [Shape.isRead, Entity.ofJson?_untagged h]
  | ofAttribute => exact absurd hkey (by decide)
  | ofMethod => exact absurd hkey (by decide)
  | ofParameter => exact absurd hkey (by decide)

theorem ne_kind_of_mem_parts (h : (key, t) ∈ s.parts) : "kind" ≠ key := by
  rintro rfl
  cases s <;> simp [Shape.parts] at h

/-- A record that lacks a field it must have is not read, and neither is one that holds such a record. -/
theorem isRead_removed (hform : s.Admits form) (hfills : Fills members form)
    (h : Removed s members members') : s.isRead members' = false := by
  induction h generalizing form with
  | @field s front back key value isField required =>
      obtain ⟨field, hf⟩ := exists_mem_of_mem_fields hform isField
      obtain ⟨found, hfound, _⟩ := hfills _ hf
      have hmissing := (member?_insert_self hfound).2.1
      by_cases hkind : "kind" = key
      · exact isRead_untagged (hkind ▸ isField) (hkind ▸ hmissing)
      · by_contra hread
        have htag : s.Tagged (front ++ back) := fun tag htag => by
          rw [← member?_insert_ne hkind]
          exact tagged_of_fills hform hfills tag htag
        obtain ⟨value, hvalue⟩ :=
          exists_member?_of_isRead htag (Bool.of_not_eq_false hread) isField required
        cases hmissing.symm.trans hvalue
  | @part s t front back members members' key before behind isPart _ ih =>
      obtain ⟨field, hf⟩ := exists_mem_of_mem_fields hform (mem_fields_of_mem_parts isPart)
      obtain ⟨forms, rfl, hforms⟩ := objects_of_mem hform hf isPart
      obtain ⟨found, hfound, js, rfl, hobjects⟩ := hfills _ hf
      obtain ⟨hjs, _, hother⟩ := member?_insert_self hfound
      cases hjs
      obtain ⟨g, hg, ⟨_, hmembers, hfill⟩, _⟩ := forall₂_exchange hobjects
      cases hmembers
      have htag : s.Tagged (front ++ (key, .array (before ++ .object members' :: behind)) :: back) :=
        fun tag htag => by
          have hkind := tagged_of_fills hform hfills tag htag
          rw [member?_insert_ne (ne_kind_of_mem_parts isPart)] at hkind ⊢
          exact hkind
      by_contra hread
      have hpart := isRead_of_mem_part htag (Bool.of_not_eq_false hread) isPart (hother _)
        (List.mem_append_right _ List.mem_cons_self)
      rw [ih (hforms g hg) hfill] at hpart
      cases hpart

end Edits

/-! ## Edits of models -/

theorem Shape.eq_of_tag? {s t : Shape} (h : s.tag? = t.tag?) (hsome : t.tag? ≠ none) : s = t := by
  revert h hsome
  cases s <;> cases t <;> decide

theorem Shape.isRead_of_tag? {s : Shape} {tag : String} {members : List (String × Json)}
    (h : s.tag? = some tag) : s.isRead members = (Entity.ofJson? (.object members)).isSome := by
  cases s with
  | ofClass => rfl
  | ofEnum => rfl
  | ofAttribute => cases h
  | ofMethod => cases h
  | ofParameter => cases h

/-- The kind that an entity is written with says which fields it has. -/
theorem Entity.admits_form {e : Entity} {members : List (String × Json)} {s : Shape} {tag : String}
    (hfills : Fills members e.form) (htag : s.tag? = some tag) (hkind : ("kind", .string tag) ∈ members) :
    s.Admits e.form := by
  obtain ⟨key, body⟩ := e
  cases body with
  | ofClass attributes methods =>
      have hform := Shape.Admits.ofClass key attributes methods
      cases eq_of_member? (tagged_of_fills hform hfills _ rfl) hkind
      cases Shape.eq_of_tag? (t := .ofClass) htag nofun
      exact hform
  | ofEnum values =>
      have hform := Shape.Admits.ofEnum key values
      cases eq_of_member? (tagged_of_fills hform hfills _ rfl) hkind
      cases Shape.eq_of_tag? (t := .ofEnum) htag nofun
      exact hform

theorem Model.IsWritten.edited {m : Model} {value value' : Json} (hm : m.IsWritten value)
    (h : EditedModel value value') : m.IsWritten value' := by
  obtain ⟨isEntity, kind, edit⟩ := h
  obtain ⟨_, helements, hobjects⟩ := hm
  cases helements
  obtain ⟨g, hg, ⟨_, hmembers, hfills⟩, hexchange⟩ := forall₂_exchange hobjects
  obtain ⟨e, _, rfl⟩ := List.mem_map.mp hg
  cases hmembers
  have hform := Entity.admits_form hfills isEntity kind
  exact ⟨_, rfl, hexchange _ ⟨_, rfl, hfills.edited hform edit⟩⟩

theorem Model.IsWritten.removed {m : Model} {value value' : Json} (hm : m.IsWritten value)
    (h : RemovedModel value value') : Model.ofJson? value' = none := by
  obtain ⟨isEntity, kind, removal⟩ := h
  obtain ⟨_, helements, hobjects⟩ := hm
  cases helements
  obtain ⟨g, hg, ⟨_, hmembers, hfills⟩, _⟩ := forall₂_exchange hobjects
  obtain ⟨e, _, rfl⟩ := List.mem_map.mp hg
  cases hmembers
  have hform := Entity.admits_form hfills isEntity kind
  have hread := isRead_removed hform hfills removal
  rw [Shape.isRead_of_tag? isEntity] at hread
  by_contra hsome
  have helement := isSome_of_mem (Option.isSome_iff_ne_none.mpr hsome)
    (List.mem_append_right _ List.mem_cons_self)
  rw [hread] at helement
  cases helement

/-- What is written of a model is read back as that model, after any number of edits that do not matter,
and is not read any more without a field that it must have. -/
theorem Model.ofJson?_edited {m : Model} {value : Json}
    (h : Relation.ReflTransGen EditedModel m.toJson value) :
    Model.ofJson? value = some m ∧ ∀ value', RemovedModel value value' → Model.ofJson? value' = none := by
  have hm : m.IsWritten value := by
    induction h with
    | refl => exact m.isWritten_toJson
    | tail _ edit ih => exact ih.edited edit
  exact ⟨ofJson?_of_isWritten hm, fun _ => hm.removed⟩

/-- A tag moved to the end, a note added to an attribute, a `null` left out of a parameter; and then that
parameter without its direction. -/
theorem Model.ofJson?_edited_shuffled :
    let m : Model :=
      [⟨⟨"shop", "Cart"⟩, .ofClass [⟨"total", "int", .isPublic, none⟩]
        [⟨"add", none, .isPublic, [⟨"item", "Item", .input, none⟩]⟩]⟩]
    let total (more : List (String × Json)) : List (String × Json) :=
      [("name", .string "total"), ("type_name", .string "int"), ("visibility", .string "public"),
        ("initial_value", .null)] ++ more
    let item (more : List (String × Json)) : List (String × Json) :=
      [("name", .string "item"), ("type_name", .string "Item")] ++ more
    let add (parameter : List (String × Json)) : List (String × Json) :=
      [("name", .string "add"), ("return_type", .null), ("visibility", .string "public"),
        ("parameters", .array [.object parameter])]
    let cart (field method : List (String × Json)) : List (String × Json) :=
      [("namespace", .string "shop"), ("name", .string "Cart"), ("attributes", .array [.object field]),
        ("methods", .array [.object method]), ("kind", .string "class")]
    let value : Json :=
      .array [.object (cart (total [("note", .null)]) (add (item [("direction", .string "in")])))]
    let value' : Json := .array [.object (cart (total [("note", .null)]) (add (item [])))]
    Relation.ReflTransGen EditedModel m.toJson value ∧ RemovedModel value value' ∧
      Model.ofJson? value = some m ∧ Model.ofJson? value' = none := by
  intro m total item add cart value value'
  let written := item [("direction", .string "in"), ("default", .null)]
  have hkind (field method : List (String × Json)) : ("kind", .string "class") ∈ cart field method := by
    simp [cart]
  have hmoved : EditedModel m.toJson (.array [.object (cart (total []) (add written))]) :=
    @EditedModel.entity .ofClass "class" _ _ [] [] rfl List.mem_cons_self
      (.permute (List.perm_append_singleton _ ((cart (total []) (add written)).take 4)).symm)
  have hnoted : EditedModel (.array [.object (cart (total []) (add written))])
      (.array [.object (cart (total [("note", .null)]) (add written))]) :=
    @EditedModel.entity .ofClass "class" _ _ [] [] rfl (hkind _ _)
      (@Edited.part .ofClass .ofAttribute ((cart [] (add written)).take 2)
        ((cart [] (add written)).drop 3) _ _ "attributes" [] [] (by decide)
        (@Edited.add .ofAttribute (total []) [] "note" .null (by decide)))
  have hleft : EditedModel (.array [.object (cart (total [("note", .null)]) (add written))]) value :=
    @EditedModel.entity .ofClass "class" _ _ [] [] rfl (hkind _ _)
      (@Edited.part .ofClass .ofMethod ((cart (total [("note", .null)]) []).take 3)
        ((cart [] []).drop 4) _ _ "methods" [] [] (by decide)
        (@Edited.part .ofMethod .ofParameter ((add []).take 3) [] _ _ "parameters" [] [] (by decide)
          (@Edited.leaveOut .ofParameter (item [("direction", .string "in")]) [] "default" (by decide))))
  have hedits : Relation.ReflTransGen EditedModel m.toJson value :=
    ((Relation.ReflTransGen.single hmoved).tail hnoted).tail hleft
  have hremoval : RemovedModel value value' :=
    @RemovedModel.entity .ofClass "class" _ _ [] [] rfl (hkind _ _)
      (@Removed.part .ofClass .ofMethod ((cart (total [("note", .null)]) []).take 3)
        ((cart [] []).drop 4) _ _ "methods" [] [] (by decide)
        (@Removed.part .ofMethod .ofParameter ((add []).take 3) [] _ _ "parameters" [] [] (by decide)
          (@Removed.field .ofParameter (item []) [] "direction" (.string "in") (by decide) (by decide))))
  obtain ⟨hread, hmissing⟩ := Model.ofJson?_edited hedits
  exact ⟨hedits, hremoval, hread, hmissing value' hremoval⟩

end ClassChart
