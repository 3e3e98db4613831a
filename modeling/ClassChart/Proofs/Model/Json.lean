/-
# ClassChart.Proofs.Model.Json — models written as values and read back

`Form` says field by field what a record is written as, and `Fills` that the members of an object are
such. What is written of a record fills its form, and whatever fills the form is read as the record: the
order of the keys and the keys that are no fields do not enter. In the other direction, an object that is
read has every field that is required.
-/
import ClassChart.Model.Json
import Mathlib.Data.List.Forall2

namespace ClassChart

open Json

/-! ## Members of objects -/

namespace Json

variable {front back members members' : List (String × Json)} {key name : String} {value value' : Json}

theorem member?_perm (h : members.Perm members') (name : String) :
    member? members' name = member? members name := by
  have hfilter := h.filter fun m => m.1 == name
  unfold member?
  cases hfound : members.filter fun m => m.1 == name with
  | nil =>
      rw [hfound] at hfilter
      rw [hfilter.nil_eq]
  | cons m more =>
      rw [hfound] at hfilter
      cases more with
      | nil => rw [List.singleton_perm.mp hfilter]
      | cons m' more =>
          have hlength := hfilter.length_eq
          cases hother : members'.filter fun m => m.1 == name with
          | nil => simp [hother] at hlength
          | cons n others =>
              cases others with
              | nil => simp [hother] at hlength
              | cons n' others => rfl

/-- A key does not matter for another one. -/
theorem member?_insert_ne (h : name ≠ key) :
    member? (front ++ (key, value) :: back) name = member? (front ++ back) name := by
  have hkey : (key == name) = false := by simpa using h.symm
  simp only [member?, List.filter_append, List.filter_cons, hkey, Bool.false_eq_true, if_false]

/-- A key that is found is found once. -/
theorem member?_insert_self {found : Option Json}
    (h : member? (front ++ (key, value) :: back) key = some found) :
    found = some value ∧ member? (front ++ back) key = some none ∧
      ∀ other, member? (front ++ (key, other) :: back) key = some (some other) := by
  simp only [member?, List.filter_append, List.filter_cons, BEq.rfl, if_true] at h ⊢
  generalize (front.filter fun m => m.1 == key) = before at h ⊢
  generalize (back.filter fun m => m.1 == key) = behind at h ⊢
  rcases before with _ | ⟨m, before⟩
  · cases behind with
    | nil =>
        simp only [List.nil_append, Option.some.injEq] at h
        exact ⟨h.symm, rfl, fun _ => rfl⟩
    | cons m behind => cases h
  · cases before <;> cases h

theorem member?_filter_ne (h : name ≠ key) :
    member? (members.filter fun m => m.1 != key) name = member? members name := by
  have hboth : (members.filter fun m => m.1 != key).filter (fun m => m.1 == name) =
      members.filter fun m => m.1 == name := by
    rw [List.filter_filter]
    refine List.filter_congr fun m _ => ?_
    by_cases hm : m.1 = name
    · simp [hm, h]
    · simp [hm]
  rw [member?, hboth]
  rfl

/-- A key that is no field may be taken away. -/
theorem record?_filter_ne {fields : List String} (h : key ∉ fields) (least : Nat) :
    record? fields least (.object (members.filter fun m => m.1 != key)) =
      record? fields least (.object members) := by
  show fields.mapM (member? (members.filter fun m => m.1 != key)) = fields.mapM (member? members)
  induction fields with
  | nil => rfl
  | cons name fields ih =>
      rw [List.mem_cons, not_or] at h
      rw [List.mapM_cons, List.mapM_cons, member?_filter_ne (Ne.symm h.1), ih h.2]

/-- A member of the key is the one that is found. -/
theorem eq_of_member? (h : member? members key = some (some value)) (hmem : (key, value') ∈ members) :
    value' = value := by
  obtain ⟨front, back, rfl⟩ := List.append_of_mem hmem
  exact (Option.some.inj (member?_insert_self h).1).symm

end Json

/-! ## Forms -/

/-- What a field is written as. -/
inductive FieldForm where
  /-- A text. -/
  | text (value : String)
  /-- A text or, where there is none, `null` or nothing at all. -/
  | optional (value? : Option String)
  /-- A list with the property. -/
  | list (good : List Json → Prop)

/-- Whether what was found of a field is as it should be. -/
def FieldForm.Holds : FieldForm → Option Json → Prop
  | text value, found => found = some (.string value)
  | optional value?, found => found = some (.ofString? value?) ∨ value? = none ∧ found = none
  | list good, found => ∃ elements, found = some (.array elements) ∧ good elements

/-- The fields of a record and what they are written as. -/
abbrev Form := List (String × FieldForm)

/-- The members give each field of the form once, as it should be, or leave it out where they may. -/
def Fills (members : List (String × Json)) (form : Form) : Prop :=
  ∀ f ∈ form, ∃ found, member? members f.1 = some found ∧ f.2.Holds found

/-- The value is an object of the form. -/
def IsObjectOf (value : Json) (form : Form) : Prop :=
  ∃ members, value = .object members ∧ Fills members form

/-- A list of objects, one of each form. -/
def FieldForm.objects (forms : List Form) : FieldForm := .list fun js => List.Forall₂ IsObjectOf js forms

def Parameter.form (p : Parameter) : Form :=
  [("name", .text p.name), ("type_name", .text p.typeName), ("direction", .text p.direction.word),
    ("default", .optional p.default?)]

def Attribute.form (a : Attribute) : Form :=
  [("name", .text a.name), ("type_name", .text a.typeName), ("visibility", .text a.visibility.word),
    ("initial_value", .optional a.initial?)]

def Method.form (m : Method) : Form :=
  [("name", .text m.name), ("return_type", .optional m.returnType?),
    ("visibility", .text m.visibility.word), ("parameters", .objects (m.parameters.map Parameter.form))]

def Entity.form (e : Entity) : Form :=
  match e.body with
  | .ofClass attributes methods =>
    [("kind", .text "class"), ("namespace", .text e.key.scope), ("name", .text e.key.name),
      ("attributes", .objects (attributes.map Attribute.form)),
      ("methods", .objects (methods.map Method.form))]
  | .ofEnum values =>
    [("kind", .text "enum"), ("namespace", .text e.key.scope), ("name", .text e.key.name),
      ("values", .list (· = values.map .string))]

/-! ## Reading -/

section Reading

variable {members : List (String × Json)} {found : Option Json}

theorem Direction.ofWord?_word (d : Direction) : ofWord? d.word = some d := by
  cases d <;> rfl

theorem Visibility.ofWord?_word (v : Visibility) : ofWord? v.word = some v := by
  cases v <;> rfl

theorem optional?_of_holds {value? : Option String} (h : (FieldForm.optional value?).Holds found) :
    Json.optional? Json.string? found = some value? := by
  rcases h with rfl | ⟨rfl, rfl⟩
  · cases value? <;> rfl
  · rfl

/-- A list is read where its elements are. -/
theorem mapM_of_objects {α : Type} {read : Json → Option α} {form : α → Form} {js : List Json}
    {xs : List α} (hread : ∀ members x, Fills members (form x) → read (.object members) = some x)
    (h : List.Forall₂ IsObjectOf js (xs.map form)) : (Json.array js).list? read = some xs := by
  rw [List.forall₂_map_right_iff] at h
  show js.mapM read = some xs
  induction h with
  | nil => rfl
  | cons hx _ ih =>
      obtain ⟨members, rfl, hfills⟩ := hx
      rw [List.mapM_cons, hread members _ hfills, ih]
      rfl

/-- The elements of a list that is read are. -/
theorem isSome_of_mem {α : Type} {read : Json → Option α} {js : List Json} {j : Json}
    (h : ((Json.array js).list? read).isSome = true) (hj : j ∈ js) : (read j).isSome = true := by
  obtain ⟨xs, hxs⟩ := Option.isSome_iff_exists.mp h
  replace hxs : js.mapM read = some xs := hxs
  induction js generalizing xs with
  | nil => cases hj
  | cons first js ih =>
      rw [List.mapM_cons] at hxs
      obtain ⟨x, hx, hxs⟩ := Option.bind_eq_some_iff.mp hxs
      obtain ⟨more, hmore, _⟩ := Option.bind_eq_some_iff.mp hxs
      rcases List.mem_cons.mp hj with rfl | hj
      · rw [hx]
        rfl
      · exact ih (Option.isSome_iff_exists.mpr ⟨more, hmore⟩) hj more hmore

theorem list?_strings (values : List String) :
    (Json.array (values.map .string)).list? Json.string? = some values := by
  show (values.map Json.string).mapM Json.string? = some values
  induction values with
  | nil => rfl
  | cons value values ih =>
      rw [List.map_cons, List.mapM_cons, ih]
      rfl

theorem Parameter.ofJson?_of_fills {p : Parameter} (h : Fills members p.form) :
    ofJson? (.object members) = some p := by
  simp only [Fills, form, List.forall_mem_cons] at h
  obtain ⟨⟨_, hname, rfl⟩, ⟨_, htype, rfl⟩, ⟨_, hdirection, rfl⟩, ⟨default?, hdefault, hholds⟩, _⟩ := h
  have hread := optional?_of_holds hholds
  simp [ofJson?, record?, hname, htype, hdirection, hdefault, hread, Json.string?, choice?, name?,
    Direction.ofWord?_word]

theorem Attribute.ofJson?_of_fills {a : Attribute} (h : Fills members a.form) :
    ofJson? (.object members) = some a := by
  simp only [Fills, form, List.forall_mem_cons] at h
  obtain ⟨⟨_, hname, rfl⟩, ⟨_, htype, rfl⟩, ⟨_, hvisibility, rfl⟩, ⟨initial?, hinitial, hholds⟩, _⟩ := h
  have hread := optional?_of_holds hholds
  simp [ofJson?, record?, hname, htype, hvisibility, hinitial, hread, Json.string?, choice?, name?,
    Visibility.ofWord?_word]

theorem Method.ofJson?_of_fills {m : Method} (h : Fills members m.form) :
    ofJson? (.object members) = some m := by
  simp only [Fills, form, List.forall_mem_cons] at h
  obtain ⟨⟨_, hname, rfl⟩, ⟨type?, htype, hholds⟩, ⟨_, hvisibility, rfl⟩,
    ⟨_, hparameters, js, rfl, hobjects⟩, _⟩ := h
  have hread := optional?_of_holds hholds
  have hlist := mapM_of_objects (fun _ _ => Parameter.ofJson?_of_fills) hobjects
  simp [ofJson?, record?, hname, htype, hvisibility, hparameters, hread, hlist, Json.string?, choice?,
    name?, Visibility.ofWord?_word]

/-- A class is read as such by its kind, wherever that stands. -/
theorem Entity.ofJson?_class (hkind : member? members "kind" = some (some (.string "class"))) :
    Entity.ofJson? (.object members) = classOfJson? (.object members) := by
  have hfields : classOfJson? (.object (members.filter fun m => m.1 != "kind")) =
      classOfJson? (.object members) := by
    rw [classOfJson?, classOfJson?, record?_filter_ne (by decide)]
  rw [ofJson?, tagged?, hkind, ← hfields]
  rfl

theorem Entity.ofJson?_enum (hkind : member? members "kind" = some (some (.string "enum"))) :
    Entity.ofJson? (.object members) = enumOfJson? (.object members) := by
  have hfields : enumOfJson? (.object (members.filter fun m => m.1 != "kind")) =
      enumOfJson? (.object members) := by
    rw [enumOfJson?, enumOfJson?, record?_filter_ne (by decide)]
  rw [ofJson?, tagged?, hkind, ← hfields]
  rfl

theorem Entity.ofJson?_untagged (hkind : member? members "kind" = some none) :
    Entity.ofJson? (.object members) = none := by
  rw [ofJson?, tagged?, hkind]
  rfl

theorem Entity.ofJson?_of_fills {e : Entity} (h : Fills members e.form) :
    ofJson? (.object members) = some e := by
  obtain ⟨key, body⟩ := e
  cases body with
  | ofClass attributes methods =>
      simp only [Fills, form, List.forall_mem_cons] at h
      obtain ⟨⟨_, hkind, rfl⟩, ⟨_, hscope, rfl⟩, ⟨_, hname, rfl⟩, ⟨_, hattributes, as, rfl, hobjects⟩,
        ⟨_, hmethods, ms, rfl, hobjects'⟩, _⟩ := h
      have hlist := mapM_of_objects (fun _ _ => Attribute.ofJson?_of_fills) hobjects
      have hlist' := mapM_of_objects (fun _ _ => Method.ofJson?_of_fills) hobjects'
      rw [ofJson?_class hkind]
      simp [classOfJson?, record?, hscope, hname, hattributes, hmethods, hlist, hlist', Json.string?]
  | ofEnum values =>
      simp only [Fills, form, List.forall_mem_cons] at h
      obtain ⟨⟨_, hkind, rfl⟩, ⟨_, hscope, rfl⟩, ⟨_, hname, rfl⟩, ⟨_, hvalues, js, rfl, rfl⟩, _⟩ := h
      have hlist := list?_strings values
      rw [ofJson?_enum hkind]
      simp [enumOfJson?, record?, hscope, hname, hvalues, hlist, Json.string?]

/-- What a record is read from. -/
theorem member?_of_record? {fields : List String} {least : Nat} {record : Record}
    (h : record? fields least (.object members) = some record) :
    List.Forall₂ (fun key found => member? members key = some found) fields record := by
  replace h : fields.mapM (member? members) = some record := h
  induction fields generalizing record with
  | nil =>
      cases h
      exact .nil
  | cons key fields ih =>
      rw [List.mapM_cons] at h
      obtain ⟨found, hfound, h⟩ := Option.bind_eq_some_iff.mp h
      obtain ⟨more, hmore, h⟩ := Option.bind_eq_some_iff.mp h
      cases h
      exact .cons hfound (ih hmore)

theorem Parameter.found_of_ofJson? {p : Parameter} (h : ofJson? (.object members) = some p) :
    ∃ name typeName direction, member? members "name" = some (some name) ∧
      member? members "type_name" = some (some typeName) ∧
      member? members "direction" = some (some direction) := by
  obtain ⟨record, hrecord, h⟩ := Option.bind_eq_some_iff.mp h
  split at h
  · rename_i name typeName direction default?
    have hfound := member?_of_record? hrecord
    simp only [List.forall₂_cons] at hfound
    exact ⟨name, typeName, direction, hfound.1, hfound.2.1, hfound.2.2.1⟩
  · cases h

theorem Attribute.found_of_ofJson? {a : Attribute} (h : ofJson? (.object members) = some a) :
    ∃ name typeName visibility, member? members "name" = some (some name) ∧
      member? members "type_name" = some (some typeName) ∧
      member? members "visibility" = some (some visibility) := by
  obtain ⟨record, hrecord, h⟩ := Option.bind_eq_some_iff.mp h
  split at h
  · rename_i name typeName visibility initial?
    have hfound := member?_of_record? hrecord
    simp only [List.forall₂_cons] at hfound
    exact ⟨name, typeName, visibility, hfound.1, hfound.2.1, hfound.2.2.1⟩
  · cases h

theorem Method.found_of_ofJson? {m : Method} (h : ofJson? (.object members) = some m) :
    ∃ name visibility parameters, member? members "name" = some (some name) ∧
      member? members "visibility" = some (some visibility) ∧
      member? members "parameters" = some (some parameters) ∧
      (parameters.list? Parameter.ofJson?).isSome = true := by
  obtain ⟨record, hrecord, h⟩ := Option.bind_eq_some_iff.mp h
  split at h
  · rename_i name returnType? visibility parameters
    have hfound := member?_of_record? hrecord
    simp only [List.forall₂_cons] at hfound
    simp only [Option.bind_eq_bind, Option.bind_eq_some_iff] at h
    obtain ⟨_, _, _, _, _, _, list, hlist, _⟩ := h
    exact ⟨name, visibility, parameters, hfound.1, hfound.2.2.1, hfound.2.2.2.1, by rw [hlist]; rfl⟩
  · cases h

theorem Entity.found_of_classOfJson? {e : Entity} (h : classOfJson? (.object members) = some e) :
    ∃ scope name attributes methods, member? members "namespace" = some (some scope) ∧
      member? members "name" = some (some name) ∧
      member? members "attributes" = some (some attributes) ∧
      member? members "methods" = some (some methods) ∧
      (attributes.list? Attribute.ofJson?).isSome = true ∧
      (methods.list? Method.ofJson?).isSome = true := by
  obtain ⟨record, hrecord, h⟩ := Option.bind_eq_some_iff.mp h
  split at h
  · rename_i scope name attributes methods
    have hfound := member?_of_record? hrecord
    simp only [List.forall₂_cons] at hfound
    simp only [Option.bind_eq_bind, Option.bind_eq_some_iff] at h
    obtain ⟨_, _, _, _, list, hlist, list', hlist', _⟩ := h
    exact ⟨scope, name, attributes, methods, hfound.1, hfound.2.1, hfound.2.2.1, hfound.2.2.2.1,
      by rw [hlist]; rfl, by rw [hlist']; rfl⟩
  · cases h

theorem Entity.found_of_enumOfJson? {e : Entity} (h : enumOfJson? (.object members) = some e) :
    ∃ scope name values, member? members "namespace" = some (some scope) ∧
      member? members "name" = some (some name) ∧ member? members "values" = some (some values) := by
  obtain ⟨record, hrecord, h⟩ := Option.bind_eq_some_iff.mp h
  split at h
  · rename_i scope name values
    have hfound := member?_of_record? hrecord
    simp only [List.forall₂_cons] at hfound
    exact ⟨scope, name, values, hfound.1, hfound.2.1, hfound.2.2.1⟩
  · cases h

end Reading

/-! ## Writing -/

theorem Parameter.isObjectOf_toJson (p : Parameter) : IsObjectOf p.toJson p.form := by
  refine ⟨_, rfl, ?_⟩
  simp only [Fills, form, List.forall_mem_cons]
  exact ⟨⟨_, rfl, rfl⟩, ⟨_, rfl, rfl⟩, ⟨_, rfl, rfl⟩, ⟨_, rfl, .inl rfl⟩, nofun⟩

theorem Attribute.isObjectOf_toJson (a : Attribute) : IsObjectOf a.toJson a.form := by
  refine ⟨_, rfl, ?_⟩
  simp only [Fills, form, List.forall_mem_cons]
  exact ⟨⟨_, rfl, rfl⟩, ⟨_, rfl, rfl⟩, ⟨_, rfl, rfl⟩, ⟨_, rfl, .inl rfl⟩, nofun⟩

theorem forall₂_objects {α : Type} {write : α → Json} {form : α → Form} (xs : List α)
    (h : ∀ x, IsObjectOf (write x) (form x)) : List.Forall₂ IsObjectOf (xs.map write) (xs.map form) := by
  rw [List.forall₂_map_left_iff, List.forall₂_map_right_iff]
  exact List.forall₂_same.mpr fun x _ => h x

theorem Method.isObjectOf_toJson (m : Method) : IsObjectOf m.toJson m.form := by
  refine ⟨_, rfl, ?_⟩
  simp only [Fills, form, List.forall_mem_cons]
  exact ⟨⟨_, rfl, rfl⟩, ⟨_, rfl, .inl rfl⟩, ⟨_, rfl, rfl⟩,
    ⟨_, rfl, _, rfl, forall₂_objects _ Parameter.isObjectOf_toJson⟩, nofun⟩

theorem Entity.isObjectOf_toJson (e : Entity) : IsObjectOf e.toJson e.form := by
  obtain ⟨key, body⟩ := e
  cases body with
  | ofClass attributes methods =>
      refine ⟨_, rfl, ?_⟩
      simp only [Fills, form, List.forall_mem_cons]
      exact ⟨⟨_, rfl, rfl⟩, ⟨_, rfl, rfl⟩, ⟨_, rfl, rfl⟩,
        ⟨_, rfl, _, rfl, forall₂_objects _ Attribute.isObjectOf_toJson⟩,
        ⟨_, rfl, _, rfl, forall₂_objects _ Method.isObjectOf_toJson⟩, nofun⟩
  | ofEnum values =>
      refine ⟨_, rfl, ?_⟩
      simp only [Fills, form, List.forall_mem_cons]
      exact ⟨⟨_, rfl, rfl⟩, ⟨_, rfl, rfl⟩, ⟨_, rfl, rfl⟩, ⟨_, rfl, _, rfl, rfl⟩, nofun⟩

/-- The value is an array of objects, one for each entity of the model and of its form. -/
def Model.IsWritten (m : Model) (value : Json) : Prop :=
  ∃ elements, value = .array elements ∧ List.Forall₂ IsObjectOf elements (m.map Entity.form)

theorem Model.isWritten_toJson (m : Model) : m.IsWritten m.toJson :=
  ⟨_, rfl, forall₂_objects _ Entity.isObjectOf_toJson⟩

theorem Model.ofJson?_of_isWritten {m : Model} {value : Json} (h : m.IsWritten value) :
    Model.ofJson? value = some m := by
  obtain ⟨elements, rfl, hobjects⟩ := h
  exact mapM_of_objects (fun _ _ => Entity.ofJson?_of_fills) hobjects

end ClassChart
