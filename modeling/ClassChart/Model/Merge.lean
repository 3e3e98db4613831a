/-
# ClassChart.Model.Merge — one entity per key

Merging folds a model from left to right into one entity per key. The first entity of a key fixes its
place and its kind; later ones of the same kind add the members that are not there yet, and later
ones of the other kind are left out with a warning. Attributes are told apart by name, methods by
signature, enum values by text.
-/
import ClassChart.Model
import ClassChart.Warning

namespace ClassChart

/-! ## Ordered unions -/

/-- Adds `x` at the end, unless something with the same key is there. -/
def addNew [DecidableEq κ] (key : α → κ) (xs : List α) (x : α) : List α :=
  if xs.any fun y => key y = key x then xs else xs ++ [x]

/-- Adds those of `ys` whose key is not there yet, in order. -/
def unionBy [DecidableEq κ] (key : α → κ) (xs ys : List α) : List α := ys.foldl (addNew key) xs

/-! ## Folding entities -/

namespace EntityBody

/-- A body of the same kind without members. -/
def blank : EntityBody → EntityBody
  | ofClass _ _ => ofClass [] []
  | ofEnum _ => ofEnum []

/-- Adds the members of a body of the same kind; nothing if the kinds differ. -/
def absorb? : EntityBody → EntityBody → Option EntityBody
  | ofClass attributes methods, ofClass moreAttributes moreMethods =>
    some (ofClass (unionBy Attribute.name attributes moreAttributes)
      (unionBy Method.signature methods moreMethods))
  | ofEnum values, ofEnum moreValues => some (ofEnum (unionBy id values moreValues))
  | _, _ => none

/-- The body with repeated members left out. -/
def distinct (b : EntityBody) : EntityBody := (b.blank.absorb? b).getD b

end EntityBody

/-- Folds an entity into a merged model: into the entity with its key, or behind all others. -/
def mergeEntity : Model → Entity → Model × List Warning
  | [], e => ([⟨e.key, e.body.distinct⟩], [])
  | m :: ms, e =>
    if m.key = e.key then
      match m.body.absorb? e.body with
      | some body => (⟨m.key, body⟩ :: ms, [])
      | none => (m :: ms, [.kindConflict e.key])
    else
      let (rest, warnings) := mergeEntity ms e
      (m :: rest, warnings)

/-- Folds further entities into a merged model, collecting the warnings. -/
def mergeInto (merged : Model × List Warning) (entities : Model) : Model × List Warning :=
  entities.foldl (fun (m, warnings) e =>
    let (next, more) := mergeEntity m e
    (next, warnings ++ more)) merged

/-- The merged model, and a warning for each entity that was left out. -/
def Model.merge (m : Model) : Model × List Warning := mergeInto ([], []) m

end ClassChart
