import GarbledCircuits.Description.Decoder

/-!
# Decoding records

The fields of a record are given by name in an object, in any order, or
without names in an array, in the order of the record.  Other names in an
object are passed over.  A field that is given twice, or not at all where it
has to be given, makes the record malformed.
-/

namespace GarbledCircuits

open Json (Reading)

/-- How the fields of a record are collected. -/
structure Record (α : Type) where
  /-- What has been given of the fields. -/
  State : Type
  start : State
  /-- Take a field; `none` where the record has no field of that name. -/
  give : State → String → Reading → Option (Except DescriptionError State)
  /-- The record at the end of an object. -/
  finish : State → Except DescriptionError α
  /-- Take the fields from the front of an array. -/
  take : List Reading → Except DescriptionError (α × List Reading)

namespace Record

/-! ## Fields -/

/-- One field, with what it is where an object or an array does not give
it. -/
def field (name : String) (decoder : Decoder α)
    (unnamed untaken : Except DescriptionError α) : Record α where
  State := Option α
  start := none
  give := fun state key value =>
    if key ≠ name then none
    else if state.isSome then some Decoder.malformed
    else some (some <$> decoder value)
  finish := fun state => state.elim unnamed .ok
  take
    | [] => untaken.map (·, [])
    | item :: rest => do return (← decoder item, rest)

/-- A field that has to be given. -/
def required (name : String) (decoder : Decoder α) : Record α :=
  field name decoder Decoder.malformed Decoder.malformed

/-- A field that an object need not give. -/
def nullable (name : String) (decoder : Decoder α) : Record (Option α) :=
  field name decoder.optional (.ok none) Decoder.malformed

/-- A field that neither an object nor an array need give. -/
def omissible (name : String) (decoder : Decoder α) : Record (Option α) :=
  field name decoder.optional (.ok none) (.ok none)

/-! ## Joining fields -/

def and (record : Record α) (other : Record β) : Record (α × β) where
  State := record.State × other.State
  start := (record.start, other.start)
  give := fun (state, rest) name value =>
    match record.give state name value with
    | some given => some (given.map (·, rest))
    | none => (other.give rest name value).map (Except.map (state, ·))
  finish := fun (state, rest) => do
    return (← record.finish state, ← other.finish rest)
  take := fun items => do
    let (first, items) ← record.take items
    let (second, items) ← other.take items
    return ((first, second), items)

def map (f : α → β) (record : Record α) : Record β where
  State := record.State
  start := record.start
  give := record.give
  finish := fun state => f <$> record.finish state
  take := fun items => do
    let (value, items) ← record.take items
    return (f value, items)

/-! ## Decoding -/

def step (record : Record α) (state : record.State) :
    List Char × Reading → Except DescriptionError record.State
  | (literal, value) => do
      let name ← Decoder.textOf literal
      (record.give state name value).getD (.ok state)

def ofFields (record : Record α) (fields : List (List Char × Reading)) :
    Except DescriptionError α := do
  let state ← fields.foldlM record.step record.start
  record.finish state

def ofItems (record : Record α) (items : List Reading) :
    Except DescriptionError α := do
  let (value, rest) ← record.take items
  if rest.isEmpty then return value else Decoder.malformed

def decode (record : Record α) : Decoder α
  | .object fields => record.ofFields fields
  | .array items => record.ofItems items
  | .cut (.object fields) =>
      Decoder.afterCut (fields.foldlM record.step record.start)
  | .cut (.array items) => Decoder.afterCut (record.ofItems items)
  | _ => Decoder.malformed

/-- A record whose fields have to be named. -/
def decodeNamed (record : Record α) : Decoder α
  | .array _ => Decoder.malformed
  | .cut (.array _) => Decoder.malformed
  | reading => record.decode reading

end Record

end GarbledCircuits
