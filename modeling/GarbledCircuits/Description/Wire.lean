import GarbledCircuits.Description.Record
import GarbledCircuits.Table.Translation

/-!
# Descriptions of wires, keys and tables

Keys and tables are described by lists of bytes, wires by their numbers.  A
map over wires is an object whose names are the numbers.
-/

namespace GarbledCircuits

open Json (Reading)

/-! ## Wires -/

namespace WireId

def toJson (wire : WireId) : Json := .number wire.toNat

def ofReading : Decoder WireId :=
  (Decoder.natural wordLimit).map UInt64.ofNat

def listToJson (wires : List WireId) : Json :=
  .list toJson wires

def listOfReading : Decoder (List WireId) :=
  Decoder.list ofReading

def partiesToJson (parties : List (List WireId)) : Json :=
  .list listToJson parties

def partiesOfReading : Decoder (List (List WireId)) :=
  Decoder.list listOfReading

/-- The wire that the name of a field is the number of; such a name is
written without escapes. -/
def ofName (literal : List Char) : Except DescriptionError WireId :=
  match Decimal.value? literal with
  | some value =>
      if value < wordLimit then .ok (UInt64.ofNat value) else Decoder.malformed
  | none => Decoder.malformed

end WireId

namespace WireMap

def toJson (value : α → Json) (values : WireMap α) : Json :=
  .object <| values.toList.map fun (wire, item) =>
    (Decimal.render wire.toNat, value item)

/-- Add the next field of an object; a later one takes the place of an
earlier one. -/
def step (decoder : Decoder α) (values : WireMap α) :
    List Char × Reading → Except DescriptionError (WireMap α)
  | (literal, reading) => do
      let wire ← WireId.ofName literal
      let value ← decoder reading
      return values.insert wire value

def ofReading (decoder : Decoder α) : Decoder (WireMap α)
  | .object fields => fields.foldlM (step decoder) ∅
  | .cut (.object fields) =>
      Decoder.afterCut (fields.foldlM (step decoder) ∅)
  | _ => Decoder.malformed

end WireMap

/-! ## Keys -/

namespace WireKey

def toJson (key : WireKey) : Json := .ofBytes key.toBytes

def ofReading : Decoder WireKey :=
  (Decoder.exactly size Decoder.byte).map ofBytes

end WireKey

namespace KeyPair

def toJson (pair : KeyPair) : Json :=
  .object [("label0", pair.key0.toJson), ("label1", pair.key1.toJson)]

def record : Record KeyPair :=
  ((Record.required "label0" WireKey.ofReading).and
    (Record.required "label1" WireKey.ofReading)).map
    fun (key0, key1) => ⟨key0, key1⟩

def ofReading : Decoder KeyPair := record.decode

end KeyPair

/-! ## Tables -/

namespace Table

def toJson (table : Table) : Json :=
  .object [("bytes", .ofBytes table.bytes), ("row_size", .number table.rowSize)]

def record : Record Table :=
  ((Record.required "bytes" (Decoder.list Decoder.byte)).and
    (Record.required "row_size" (Decoder.natural wordLimit))).map
    fun (bytes, rowSize) => ⟨bytes, rowSize⟩

/-- A table as it is described, whether or not its bytes are whole rows. -/
def ofReading : Decoder Table := record.decode

end Table

namespace Tables

def toJson (tables : Tables) : Json := .list Table.toJson tables

def ofReading : Decoder Tables := Decoder.list Table.ofReading

end Tables

namespace Translation

def toJson (translation : Translation) : Json := .ofBits translation.bits

def ofReading : Decoder Translation :=
  (Decoder.list Decoder.bool).map Translation.mk

end Translation

end GarbledCircuits
