import GarbledCircuits.Description.Wire
import GarbledCircuits.Proofs.Description.Record

/-!
# Reading descriptions of tables

A table is described by its bytes and its row size.  It is read back from its
description, whatever they are.
-/

namespace GarbledCircuits

open Json (Reading)

namespace Table

variable {table : Table}

theorem reads_record :
    record.Reads ["bytes", "row_size"] fun fields table =>
      Gives fields "bytes" (Decoder.list Decoder.byte) table.bytes ∧
        Gives fields "row_size" (Decoder.natural wordLimit)
          table.rowSize := by
  have hfields :=
    (Record.reads_required "bytes" (Decoder.list Decoder.byte)).and
      (Record.reads_required "row_size" (Decoder.natural wordLimit)) (by simp)
  exact hfields.map (g := fun table : Table => (table.bytes, table.rowSize))
    (fun _ => rfl) fun _ => rfl

theorem ofReading_toJson (hsize : table.rowSize < wordLimit) :
    ofReading (.ofJson table.toJson) = .ok table := by
  have hbytes : Decoder.list Decoder.byte
      (.ofJson (.ofBytes table.bytes)) = .ok table.bytes :=
    Decoder.list_ofJson fun value _ => Decoder.byte_ofJson value
  have hrowSize := Decoder.natural_ofJson hsize
  refine reads_record.decode_eq_ok_iff.mpr
    ⟨_, nameFields_ofFields _, ⟨_, ?_, hbytes⟩, _, ?_, hrowSize⟩
  · simp
  · simp

end Table

theorem Tables.ofReading_toJson
    {tables : Tables} (hsizes : ∀ table ∈ tables, table.rowSize < wordLimit) :
    ofReading (.ofJson tables.toJson) = .ok tables :=
  Decoder.list_ofJson fun table htable =>
    Table.ofReading_toJson (hsizes table htable)

end GarbledCircuits
