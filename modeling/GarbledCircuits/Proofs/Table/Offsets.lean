import GarbledCircuits.Proofs.Table.Wholeness
import Mathlib.Algebra.BigOperators.Ring.List

/-!
# Cutting by offsets

A table that is cut in place ends where its start and its size say.  The total
was checked before, so each product and each sum is a 64-bit word and every
slice lies within the bytes, and what is cut is what cutting one table after
the other gives.
-/

namespace GarbledCircuits.Tables

variable {bytes : List UInt8} {rowCounts : List Nat} {rowSize offset : Nat}
  {tables : Tables}

theorem slice?_add {size : Nat} (hend : offset + size ≤ bytes.length) :
    slice? bytes offset (offset + size) =
      some ((bytes.drop offset).take size) := by
  rw [slice?, if_pos ⟨Nat.le_add_right offset size, hend⟩,
    Nat.add_sub_cancel_left]

theorem flatLength_eq_sum_mul (rowCounts : List Nat) (rowSize : Nat) :
    flatLength rowCounts rowSize = rowCounts.sum * rowSize := by
  rw [flatLength, List.sum_map_mul_right, List.map_id']

/-- No offset passes the end of the tables, so nothing overflows where that is
within the bytes. -/
theorem cutAt?_eq_some_cut
    (hfits : offset + flatLength rowCounts rowSize ≤ bytes.length)
    (hlimit : bytes.length < wordLimit) :
    cutAt? bytes rowSize offset rowCounts =
      some (cut rowSize rowCounts (bytes.drop offset)) := by
  induction rowCounts generalizing offset with
  | nil => rfl
  | cons count rest ih =>
      rw [flatLength_cons] at hfits
      have hsize : checkedMul? count rowSize = some (count * rowSize) :=
        checkedMul?_eq_some_iff.mpr ⟨rfl, by omega⟩
      have hlast : checkedAdd? offset (count * rowSize) =
          some (offset + count * rowSize) :=
        checkedAdd?_eq_some_iff.mpr ⟨rfl, by omega⟩
      have hslice : slice? bytes offset (offset + count * rowSize) =
          some ((bytes.drop offset).take (count * rowSize)) :=
        slice?_add (by omega)
      have hrest : cutAt? bytes rowSize (offset + count * rowSize) rest =
          some (cut rowSize rest
            ((bytes.drop offset).drop (count * rowSize))) := by
        rw [List.drop_drop]
        exact ih (by omega)
      simp [cutAt?, hsize, hlast, hslice, hrest, cut]

/-- Cutting by offsets has a result for all bytes. -/
theorem ofBytesAt?_eq_some_ofBytes
    (bytes : List UInt8) (rowCounts : List Nat) (rowSize : Nat) :
    ofBytesAt? bytes rowCounts rowSize =
      some (ofBytes bytes rowCounts rowSize) := by
  unfold ofBytesAt? ofBytes
  cases hlength : checkLength bytes rowCounts rowSize with
  | error cause => rfl
  | ok _ =>
      obtain ⟨_, hflat, hlimit⟩ := checkLength_eq_ok_iff.mp hlength
      have hfits : 0 + flatLength rowCounts rowSize ≤ bytes.length := by omega
      rw [cutAt?_eq_some_cut hfits hlimit, List.drop_zero]
      rfl

theorem Laid.map_rows (hlaid : tables.Laid rowCounts rowSize)
    (hsize : 0 < rowSize) : tables.map Table.rows = rowCounts := by
  rw [← List.forall₂_eq_eq_eq, List.forall₂_map_left_iff]
  exact hlaid.imp fun _ _ htable => htable.rows hsize

/-- Bytes that a word can count are cut into tables of rows of some size
exactly if the rows have a size and are, in exact numbers, as many bytes.
Nothing overflows and no slice is out of range on the way, whether tables come
out or not.  The tables have the given counts of rows, and join to the bytes;
tables of whole rows with that layout are what is cut from the bytes that they
join to. -/
theorem cut_exactly_where_sizes_add_up
    (bytes : List UInt8) (hlimit : bytes.length < wordLimit)
    (rowCounts : List Nat) (rowSize : Nat) :
    ((∃ tables, ofBytes bytes rowCounts rowSize = .ok tables) ↔
        0 < rowSize ∧ rowCounts.sum * rowSize = bytes.length) ∧
      ofBytesAt? bytes rowCounts rowSize =
        some (ofBytes bytes rowCounts rowSize) ∧
      (∀ tables, ofBytes bytes rowCounts rowSize = .ok tables →
        tables.toBytes = bytes ∧ tables.map Table.rows = rowCounts ∧
          tables.checkLayout rowCounts rowSize = .ok ()) ∧
      ∀ tables : Tables, (∀ table ∈ tables, table.Whole) →
        tables.checkLayout rowCounts rowSize = .ok () → 0 < rowSize →
          tables.toBytes.length < wordLimit →
            ofBytes tables.toBytes rowCounts rowSize = .ok tables := by
  refine ⟨?_, ofBytesAt?_eq_some_ofBytes bytes rowCounts rowSize, ?_, ?_⟩
  · constructor
    · intro hcut
      obtain ⟨tables, hbytes⟩ := hcut
      have hsize := (ofBytes_eq_ok_iff.mp hbytes).1
      have hlength := (exists_ofBytes_iff hsize hlimit).mp ⟨tables, hbytes⟩
      rw [flatLength_eq_sum_mul] at hlength
      exact ⟨hsize, hlength.symm⟩
    · intro hfits
      obtain ⟨hsize, hlength⟩ := hfits
      rw [← flatLength_eq_sum_mul] at hlength
      exact (exists_ofBytes_iff hsize hlimit).mpr hlength.symm
  · intro tables hbytes
    obtain ⟨hsize, hlaid, hjoined, _⟩ := ofBytes_eq_ok_iff.mp hbytes
    exact ⟨hjoined, hlaid.map_rows hsize, hlaid.checkLayout hsize⟩
  · intro tables hwhole hlayout hsize hcount
    exact (ofBytes_toBytes_eq_ok_iff hlayout).mpr ⟨hsize, hwhole, hcount⟩

/-- Six bytes are one row of two bytes, no row and two rows. -/
theorem cut_exactly_where_sizes_add_up_six_bytes :
    [1, 2, 3, 4, 5, 6].length < wordLimit ∧
      ofBytes [1, 2, 3, 4, 5, 6] [1, 0, 2] 2 =
        .ok [⟨[1, 2], 2⟩, ⟨[], 2⟩, ⟨[3, 4, 5, 6], 2⟩] ∧
      checkLayout [⟨[1, 2], 2⟩, ⟨[], 2⟩, ⟨[3, 4, 5, 6], 2⟩] [1, 0, 2] 2 =
        .ok () := by
  have hlimit : [1, 2, 3, 4, 5, 6].length < wordLimit := by decide
  obtain ⟨_, _, hcut, _⟩ :=
    cut_exactly_where_sizes_add_up [1, 2, 3, 4, 5, 6] hlimit [1, 0, 2] 2
  have hbytes : ofBytes [1, 2, 3, 4, 5, 6] [1, 0, 2] 2 =
      .ok [⟨[1, 2], 2⟩, ⟨[], 2⟩, ⟨[3, 4, 5, 6], 2⟩] := rfl
  exact ⟨hlimit, hbytes, (hcut _ hbytes).2.2⟩

/-- A sum that passes the last word is no length, however short the bytes. -/
example : ofBytes (List.replicate 64 0) [wordLimit - 1, 2] 32 =
    .error (.length (wordLimit - 1) 64) := by
  decide

end GarbledCircuits.Tables
