import GarbledCircuits.Proofs.Table.Cutting

/-!
# Rows tile a table

The rows of a table of whole rows, one after the other, are its bytes, and no
other position has a row.  The start of a row is checked to be a 64-bit word
and its end is not: it passes the last word at the one position where the last
start is, which is past the rows of any table.
-/

namespace GarbledCircuits

/-- Blocks that are cut from bytes one after the other are the bytes. -/
theorem flatten_map_take_drop
    {xs : List α} {count size : Nat} (hlength : xs.length = count * size) :
    ((List.range count).map fun index =>
      (xs.drop (index * size)).take size).flatten = xs := by
  have hsize : ∀ block ∈ (List.range count).map fun index =>
      (xs.drop (index * size)).take size, block.length = size := by
    intro block hblock
    obtain ⟨index, hindex, rfl⟩ := List.mem_map.mp hblock
    have hend : (index + 1) * size ≤ count * size :=
      Nat.mul_le_mul_right size (List.mem_range.mp hindex)
    rw [Nat.succ_mul] at hend
    rw [List.length_take, List.length_drop]
    omega
  refine eq_of_forall_take_drop ?_ hlength ?_
  · rw [length_flatten_of_forall_length hsize, List.length_map,
      List.length_range]
  · intro index hindex
    apply take_drop_flatten hsize
    rw [List.getElem?_map, List.getElem?_range hindex]
    rfl

namespace Table

variable {table : Table} {bytes : List UInt8} {size count position : Nat}

theorem HasRows.exists_row_iff
    (htable : table.HasRows size count) (hsize : 0 < size)
    (hlimit : count * size < wordLimit) :
    (∃ row, table.row position = some row) ↔ position < count := by
  constructor
  · intro hrow
    obtain ⟨row, hrow⟩ := hrow
    by_contra hposition
    rw [htable.row_eq_none hsize (Nat.le_of_not_lt hposition)] at hrow
    cases hrow
  · intro hposition
    exact ⟨_, htable.row_eq_some hlimit hposition⟩

theorem overruns_iff :
    table.overruns position = true ↔
      position * table.rowSize < wordLimit ∧
        wordLimit ≤ position * table.rowSize + table.rowSize := by
  by_cases hstart : position * table.rowSize < wordLimit <;>
    simp [overruns, rowBounds?, hstart]

/-- The end of a row passes the last word only where the last start is. -/
theorem overruns_iff_eq (hsize : 0 < table.rowSize) :
    table.overruns position = true ↔
      position = (wordLimit - 1) / table.rowSize := by
  have hlimit : 0 < wordLimit := by decide
  rw [overruns_iff, eq_comm (a := position), Nat.div_eq_iff hsize]
  generalize position * table.rowSize = start
  omega

/-- In a table made of bytes, looking up a row has an answer at all positions
but one, and that one is past the rows.  There is a row at the positions below
the count of rows and nowhere else, and the rows, of one size, are the bytes
of the table. -/
theorem rows_tile_and_one_position_overruns
    {bytes : List UInt8} (hlimit : bytes.length < wordLimit) {size : Nat}
    {table : Table} (htable : Table.ofBytes bytes size = .ok table) :
    (∀ position, table.overruns position = true ↔
        position = (wordLimit - 1) / size) ∧
      table.rows ≤ (wordLimit - 1) / size ∧
      (∀ position, (∃ row, table.row position = some row) ↔
        position < table.rows) ∧
      ∃ rows : List (List UInt8),
        (List.range table.rows).map table.row = rows.map some ∧
        (∀ row ∈ rows, row.length = size) ∧ rows.flatten = table.bytes := by
  obtain ⟨rfl, hwhole⟩ := ofBytes_eq_ok_iff.mp htable
  have hrows := hwhole.hasRows
  have hsize : 0 < size := hwhole.rowSize_pos
  have hcount := hrows.length_bytes ▸ hlimit
  refine ⟨fun position => overruns_iff_eq hsize, ?_, ?_, ?_⟩
  · rw [Nat.le_div_iff_mul_le hsize]
    exact Nat.le_sub_one_of_lt hcount
  · intro position
    exact hrows.exists_row_iff hsize hcount
  · refine ⟨_, ?_, ?_, flatten_map_take_drop hrows.length_bytes⟩
    · rw [List.map_map]
      apply List.map_congr_left
      intro position hposition
      exact hrows.row_eq_some hcount (List.mem_range.mp hposition)
    · intro row hrow
      obtain ⟨position, hposition, rfl⟩ := List.mem_map.mp hrow
      have hfound := hrows.row_eq_some hcount (List.mem_range.mp hposition)
      exact length_of_row hfound

theorem rows_tile_and_one_position_overruns_four_bytes :
    [1, 2, 3, 4].length < wordLimit ∧
      ofBytes [1, 2, 3, 4] 2 = .ok ⟨[1, 2, 3, 4], 2⟩ ∧
      (∃ row, (⟨[1, 2, 3, 4], 2⟩ : Table).row 1 = some row) ∧
      ¬ (∃ row, (⟨[1, 2, 3, 4], 2⟩ : Table).row 2 = some row) ∧
      (⟨[1, 2, 3, 4], 2⟩ : Table).overruns 2 = false := by
  have hlimit : [1, 2, 3, 4].length < wordLimit := by decide
  have htable : ofBytes [1, 2, 3, 4] 2 = .ok ⟨[1, 2, 3, 4], 2⟩ := rfl
  obtain ⟨hoverruns, _, hrow, _⟩ :=
    rows_tile_and_one_position_overruns hlimit htable
  refine ⟨hlimit, htable, (hrow 1).mpr (by decide), ?_, ?_⟩
  · rw [hrow 2]
    decide
  · rw [Bool.eq_false_iff, ne_eq, hoverruns 2]
    decide

/-- One row of two bytes, and the position at which a row would start two
bytes before the last word and end past it. -/
theorem exists_position_that_overruns :
    ofBytes [1, 2] 2 = .ok ⟨[1, 2], 2⟩ ∧
      9223372036854775807 < wordLimit ∧
      (⟨[1, 2], 2⟩ : Table).rowBounds? 9223372036854775807 =
        some (wordLimit - 2, wordLimit) ∧
      (⟨[1, 2], 2⟩ : Table).overruns 9223372036854775807 = true := by
  refine ⟨rfl, ?_, ?_, ?_⟩ <;> decide

end Table

end GarbledCircuits
