import GarbledCircuits.Gate.Garbling
import Mathlib.Tactic

/-!
# The rows of a table

A byte string of whole rows is determined by its rows.  A table into which a
row of the right size is put for every position has these rows.
-/

namespace GarbledCircuits

/-! ## Slots that are filled one by one -/

theorem length_foldl_set (entries : List (Nat × α)) (slots : List α) :
    (entries.foldl (fun slots (index, x) => slots.set index x)
      slots).length = slots.length := by
  induction entries generalizing slots with
  | nil => rfl
  | cons entry entries ih => simp [ih]

theorem getElem?_foldl_set_of_forall_ne
    {entries : List (Nat × α)} {slots : List α} {i : Nat}
    (hne : ∀ entry ∈ entries, entry.1 ≠ i) :
    (entries.foldl (fun slots (index, x) => slots.set index x) slots)[i]? =
      slots[i]? := by
  induction entries generalizing slots with
  | nil => rfl
  | cons entry entries ih =>
      have hfirst : entry.1 ≠ i := hne entry (by simp)
      rw [List.foldl_cons, ih fun other hother =>
        hne other (List.mem_cons_of_mem _ hother)]
      simp [hfirst]

theorem getElem?_foldl_set_of_mem
    {entries : List (Nat × α)} {slots : List α} {i : Nat} {x : α}
    (hmem : (i, x) ∈ entries)
    (hunique : ∀ entry ∈ entries, entry.1 = i → entry.2 = x)
    (hi : i < slots.length) :
    (entries.foldl (fun slots (index, x) => slots.set index x) slots)[i]? =
      some x := by
  induction entries generalizing slots with
  | nil => simp at hmem
  | cons entry entries ih =>
      have hrest : ∀ other ∈ entries, other.1 = i → other.2 = x :=
        fun other hother => hunique other (by simp [hother])
      rw [List.foldl_cons]
      by_cases hlater : (i, x) ∈ entries
      · exact ih hlater hrest (by simpa using hi)
      · -- No later entry fills the slot again.
        have hne : ∀ other ∈ entries, other.1 ≠ i := by
          intro other hother hindex
          have hvalue := hrest other hother hindex
          exact hlater (by rw [← hindex, ← hvalue]; exact hother)
        have hentry : entry = (i, x) := by
          rcases List.mem_cons.mp hmem with heq | hin
          · exact heq.symm
          · exact absurd hin hlater
        rw [getElem?_foldl_set_of_forall_ne hne, hentry]
        simp [hi]

theorem forall_mem_foldl_set
    {p : α → Prop} {entries : List (Nat × α)} {slots : List α}
    (hentries : ∀ entry ∈ entries, p entry.2) (hslots : ∀ x ∈ slots, p x) :
    ∀ x ∈ entries.foldl (fun slots (index, x) => slots.set index x) slots,
      p x := by
  induction entries generalizing slots with
  | nil => exact hslots
  | cons entry entries ih =>
      rw [List.foldl_cons]
      apply ih (fun other hother => hentries other (by simp [hother]))
      intro x hx
      rcases List.mem_or_eq_of_mem_set hx with hold | hnew
      · exact hslots x hold
      · rw [hnew]
        exact hentries entry (by simp)

/-! ## Blocks of one size -/

theorem length_flatten_of_forall_length
    {blocks : List (List α)} {size : Nat}
    (hsize : ∀ block ∈ blocks, block.length = size) :
    blocks.flatten.length = blocks.length * size := by
  induction blocks with
  | nil => simp
  | cons block blocks ih =>
      have hrest := ih (fun other hother => hsize other (by simp [hother]))
      simp only [List.flatten_cons, List.length_append, List.length_cons,
        hsize block (by simp), hrest, Nat.succ_mul]
      omega

theorem take_drop_flatten
    {blocks : List (List α)} {size index : Nat} {block : List α}
    (hsize : ∀ block ∈ blocks, block.length = size)
    (hblock : blocks[index]? = some block) :
    (blocks.flatten.drop (index * size)).take size = block := by
  induction blocks generalizing index with
  | nil => simp at hblock
  | cons first blocks ih =>
      have hfirst : first.length = size := hsize first (by simp)
      cases index with
      | zero =>
          have heq : first = block := by simpa using hblock
          simp [← heq, ← hfirst]
      | succ index =>
          have hdrop : (first ++ blocks.flatten).drop ((index + 1) * size) =
              blocks.flatten.drop (index * size) := by
            rw [Nat.succ_mul, Nat.add_comm, ← List.drop_drop,
              List.drop_left' hfirst]
          rw [List.flatten_cons, hdrop]
          exact ih (fun other hother => hsize other (by simp [hother]))
            (by simpa using hblock)

theorem eq_of_forall_take_drop
    {xs ys : List α} {count size : Nat}
    (hxs : xs.length = count * size) (hys : ys.length = count * size)
    (hblocks : ∀ index < count,
      (xs.drop (index * size)).take size =
        (ys.drop (index * size)).take size) :
    xs = ys := by
  apply List.ext_getElem?
  intro i
  by_cases hi : i < count * size
  · have hpos : 0 < size := by
      rcases Nat.eq_zero_or_pos size with hzero | hpos
      · simp [hzero] at hi
      · exact hpos
    have hindex : i / size < count := (Nat.div_lt_iff_lt_mul hpos).mpr hi
    have hmod : i % size < size := Nat.mod_lt i hpos
    have hsplit : i / size * size + i % size = i := Nat.div_add_mod' i size
    have hentry := congrArg (fun block => block[i % size]?)
      (hblocks (i / size) hindex)
    simpa [List.getElem?_take, List.getElem?_drop, hmod, hsplit] using hentry
  · rw [List.getElem?_eq_none (by omega), List.getElem?_eq_none (by omega)]

namespace Table

theorem row_eq_some_iff {table : Table} {position : Nat} {row : List UInt8} :
    table.row position = some row ↔
      position * table.rowSize < wordLimit ∧
        position * table.rowSize + table.rowSize ≤ table.bytes.length ∧
        (table.bytes.drop (position * table.rowSize)).take table.rowSize =
          row := by
  by_cases hstart : position * table.rowSize < wordLimit
  · by_cases hend :
        position * table.rowSize + table.rowSize ≤ table.bytes.length <;>
      simp [Table.row, rowBounds?, hstart, hend]
  · simp [Table.row, rowBounds?, hstart]

theorem length_of_row
    {table : Table} {position : Nat} {row : List UInt8}
    (hrow : table.row position = some row) : row.length = table.rowSize := by
  obtain ⟨_, hend, rfl⟩ := row_eq_some_iff.mp hrow
  rw [List.length_take, List.length_drop]
  omega

/-- Tables of as many whole rows are equal if their rows are. -/
theorem eq_of_forall_row
    {table other : Table} {count : Nat}
    (hsize : table.rowSize = other.rowSize)
    (htable : table.bytes.length = count * table.rowSize)
    (hother : other.bytes.length = count * other.rowSize)
    (hrows : ∀ position < count,
      ∃ row, table.row position = some row ∧ other.row position = some row) :
    table = other := by
  have hbytes : table.bytes = other.bytes := by
    refine eq_of_forall_take_drop htable (by rw [hother, hsize]) ?_
    intro position hposition
    obtain ⟨row, hrow, hrowOther⟩ := hrows position hposition
    rw [row_eq_some_iff] at hrow hrowOther
    rw [hrow.2.2, hsize, hrowOther.2.2]
  cases table
  cases other
  simp_all

section Place

variable {count size : Nat} {entries : List (Nat × List UInt8)}

@[simp] theorem rowSize_place :
    (Table.place count size entries).rowSize = size :=
  rfl

theorem forall_length_filled
    (hentries : ∀ entry ∈ entries, entry.2.length = size) :
    ∀ block ∈ entries.foldl (fun slots (index, row) => slots.set index row)
      (List.replicate count (List.replicate size 0)),
      block.length = size :=
  forall_mem_foldl_set hentries (by
    intro block hblock
    rw [List.eq_of_mem_replicate hblock, List.length_replicate])

theorem length_place
    (hentries : ∀ entry ∈ entries, entry.2.length = size) :
    (Table.place count size entries).bytes.length = count * size := by
  unfold Table.place
  rw [length_flatten_of_forall_length (forall_length_filled hentries),
    length_foldl_set, List.length_replicate]

theorem row_place
    (hentries : ∀ entry ∈ entries, entry.2.length = size)
    (hlimit : count * size < wordLimit)
    {position : Nat} {row : List UInt8} (hposition : position < count)
    (hmem : (position, row) ∈ entries)
    (hunique : ∀ entry ∈ entries, entry.1 = position → entry.2 = row) :
    (Table.place count size entries).row position = some row := by
  have hend : (position + 1) * size ≤ count * size :=
    Nat.mul_le_mul_right size hposition
  rw [Nat.succ_mul] at hend
  rw [row_eq_some_iff, length_place hentries, rowSize_place]
  refine ⟨by omega, hend, ?_⟩
  exact take_drop_flatten (forall_length_filled hentries)
    (getElem?_foldl_set_of_mem hmem hunique (by simpa using hposition))

end Place

end Table

end GarbledCircuits
