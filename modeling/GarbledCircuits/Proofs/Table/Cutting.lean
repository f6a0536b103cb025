import GarbledCircuits.Proofs.Outcome
import GarbledCircuits.Proofs.Table.Rows
import GarbledCircuits.Table.Translation
import Mathlib.Data.List.SplitLengths

/-!
# Cutting bytes into tables

Tables of known row counts follow one another without headers.  Bytes of the
right length are cut into such tables in exactly one way, so cutting and
joining are inverse to each other.  Bits and the bytes zero and one correspond
in the same way.
-/

namespace GarbledCircuits

open Outcome

namespace Table

/-- A table of exactly so many rows of one size. -/
structure HasRows (table : Table) (size count : Nat) : Prop where
  rowSize : table.rowSize = size
  length_bytes : table.bytes.length = count * size

/-- The bytes are rows of the row size, with nothing left over. -/
structure Whole (table : Table) : Prop where
  rowSize_pos : 0 < table.rowSize
  rowSize_dvd : table.rowSize ∣ table.bytes.length

variable {table : Table} {bytes : List UInt8} {size count : Nat}

theorem HasRows.rows
    (htable : table.HasRows size count) (hsize : 0 < size) :
    table.rows = count := by
  rw [Table.rows, htable.length_bytes, htable.rowSize,
    Nat.mul_div_cancel _ hsize]

theorem HasRows.row_eq_some
    (htable : table.HasRows size count) (hlimit : count * size < wordLimit)
    {position : Nat} (hposition : position < count) :
    table.row position =
      some ((table.bytes.drop (position * size)).take size) := by
  have hend : (position + 1) * size ≤ count * size :=
    Nat.mul_le_mul_right size hposition
  rw [Nat.succ_mul] at hend
  rw [row_eq_some_iff, htable.rowSize, htable.length_bytes]
  exact ⟨by omega, hend, rfl⟩

theorem HasRows.exists_row
    (htable : table.HasRows size count) (hlimit : count * size < wordLimit)
    {position : Nat} (hposition : position < count) :
    ∃ row, table.row position = some row ∧ row.length = size := by
  have hrow := htable.row_eq_some hlimit hposition
  exact ⟨_, hrow, (length_of_row hrow).trans htable.rowSize⟩

theorem HasRows.row_eq_none
    (htable : table.HasRows size count) (hsize : 0 < size) {position : Nat}
    (hposition : count ≤ position) : table.row position = none := by
  rw [Option.eq_none_iff_forall_ne_some]
  intro row hrow
  obtain ⟨_, hend, _⟩ := row_eq_some_iff.mp hrow
  have hstart : count * size ≤ position * size :=
    Nat.mul_le_mul_right size hposition
  rw [htable.rowSize, htable.length_bytes] at hend
  omega

theorem HasRows.whole
    (htable : table.HasRows size count) (hsize : 0 < size) :
    table.Whole := by
  refine ⟨htable.rowSize ▸ hsize, ?_⟩
  rw [htable.rowSize, htable.length_bytes]
  exact Dvd.intro_left count rfl

theorem Whole.hasRows (htable : table.Whole) :
    table.HasRows table.rowSize table.rows :=
  ⟨rfl, (Nat.div_mul_cancel htable.rowSize_dvd).symm⟩

/-- So the rows of a checked table can be counted. -/
theorem Whole.unsized_eq_false (htable : table.Whole) :
    table.unsized = false := by
  simp [unsized, htable.rowSize_pos.ne']

theorem whole_iff :
    table.Whole ↔ table.rowSize ≠ 0 ∧
      table.rows * table.rowSize = table.bytes.length := by
  constructor
  · intro htable
    exact ⟨htable.rowSize_pos.ne', htable.hasRows.length_bytes.symm⟩
  · rintro ⟨hsize, hrows⟩
    exact ⟨Nat.pos_of_ne_zero hsize, Dvd.intro_left table.rows hrows⟩

theorem ofBytes_eq_ok_iff :
    ofBytes bytes size = .ok table ↔ table = ⟨bytes, size⟩ ∧ table.Whole := by
  by_cases hsize : size = 0
  · rw [ofBytes, if_pos hsize]
    refine ⟨nofun, ?_⟩
    rintro ⟨rfl, htable⟩
    exact absurd hsize htable.rowSize_pos.ne'
  · by_cases hrows : bytes.length % size = 0
    · rw [ofBytes, if_neg hsize, if_neg (not_not.mpr hrows), Except.ok.injEq,
        eq_comm, iff_self_and]
      rintro rfl
      exact ⟨Nat.pos_of_ne_zero hsize, Nat.dvd_of_mod_eq_zero hrows⟩
    · rw [ofBytes, if_neg hsize, if_pos hrows]
      refine ⟨nofun, ?_⟩
      rintro ⟨rfl, htable⟩
      exact absurd (Nat.mod_eq_zero_of_dvd htable.rowSize_dvd) hrows

end Table

namespace Tables

/-- The count of bytes in tables of the given row counts. -/
def flatLength (rowCounts : List Nat) (rowSize : Nat) : Nat :=
  (rowCounts.map (· * rowSize)).sum

/-- There is one table of the right size for each row count. -/
def Laid (tables : Tables) (rowCounts : List Nat) (rowSize : Nat) : Prop :=
  List.Forall₂ (fun table count => table.HasRows rowSize count) tables
    rowCounts

variable {rowCounts : List Nat} {rowSize : Nat} {bytes : List UInt8}
  {tables : Tables}

/-! ## Sizes -/

theorem checkedMul?_eq_some_iff {a b product : Nat} :
    checkedMul? a b = some product ↔ a * b = product ∧ product < wordLimit := by
  unfold checkedMul?
  split_ifs <;> simp <;> omega

theorem checkedAdd?_eq_some_iff {a b sum : Nat} :
    checkedAdd? a b = some sum ↔ a + b = sum ∧ sum < wordLimit := by
  unfold checkedAdd?
  split_ifs <;> simp <;> omega

theorem flatLength_cons (count : Nat) (rowCounts : List Nat) :
    flatLength (count :: rowCounts) rowSize =
      count * rowSize + flatLength rowCounts rowSize := by
  simp [flatLength]

/-- The checked sum is the sum where that is a 64-bit word. -/
theorem flatSize?_eq_some_iff {total : Nat} :
    flatSize? rowCounts rowSize = some total ↔
      flatLength rowCounts rowSize = total ∧ total < wordLimit := by
  -- Partial sums only grow, so none overflows if the whole sum does not.
  have hfold : ∀ (counts : List Nat) (start : Nat), start < wordLimit →
      (counts.foldlM (fun total count => do
          checkedAdd? total (← checkedMul? count rowSize)) start =
            some total ↔
        start + flatLength counts rowSize = total ∧ total < wordLimit) := by
    intro counts
    induction counts with
    | nil =>
        intro start hstart
        simp [flatLength]
        omega
    | cons count rest ih =>
        intro start hstart
        simp only [List.foldlM_cons, Option.bind_eq_bind,
          Option.bind_eq_some_iff, checkedMul?_eq_some_iff,
          checkedAdd?_eq_some_iff, flatLength_cons]
        constructor
        · rintro ⟨next, ⟨_, ⟨rfl, _⟩, rfl, hnext⟩, hrun⟩
          have htotal := (ih _ hnext).mp hrun
          omega
        · rintro ⟨hsum, htotal⟩
          have hnext : start + count * rowSize < wordLimit := by omega
          exact ⟨_, ⟨_, ⟨rfl, by omega⟩, rfl, hnext⟩,
            (ih _ hnext).mpr (by omega)⟩
  have hzero : 0 < wordLimit := by decide
  have hstart := hfold rowCounts 0 hzero
  rwa [Nat.zero_add] at hstart

theorem Laid.length_toBytes (hlaid : tables.Laid rowCounts rowSize) :
    tables.toBytes.length = flatLength rowCounts rowSize := by
  induction hlaid with
  | nil => rfl
  | cons htable _ ih =>
      rw [toBytes, List.flatMap_cons, List.length_append, htable.length_bytes,
        flatLength_cons]
      exact congrArg _ ih

/-! ## Cutting and joining -/

theorem cut_eq_map_splitLengths :
    cut rowSize rowCounts bytes =
      ((rowCounts.map (· * rowSize)).splitLengths bytes).map
        fun own => ⟨own, rowSize⟩ := by
  induction rowCounts generalizing bytes with
  | nil => rfl
  | cons count rest ih =>
      rw [cut, ih, List.map_cons, List.splitLengths_cons, List.map_cons]

theorem toBytes_cut (hlength : bytes.length = flatLength rowCounts rowSize) :
    toBytes (cut rowSize rowCounts bytes) = bytes := by
  rw [cut_eq_map_splitLengths, toBytes, List.flatMap_map]
  simp only [List.flatMap_id']
  exact List.flatten_splitLengths _ _ hlength.le

theorem laid_cut (hlength : bytes.length = flatLength rowCounts rowSize) :
    Laid (cut rowSize rowCounts bytes) rowCounts rowSize := by
  have hlengths :=
    List.map_splitLengths_length bytes (rowCounts.map (· * rowSize)) hlength.ge
  rw [← List.forall₂_eq_eq_eq, List.forall₂_map_left_iff,
    List.forall₂_map_right_iff] at hlengths
  rw [cut_eq_map_splitLengths, Laid, List.forall₂_map_left_iff]
  exact hlengths.imp fun _ _ hown => ⟨rfl, hown⟩

theorem Laid.cut_toBytes (hlaid : tables.Laid rowCounts rowSize) :
    cut rowSize rowCounts tables.toBytes = tables := by
  induction hlaid with
  | nil => rfl
  | @cons table count rest counts htable _ ih =>
      have hfirst : (⟨table.bytes, rowSize⟩ : Table) = table := by
        rw [← htable.rowSize]
      rw [cut, toBytes, List.flatMap_cons, List.take_left' htable.length_bytes,
        List.drop_left' htable.length_bytes, hfirst]
      exact congrArg (table :: ·) ih

theorem checkLength_eq_ok_iff :
    checkLength bytes rowCounts rowSize = .ok () ↔
      0 < rowSize ∧ bytes.length = flatLength rowCounts rowSize ∧
        bytes.length < wordLimit := by
  have hfits : flatSize? rowCounts rowSize = some bytes.length ↔
      bytes.length = flatLength rowCounts rowSize ∧
        bytes.length < wordLimit := by
    rw [flatSize?_eq_some_iff, eq_comm]
  rw [Nat.pos_iff_ne_zero, ← hfits]
  simp only [checkLength]
  split_ifs with hsize hexpected
  · simp [hsize]
  · simp [hexpected]
  · simp [hsize, not_not.mp hexpected]

/-- Bytes are cut into tables exactly if the tables have the right sizes and
join to these bytes. -/
theorem ofBytes_eq_ok_iff :
    ofBytes bytes rowCounts rowSize = .ok tables ↔
      0 < rowSize ∧ tables.Laid rowCounts rowSize ∧ tables.toBytes = bytes ∧
        bytes.length < wordLimit := by
  simp only [ofBytes, bind_eq_ok_iff, exists_unit_iff, checkLength_eq_ok_iff,
    pure_eq_ok_iff]
  constructor
  · rintro ⟨⟨hsize, hlength, hlimit⟩, rfl⟩
    exact ⟨hsize, laid_cut hlength, toBytes_cut hlength, hlimit⟩
  · rintro ⟨hsize, hlaid, rfl, hlimit⟩
    exact ⟨⟨hsize, hlaid.length_toBytes, hlimit⟩, hlaid.cut_toBytes⟩

theorem exists_ofBytes_iff
    (hsize : 0 < rowSize) (hlimit : bytes.length < wordLimit) :
    (∃ tables, ofBytes bytes rowCounts rowSize = .ok tables) ↔
      bytes.length = flatLength rowCounts rowSize := by
  simp only [ofBytes_eq_ok_iff]
  constructor
  · rintro ⟨tables, _, hlaid, rfl, _⟩
    exact hlaid.length_toBytes
  · intro hlength
    exact ⟨_, hsize, laid_cut hlength, toBytes_cut hlength, hlimit⟩

theorem Laid.checkLayout
    (hlaid : tables.Laid rowCounts rowSize) (hsize : 0 < rowSize) :
    tables.checkLayout rowCounts rowSize = .ok () := by
  have hrows : ∀ index, checkRows rowSize index tables rowCounts = .ok () := by
    induction hlaid with
    | nil =>
        intro index
        rfl
    | cons htable _ ih =>
        intro index
        rw [checkRows, if_neg (not_not.mpr htable.rowSize),
          if_neg (not_not.mpr (htable.rows hsize)), ih]
  rw [Tables.checkLayout, if_neg (not_not.mpr (List.Forall₂.length_eq hlaid)),
    hrows]

theorem rowSize_eq_of_checkRows
    {index : Nat} (hlength : tables.length = rowCounts.length)
    (hrows : checkRows rowSize index tables rowCounts = .ok ()) :
    ∀ table ∈ tables, table.rowSize = rowSize := by
  induction tables generalizing rowCounts index with
  | nil => exact nofun
  | cons table tables ih =>
      cases rowCounts with
      | nil => cases hlength
      | cons count rowCounts =>
          rw [checkRows] at hrows
          split_ifs at hrows with hsize hcount
          exact List.forall_mem_cons.mpr
            ⟨not_not.mp hsize, ih (Nat.succ.inj hlength) hrows⟩

theorem rowSize_eq_of_checkLayout
    (hlayout : tables.checkLayout rowCounts rowSize = .ok ()) :
    ∀ table ∈ tables, table.rowSize = rowSize := by
  rw [Tables.checkLayout] at hlayout
  split_ifs at hlayout with hlength
  exact rowSize_eq_of_checkRows (not_not.mp hlength) hlayout

end Tables

/-! ## Translation tables -/

namespace Translation

theorem bitsFrom_eq_ok_iff
    {index : Nat} {bytes : List UInt8} {bits : List Bool} :
    bitsFrom index bytes = .ok bits ↔ bits.map Bool.toUInt8 = bytes := by
  induction bytes generalizing index bits with
  | nil => simp [bitsFrom, eq_comm]
  | cons byte rest ih =>
      have hcons : ∀ first : Bool,
          (first :: ·) <$> bitsFrom (index + 1) rest = .ok bits ↔
            ∃ others, others.map Bool.toUInt8 = rest ∧
              first :: others = bits := by
        intro first
        simp only [← @ih (index + 1)]
        exact map_eq_ok_iff
      rw [bitsFrom, List.map_eq_cons_iff]
      split_ifs with hzero hone
      · rw [hcons, hzero]
        constructor
        · rintro ⟨others, hothers, rfl⟩
          exact ⟨false, others, rfl, rfl, hothers⟩
        · rintro ⟨first, others, rfl, hfirst, hothers⟩
          cases first with
          | false => exact ⟨others, hothers, rfl⟩
          | true => exact absurd hfirst (by decide)
      · rw [hcons, hone]
        constructor
        · rintro ⟨others, hothers, rfl⟩
          exact ⟨true, others, rfl, rfl, hothers⟩
        · rintro ⟨first, others, rfl, hfirst, hothers⟩
          cases first with
          | false => exact absurd hfirst (by decide)
          | true => exact ⟨others, hothers, rfl⟩
      · constructor
        · rintro ⟨⟩
        · rintro ⟨first, others, rfl, rfl, _⟩
          cases first with
          | false => exact absurd rfl hzero
          | true => exact absurd rfl hone

/-- Bytes are read as the one translation table that is written so. -/
theorem ofBytes_eq_ok_iff {bytes : List UInt8} {translation : Translation} :
    ofBytes bytes = .ok translation ↔ translation.toBytes = bytes := by
  have hmk : ofBytes bytes = .ok translation ↔
      ∃ bits, bitsFrom 0 bytes = .ok bits ∧ mk bits = translation :=
    map_eq_ok_iff
  rw [hmk]
  constructor
  · rintro ⟨bits, hbits, rfl⟩
    exact bitsFrom_eq_ok_iff.mp hbits
  · intro hbytes
    exact ⟨translation.bits, bitsFrom_eq_ok_iff.mpr hbytes, rfl⟩

theorem exists_ofBytes_iff {bytes : List UInt8} :
    (∃ translation, ofBytes bytes = .ok translation) ↔
      ∀ byte ∈ bytes, byte = 0 ∨ byte = 1 := by
  simp only [ofBytes_eq_ok_iff, toBytes]
  constructor
  · rintro ⟨translation, rfl⟩ byte hbyte
    obtain ⟨bit, _, rfl⟩ := List.mem_map.mp hbyte
    cases bit with
    | false => exact Or.inl rfl
    | true => exact Or.inr rfl
  · intro hbytes
    have hself : ∀ byte ∈ bytes,
        (Bool.toUInt8 ∘ (· == 1)) byte = id byte := by
      intro byte hbyte
      rcases hbytes byte hbyte with rfl | rfl <;> rfl
    refine ⟨⟨bytes.map (· == 1)⟩, ?_⟩
    rw [List.map_map, List.map_congr_left hself, List.map_id]

end Translation

end GarbledCircuits
