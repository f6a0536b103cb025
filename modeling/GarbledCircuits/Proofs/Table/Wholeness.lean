import GarbledCircuits.Proofs.Description.Table
import GarbledCircuits.Proofs.Garbled.Formats

/-!
# Tables of whole rows

Cutting bytes, cutting the bytes of a circuit and garbling a gate all make
tables of whole rows, so their rows cover their bytes.  A description says any
bytes and any row size, and is read without a check.  Of the tables with a
given layout, those of whole rows are the ones that are received as they were
sent.
-/

namespace GarbledCircuits

open Json (Reading)

theorem Gate.whole_of_garble
    {gate : Gate} {scheme : Scheme} {store : KeyStore} {table : Table}
    (hgarble : gate.garble scheme store = .ok table) : table.Whole :=
  (Gate.hasRows_of_garble hgarble).whole scheme.cipherSize_pos

namespace Tables

variable {tables : Tables} {rowCounts : List Nat} {rowSize : Nat}

theorem Laid.whole
    (hlaid : tables.Laid rowCounts rowSize) (hsize : 0 < rowSize) :
    ∀ table ∈ tables, table.Whole := by
  induction hlaid with
  | nil => exact nofun
  | cons htable _ ih =>
      exact List.forall_mem_cons.mpr ⟨htable.whole hsize, ih⟩

/-- A layout fixes row size and row count of every table, which for tables of
whole rows is all that there is to their size. -/
theorem laid_of_checkRows
    {index : Nat} (hlength : tables.length = rowCounts.length)
    (hrows : checkRows rowSize index tables rowCounts = .ok ())
    (hwhole : ∀ table ∈ tables, table.Whole) :
    tables.Laid rowCounts rowSize := by
  induction tables generalizing rowCounts index with
  | nil =>
      rw [List.length_nil, eq_comm, List.length_eq_zero_iff] at hlength
      exact hlength ▸ List.Forall₂.nil
  | cons table tables ih =>
      cases rowCounts with
      | nil => cases hlength
      | cons count rowCounts =>
          obtain ⟨htable, hothers⟩ := List.forall_mem_cons.mp hwhole
          rw [checkRows] at hrows
          split_ifs at hrows with hsize hcount
          have hfirst := htable.hasRows
          rw [not_not.mp hsize, not_not.mp hcount] at hfirst
          exact .cons hfirst (ih (Nat.succ.inj hlength) hrows hothers)

/-- Tables with the layout are received as they were sent exactly if they are
of whole rows and can be counted. -/
theorem ofBytes_toBytes_eq_ok_iff
    (hlayout : tables.checkLayout rowCounts rowSize = .ok ()) :
    ofBytes tables.toBytes rowCounts rowSize = .ok tables ↔
      0 < rowSize ∧ (∀ table ∈ tables, table.Whole) ∧
        tables.toBytes.length < wordLimit := by
  rw [checkLayout] at hlayout
  split_ifs at hlayout with hlength
  rw [ofBytes_eq_ok_iff]
  constructor
  · rintro ⟨hsize, hlaid, _, hlimit⟩
    exact ⟨hsize, hlaid.whole hsize, hlimit⟩
  · rintro ⟨hsize, hwhole, hlimit⟩
    exact ⟨hsize, laid_of_checkRows (not_not.mp hlength) hlayout hwhole, rfl,
      hlimit⟩

/-- Every table that is made of bytes, cut from them or garbled is of whole
rows, and no other is made of bytes.  A description gives whatever table it
describes, and only tables of whole rows are received as they were sent. -/
theorem whole_unless_described
    (table : Table) (tables : Tables) (rowCounts : List Nat) (rowSize : Nat) :
    (∀ bytes size, Table.ofBytes bytes size = .ok table ↔
      table = ⟨bytes, size⟩ ∧ table.Whole) ∧
    (∀ bytes, ofBytes bytes rowCounts rowSize = .ok tables →
      ∀ table ∈ tables, table.Whole) ∧
    (∀ (gate : Gate) scheme store,
      gate.garble scheme store = .ok table → table.Whole) ∧
    (table.rowSize < wordLimit →
      Table.ofReading (.ofJson table.toJson) = .ok table) ∧
    ((∀ table ∈ tables, table.rowSize < wordLimit) →
      ofReading (.ofJson tables.toJson) = .ok tables) ∧
    (table.Whole ↔ table.rowSize ≠ 0 ∧
      table.rows * table.rowSize = table.bytes.length) ∧
    (tables.checkLayout rowCounts rowSize = .ok () →
      (ofBytes tables.toBytes rowCounts rowSize = .ok tables ↔
        0 < rowSize ∧ (∀ table ∈ tables, table.Whole) ∧
          tables.toBytes.length < wordLimit)) := by
  refine ⟨?_, ?_, ?_, ?_, ?_, ?_, ?_⟩
  · intro bytes size
    exact Table.ofBytes_eq_ok_iff
  · intro bytes hbytes
    obtain ⟨hsize, hlaid, _⟩ := ofBytes_eq_ok_iff.mp hbytes
    exact hlaid.whole hsize
  · intro gate scheme store hgarble
    exact Gate.whole_of_garble hgarble
  · intro hsize
    exact Table.ofReading_toJson hsize
  · intro hsizes
    exact ofReading_toJson hsizes
  · exact Table.whole_iff
  · intro hlayout
    exact ofBytes_toBytes_eq_ok_iff hlayout

/-- Two bytes make one row, which is described and sent as it is. -/
theorem whole_unless_described_of_two_bytes :
    (⟨[1, 2], 2⟩ : Table).Whole ∧
      Table.ofReading (.ofJson (Table.toJson ⟨[1, 2], 2⟩)) =
        .ok ⟨[1, 2], 2⟩ ∧
      ofBytes (toBytes [⟨[1, 2], 2⟩]) [1] 2 = .ok [⟨[1, 2], 2⟩] := by
  obtain ⟨hbytes, _, _, hdescribed, _, _, hsent⟩ :=
    whole_unless_described ⟨[1, 2], 2⟩ [⟨[1, 2], 2⟩] [1] 2
  have hwhole : (⟨[1, 2], 2⟩ : Table).Whole := ((hbytes [1, 2] 2).mp rfl).2
  refine ⟨hwhole, hdescribed (by decide), ?_⟩
  refine (hsent rfl).mpr ⟨by decide, ?_, by decide⟩
  exact List.forall_mem_singleton.mpr hwhole

/-- A table of rows without bytes, which cannot be counted, and a table with a
part of a row that has the layout of its one whole row and is not received as
it was sent. -/
theorem exists_described_not_whole :
    Decoder.ofText Table.ofReading
        "\x7b\"bytes\":[1,2,3],\"row_size\":0\x7d" = .ok ⟨[1, 2, 3], 0⟩ ∧
      ¬ (⟨[1, 2, 3], 0⟩ : Table).Whole ∧
      (⟨[1, 2, 3], 0⟩ : Table).unsized = true ∧
      Decoder.ofText Tables.ofReading
        "[\x7b\"bytes\":[1,2,3],\"row_size\":2\x7d]" =
          .ok [⟨[1, 2, 3], 2⟩] ∧
      ¬ (⟨[1, 2, 3], 2⟩ : Table).Whole ∧
      checkLayout [⟨[1, 2, 3], 2⟩] [1] 2 = .ok () ∧
      ofBytes (toBytes [⟨[1, 2, 3], 2⟩]) [1] 2 = .error (.length 2 3) := by
  refine ⟨by decide +kernel, ?_, rfl, by decide +kernel, ?_, rfl, rfl⟩
  · intro htable
    exact absurd htable.rowSize_pos (by decide)
  · intro htable
    exact absurd htable.rowSize_dvd (by decide)

end Tables

end GarbledCircuits
