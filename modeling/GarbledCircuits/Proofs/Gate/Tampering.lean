import GarbledCircuits.Proofs.Gate.Opening
import GarbledCircuits.Proofs.Gate.Slots

/-!
# Tampering with a garbled table

A garbled table is the only one of its shape that verifies to the output pair
of its gate.  Where the bytes of a table were changed in nothing but tags,
verification stops at the first plain row whose slot was changed.
-/

namespace GarbledCircuits

open Outcome

/-- The plain rows in whose slots two tables differ. -/
def Gate.damagedRows (gate : Gate) (inputs : List WireKeys)
    (table changed : Table) : Set Nat :=
  {row | row < 2 ^ gate.arity ∧
    changed.row (gate.slot inputs row) ≠ table.row (gate.slot inputs row)}

theorem GateWiring.verifyRow_of_other_tag
    {scheme : Scheme} (hsize : scheme.cipherSize = 32) {wiring : GateWiring}
    {plain : Gate} {table changed : Table} {pairs : List KeyPair}
    (hpos : 0 < wiring.arity) (hlength : pairs.length = wiring.arity)
    (hcapacity : wiring.arity ≤ maxArity scheme.tweakSize)
    (hrowSize : changed.rowSize = table.rowSize) {row slot : Nat}
    {key : WireKey} (hholds : wiring.RowHolds scheme table pairs row key)
    (hslot : position (signalBits
      (selectKeys pairs (rowBits row wiring.arity))) = slot)
    (hpayload : (changed.row slot).map withoutTag =
      (table.row slot).map withoutTag)
    (hne : changed.row slot ≠ table.row slot) (met : MetKeys) :
    wiring.verifyRow plain scheme changed pairs met row =
      .error (.undecryptableRow wiring.number row) := by
  subst hslot
  obtain ⟨session, hsession⟩ := exists_rowSession
    (length_selectKeys_rowBits hlength row) hpos hcapacity wiring.number
    (signalBits (selectKeys pairs (rowBits row wiring.arity)))
  have hopen := (decrypt_toBytes_eq_ok_iff hsize hsession).mpr
    (rfl : sealedRow scheme wiring.number _ key = _)
  obtain ⟨bytes, hbytes, hbytesLength, hcut, hother⟩ :=
    Table.exists_row_of_other_tag hholds hrowSize hpayload hne
  have hfail :=
    Session.decrypt_of_other_tag hopen hbytesLength hcut hother
  simp only [verifyRow, GateError.ofCipher, hsession, mapError_ok, ok_bind,
    hbytes, hfail]
  rfl

namespace Gate

variable {gate : Gate} {scheme : Scheme} {table changed : Table}
  {inputs : List WireKeys} {output : KeyPair}

/-- Tables with the same rows in all slots are the same. -/
theorem nonempty_damagedRows
    (hlength : inputs.length = gate.arity) {size : Nat}
    (htable : table.HasRows size (2 ^ gate.arity))
    (hchanged : changed.HasRows size (2 ^ gate.arity))
    (hlimit : 2 ^ gate.arity * size < wordLimit) (hne : changed ≠ table) :
    (gate.damagedRows inputs table changed).Nonempty := by
  -- Every slot belongs to a plain row, so no row of the bytes is left out.
  by_contra hnone
  apply hne
  have hcut := hchanged.length_bytes
  have hcutTable := htable.length_bytes
  rw [← hchanged.rowSize] at hcut
  rw [← htable.rowSize] at hcutTable
  apply Table.eq_of_forall_row
    (hchanged.rowSize.trans htable.rowSize.symm) hcut hcutTable
  intro index hindex
  obtain ⟨row, hrow, hslot⟩ := (bijOn_slot hlength).surjOn hindex
  obtain ⟨bytes, hbytes, _⟩ := htable.exists_row hlimit hindex
  have hsame : changed.row index = table.row index := by
    by_contra hother
    apply hnone
    exact ⟨row, hrow, by simpa [hslot] using hother⟩
  exact ⟨bytes, hsame.trans hbytes, hbytes⟩

/-- The rows of a table that was changed in tags fail at the first slot with
a change. -/
theorem verifyRows_failsFirst
    (hsize : scheme.cipherSize = 32) (hlength : inputs.length = gate.arity)
    (hkeys : ∀ input ∈ inputs,
      input.pair.Opposed ∧ input.signalBit = input.pair.signalBit)
    (hrealized : gate.RealizedBy scheme table (inputs.map WireKeys.pair)
      output)
    (hrowSize : changed.rowSize = table.rowSize)
    (hpayload : ∀ index, (changed.row index).map withoutTag =
      (table.row index).map withoutTag) :
    FailsFirst
      ((List.range gate.rowCount).flatMap fun row =>
        if changed.row (gate.slot inputs row) ≠
            table.row (gate.slot inputs row) then
          [.undecryptableRow gate.number row]
        else [])
      ((List.range gate.rowCount).foldlM
        (gate.toGateWiring.verifyRow gate scheme changed
          (inputs.map WireKeys.pair)) {}) := by
  have hpos := gate.arity_pos
  have hpairs : (inputs.map WireKeys.pair).length = gate.arity := by
    rw [List.length_map, hlength]
  apply FailsFirst.foldlM
    (fun index (met : MetKeys) => met.Agrees gate output index)
    MetKeys.agrees_empty
  intro index row met hrow hmet
  obtain ⟨hindex, rfl⟩ := List.getElem?_eq_some_iff.mp hrow
  rw [List.getElem_range]
  rw [List.length_range] at hindex
  have hholds := encodes_iff_forall_row.mp hrealized.encodes index hindex
  have hslot : position (signalBits (selectKeys (inputs.map WireKeys.pair)
      (rowBits index gate.arity))) = gate.slot inputs index := by
    rw [signalBits_selectKeys_eq_masked hkeys, slot, maskedBits]
  by_cases hdamaged : changed.row (gate.slot inputs index) ≠
      table.row (gate.slot inputs index)
  · have hfail : gate.toGateWiring.verifyRow gate scheme changed
        (inputs.map WireKeys.pair) met index =
          .error (.undecryptableRow gate.number index) :=
      GateWiring.verifyRow_of_other_tag hsize hpos hpairs hrealized.capacity
        hrowSize hholds hslot (hpayload _) hdamaged met
    rw [if_pos hdamaged, hfail]
    refine ⟨FailsFirst.error _ [], ?_⟩
    intro next hnext
    cases hnext
  · -- The slot is as garbling left it, so its row still holds its key.
    have hheld : gate.toGateWiring.RowHolds scheme changed
        (inputs.map WireKeys.pair) index
          (output.select (gate.truthBit index)) := by
      unfold GateWiring.RowHolds at hholds ⊢
      rw [hslot] at hholds ⊢
      rw [not_not.mp hdamaged, hholds]
    obtain ⟨next, hnext, hagrees⟩ :=
      GateWiring.exists_verifyRow_of_rowHolds hsize hpos hpairs
        hrealized.capacity hmet hheld
    rw [if_neg hdamaged, hnext]
    refine ⟨FailsFirst.ok next, ?_⟩
    intro other hother
    cases hother
    exact hagrees

theorem verify_of_other_tags
    (hsize : scheme.cipherSize = 32) (hlength : inputs.length = gate.arity)
    (hkeys : ∀ input ∈ inputs,
      input.pair.Opposed ∧ input.signalBit = input.pair.signalBit)
    (hrealized : gate.RealizedBy scheme table (inputs.map WireKeys.pair)
      output)
    (hrows : changed.rows = table.rows)
    (hrowSize : changed.rowSize = table.rowSize)
    (hpayload : ∀ index, (changed.row index).map withoutTag =
      (table.row index).map withoutTag)
    {row : Nat} (hrow : IsLeast (gate.damagedRows inputs table changed) row) :
    gate.toGateWiring.verify gate scheme changed
        (inputs.map WireKeys.pair) =
      .error (.undecryptableRow gate.number row) := by
  obtain ⟨⟨hlt, hdamaged⟩, hleast⟩ := hrow
  have hpairs : (inputs.map WireKeys.pair).length = gate.arity := by
    rw [List.length_map, hlength]
  have hshape : checkShape gate.number changed gate.rowCount
      scheme.cipherSize = .ok () :=
    checkShape_eq_ok_iff.mpr
      ⟨hrows.trans hrealized.rows, hrowSize.trans hrealized.rowSize⟩
  have hfirst : (List.range gate.rowCount).find? (fun row => decide
      (changed.row (gate.slot inputs row) ≠
        table.row (gate.slot inputs row))) = some row := by
    rw [List.find?_range_eq_some]
    refine ⟨decide_eq_true hdamaged, ?_, ?_⟩
    · rwa [List.mem_range, rowCount_eq]
    · intro earlier hearlier
      rw [Bool.not_eq_true', decide_eq_false_iff_not]
      intro hother
      exact absurd (hleast ⟨hearlier.trans hlt, hother⟩) hearlier.not_ge
  have hrun := (verifyRows_failsFirst hsize hlength hkeys hrealized hrowSize
    hpayload (.undecryptableRow gate.number row)).mpr (by
      rw [head?_flatMap_ite, hfirst, Option.map_some])
  rw [GateWiring.verify_eq_foldlM hpairs hrealized.inputs_opposed
    hrealized.capacity hshape, hrun]
  rfl

/-- Honest input pairs verify the table of a garbled gate to the honest output
pair, and no other table of the same shape.  If tags alone were changed, the
first plain row with a change in its slot accuses the garbler. -/
theorem tampered_table_is_noticed
    (hsize : scheme.cipherSize = 32) {store : KeyStore}
    (hstore : store.Built) (hgarble : gate.garble scheme store = .ok table)
    {bytes : List UInt8} {size : Nat}
    (hbytes : Table.ofBytes bytes size = .ok changed)
    (hrows : changed.rows = table.rows)
    (hrowSize : changed.rowSize = table.rowSize) (hne : changed ≠ table) :
    ∃ inputs output, gate.inputs.mapM store.get = .ok inputs ∧
      store.pair gate.firstOutput = .ok output ∧
      gate.toGateWiring.verify gate scheme table
          (inputs.map WireKeys.pair) = .ok output ∧
      gate.toGateWiring.verify gate scheme changed
          (inputs.map WireKeys.pair) ≠ .ok output ∧
      ((∀ index, (changed.row index).map withoutTag =
          (table.row index).map withoutTag) →
        ∃ row, IsLeast (gate.damagedRows inputs table changed) row ∧
          gate.toGateWiring.verify gate scheme changed
              (inputs.map WireKeys.pair) =
            .error (.undecryptableRow gate.number row) ∧
          (GateError.undecryptableRow gate.number row).fault =
            .cheatAttempt) := by
  obtain ⟨inputs, output, hinputs, houtput, hlength, hkeys, hrealized⟩ :=
    exists_realizedBy_of_garble hsize hstore.wellFormed hgarble
  have hpairs : (inputs.map WireKeys.pair).length = gate.arity := by
    rw [List.length_map, hlength]
  have htable := hasRows_of_garble hgarble
  obtain ⟨_, hlimit, _⟩ :=
    (garble_eq_ok_iff hsize hstore.wellFormed).mp hgarble
  have hchanged : changed.HasRows scheme.cipherSize gate.rowCount := by
    have hwhole := (Table.ofBytes_eq_ok_iff.mp hbytes).2.hasRows
    rwa [hrows, hrowSize, hrealized.rows, hrealized.rowSize] at hwhole
  refine ⟨inputs, output, hinputs, houtput,
    (GateWiring.verify_eq_ok_iff hsize).mpr ⟨rfl, hpairs, hrealized⟩, ?_, ?_⟩
  · intro hverify
    obtain ⟨_, _, hother⟩ := (GateWiring.verify_eq_ok_iff hsize).mp hverify
    exact hne (hother.encodes.table_eq hrealized.encodes
      hrealized.inputs_opposed hpairs hchanged.rowSize hchanged.length_bytes
      htable.rowSize htable.length_bytes)
  · intro hpayload
    rw [rowCount_eq] at htable hchanged hlimit
    have hrow := isLeast_csInf <|
      nonempty_damagedRows hlength htable hchanged hlimit hne
    exact ⟨_, hrow, verify_of_other_tags hsize hlength hkeys hrealized hrows
      hrowSize hpayload hrow, rfl⟩

/-! ## A transparent inverter with a flipped bit in a tag -/

/-- The mask of the input is set, so the plain row 0 is in slot 1. -/
def inverterStore : KeyStore :=
  ⟨((∅ : WireMap WireKeys).insert 0 ⟨⟨⟨1⟩, ⟨0⟩⟩, true⟩).insert 1
    ⟨.unit, false⟩⟩

def inverterTable : Table :=
  ⟨List.replicate 47 0 ++ 1 :: List.replicate 16 0, 32⟩

theorem built_inverterStore : inverterStore.Built :=
  (KeyStore.Built.empty.insert (by decide) rfl).insert (by decide)
    (by decide +kernel)

theorem withoutTag_row_flip_inverterTable (index : Nat) :
    ((inverterTable.flip 60 1).row index).map withoutTag =
      (inverterTable.row index).map withoutTag := by
  by_cases hindex : index < 2
  · revert hindex index
    decide +kernel
  · have htable : inverterTable.HasRows 32 2 := ⟨rfl, rfl⟩
    have hflipped : (inverterTable.flip 60 1).HasRows 32 2 := ⟨rfl, rfl⟩
    rw [htable.row_eq_none (by decide) (not_lt.mp hindex),
      hflipped.row_eq_none (by decide) (not_lt.mp hindex)]

theorem tampered_table_is_noticed_inverter :
    Scheme.transparent.cipherSize = 32 ∧ inverterStore.Built ∧
      inverter.garble .transparent inverterStore = .ok inverterTable ∧
      Table.ofBytes (inverterTable.flip 60 1).bytes 32 =
        .ok (inverterTable.flip 60 1) ∧
      inverterTable.flip 60 1 ≠ inverterTable ∧
      (∀ index, ((inverterTable.flip 60 1).row index).map withoutTag =
        (inverterTable.row index).map withoutTag) ∧
      ∃ row, IsLeast (inverter.damagedRows [⟨⟨⟨1⟩, ⟨0⟩⟩, true⟩] inverterTable
          (inverterTable.flip 60 1)) row ∧
        inverter.toGateWiring.verify inverter .transparent
            (inverterTable.flip 60 1) [⟨⟨1⟩, ⟨0⟩⟩] =
          .error (.undecryptableRow 0 row) := by
  have hgarble : inverter.garble .transparent inverterStore =
      .ok inverterTable := by decide +kernel
  have hbytes : Table.ofBytes (inverterTable.flip 60 1).bytes 32 =
      .ok (inverterTable.flip 60 1) := by decide +kernel
  have hne : inverterTable.flip 60 1 ≠ inverterTable := by decide +kernel
  obtain ⟨inputs, _, hinputs, _, _, _, htags⟩ :=
    tampered_table_is_noticed (rfl : Scheme.transparent.cipherSize = 32)
      built_inverterStore hgarble hbytes (by decide +kernel) rfl hne
  have hget : inverter.inputs.mapM inverterStore.get =
      .ok [⟨⟨⟨1⟩, ⟨0⟩⟩, true⟩] := by decide +kernel
  rw [hget, Except.ok.injEq] at hinputs
  subst hinputs
  obtain ⟨row, hrow, hverify, _⟩ := htags withoutTag_row_flip_inverterTable
  exact ⟨rfl, built_inverterStore, hgarble, hbytes, hne,
    withoutTag_row_flip_inverterTable, row, hrow, hverify⟩

end Gate

end GarbledCircuits
