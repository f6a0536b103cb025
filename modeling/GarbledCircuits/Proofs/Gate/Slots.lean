import GarbledCircuits.Proofs.Gate.Garbling
import GarbledCircuits.Proofs.Gate.Masking

/-!
# The slots of a garbled table

A plain row is stored at the position that its bits spell under the mask of
the input signal bits.  The mask permutes the positions, so garbling writes
every slot of a table once, with the sealing of one output key, and evaluation
finds in the slot of its keys the key for the computed bit.
-/

namespace GarbledCircuits.Gate

open Outcome

variable {gate : Gate} {scheme : Scheme} {store : KeyStore} {table : Table}
  {inputs : List WireKeys} {output : KeyPair}

/-- Where the sealing of a plain row is stored. -/
def slot (gate : Gate) (inputs : List WireKeys) (row : Nat) : Nat :=
  position (gate.maskedBits inputs row)

/-! ## Rows and slots -/

theorem slot_eq_maskedRow (hlength : inputs.length = gate.arity) (row : Nat) :
    gate.slot inputs row = maskedRow (inputs.map WireKeys.signalBit) row := by
  rw [slot, maskedBits, maskedRow, List.length_map, hlength]

/-- Under any mask, rows and slots correspond one to one. -/
theorem bijOn_slot (hlength : inputs.length = gate.arity) :
    Set.BijOn (gate.slot inputs) (Set.Iio (2 ^ gate.arity))
      (Set.Iio (2 ^ gate.arity)) := by
  have harity : gate.arity < 64 := gate.arity_lt
  have hmask : (inputs.map WireKeys.signalBit).length = gate.arity := by
    rw [List.length_map, hlength]
  have hbij := bijOn_maskedRow (hmask.trans_le harity.le)
  rw [hmask] at hbij
  apply hbij.congr
  intro row _
  exact (slot_eq_maskedRow hlength row).symm

/-! ## The contents of a slot -/

/-- The session of a row seals a key to the bytes that the row holds. -/
theorem exists_session_of_rowHolds
    (hsize : scheme.cipherSize = 32) {wiring : GateWiring}
    {pairs : List KeyPair} {row : Nat} {key : WireKey}
    (hpos : 0 < wiring.arity) (hlength : pairs.length = wiring.arity)
    (hcapacity : wiring.arity ≤ maxArity scheme.tweakSize)
    (hholds : wiring.RowHolds scheme table pairs row key) :
    ∃ session bytes,
      Session.keyed scheme (selectKeys pairs (rowBits row wiring.arity))
          (tweak wiring.number (signalBits
            (selectKeys pairs (rowBits row wiring.arity)))
            scheme.tweakSize) = .ok session ∧
        session.encrypt key.toBytes = .ok bytes ∧
        table.row (position (signalBits
          (selectKeys pairs (rowBits row wiring.arity)))) = some bytes := by
  obtain ⟨session, hsession⟩ := exists_rowSession
    (length_selectKeys_rowBits hlength row) hpos hcapacity wiring.number
    (signalBits (selectKeys pairs (rowBits row wiring.arity)))
  refine ⟨session, _, hsession, ?_, hholds⟩
  obtain ⟨_, _, rfl⟩ := rowSession_eq_ok_iff.mp hsession
  rw [Session.encrypt_eq_ok_iff rfl rfl, WireKey.length_toBytes,
    payloadSize_eq hsize]
  exact ⟨le_rfl, rfl⟩

/-- What a gate is garbled to realizes it under the keys that the store has
for its wires. -/
theorem exists_realizedBy_of_garble
    (hsize : scheme.cipherSize = 32) (hstore : store.WellFormed)
    (hgarble : gate.garble scheme store = .ok table) :
    ∃ inputs output, gate.inputs.mapM store.get = .ok inputs ∧
      store.pair gate.firstOutput = .ok output ∧
      inputs.length = gate.arity ∧
      (∀ input ∈ inputs,
        input.pair.Opposed ∧ input.signalBit = input.pair.signalBit) ∧
      gate.RealizedBy scheme table (inputs.map WireKeys.pair) output := by
  have hrealized := garble_realizedBy hsize hstore hgarble
  obtain ⟨_, _, _, _, pairs, output, hpairs, houtput, _⟩ :=
    (garble_eq_ok_iff hsize hstore).mp hgarble
  obtain ⟨inputs, hinputs, hmap⟩ := KeyStore.mapM_pair_eq_ok_iff.mp hpairs
  rw [KeyStore.map_pairOf_of_mapM_pair hpairs, ← hmap,
    KeyStore.pairOf_eq_of_pair houtput] at hrealized
  exact ⟨inputs, output, hinputs, houtput,
    (mapM_eq_ok_iff.mp hinputs).length_eq.symm, hstore.of_mapM_get hinputs,
    hrealized⟩

/-- A gate is garbled if it fits the tweak and its wires have keys.  Every
slot then holds the sealing of the output key for the one row that is stored
there, and any selection of input keys evaluates to the key for the bit that
the gate computes on it. -/
theorem garble_fills_every_slot
    (gate : Gate) {scheme : Scheme} (hsize : scheme.cipherSize = 32)
    (hlimit : 2 ^ gate.arity * scheme.cipherSize < wordLimit)
    {store : KeyStore} (hstore : store.Built) :
    ((∃ table, gate.garble scheme store = .ok table) ↔
        tweakWord * (gate.arity + 1) ≤ scheme.tweakSize ∧
          (∀ wire ∈ gate.inputs, store.contains wire = true) ∧
          store.contains gate.firstOutput = true) ∧
      ∀ table, gate.garble scheme store = .ok table →
        ∃ inputs output, gate.inputs.mapM store.get = .ok inputs ∧
          store.pair gate.firstOutput = .ok output ∧
          table.rowSize = scheme.cipherSize ∧
          table.bytes.length = 2 ^ gate.arity * scheme.cipherSize ∧
          table.rows = 2 ^ gate.arity ∧
          Set.BijOn (gate.slot inputs) (Set.Iio (2 ^ gate.arity))
            (Set.Iio table.rows) ∧
          (∀ row < 2 ^ gate.arity, ∃ session bytes,
            Session.keyed scheme
                (selectKeys (inputs.map WireKeys.pair)
                  (rowBits row gate.arity))
                (tweak gate.number (gate.maskedBits inputs row)
                  scheme.tweakSize) = .ok session ∧
              session.encrypt (output.select (gate.truthBit row)).toBytes =
                .ok bytes ∧
              table.row (gate.slot inputs row) = some bytes) ∧
          ∀ bits : List Bool, bits.length = gate.arity →
            ∃ value, gate.compute bits = .ok value ∧
              gate.toGateWiring.evaluate scheme table
                  (selectKeys (inputs.map WireKeys.pair) bits) =
                .ok (output.select value) := by
  have hpos := gate.arity_pos
  have hwellFormed := hstore.wellFormed
  rw [← gate.rowCount_eq] at hlimit ⊢
  constructor
  · simp only [KeyStore.contains_iff_exists_pair,
      ← gate.arity_le_maxArity_iff]
    constructor
    · intro hgarble
      obtain ⟨table, hgarble⟩ := hgarble
      obtain ⟨hcapacity, _, _, _, inputs, output, hinputs, houtput, _⟩ :=
        (garble_eq_ok_iff hsize hwellFormed).mp hgarble
      refine ⟨hcapacity, ?_, output, houtput⟩
      intro wire hwire
      obtain ⟨pair, hpair, _⟩ := exists_of_mem_of_mapM hinputs hwire
      exact ⟨pair, hpair⟩
    · intro hparts
      obtain ⟨hcapacity, hwires, output, houtput⟩ := hparts
      obtain ⟨inputs, hinputs⟩ := exists_mapM_eq_ok hwires
      exact exists_garble hsize hwellFormed hcapacity hlimit hinputs houtput
  · intro table hgarble
    obtain ⟨inputs, output, hinputs, houtput, hlength, hkeys, hrealized⟩ :=
      exists_realizedBy_of_garble hsize hwellFormed hgarble
    have hpairs : (inputs.map WireKeys.pair).length = gate.arity := by
      rw [List.length_map, hlength]
    refine ⟨inputs, output, hinputs, houtput, hrealized.rowSize,
      (hasRows_of_garble hgarble).length_bytes, hrealized.rows, ?_, ?_, ?_⟩
    · rw [hrealized.rows, gate.rowCount_eq]
      exact bijOn_slot hlength
    · intro row hrow
      have hholds := encodes_iff_forall_row.mp hrealized.encodes row hrow
      have hslot := exists_session_of_rowHolds hsize hpos hpairs
        hrealized.capacity hholds
      rwa [signalBits_selectKeys_eq_masked hkeys] at hslot
    · intro bits hbits
      exact ⟨_, compute_eq_ok_iff.mpr ⟨hbits, rfl⟩,
        hrealized.evaluate hsize hpairs hbits⟩

/-! ## One wire at both inputs -/

def square : Gate where
  number := 3
  inputs := [5, 5]
  outputs := [2]
  truthTable := [false, false, false, true]
  inputs_ne_nil := by decide
  outputs_ne_nil := by decide
  arity_lt := by decide
  length_truthTable := by decide
  mem_truthTable := by decide

/-- The mask of the input wire is set: its key for false has the signal bit
true. -/
def squareStore : KeyStore :=
  ⟨((∅ : WireMap WireKeys).insert 5 ⟨⟨⟨7⟩, ⟨4⟩⟩, true⟩).insert 2
    ⟨.unit, false⟩⟩

theorem built_squareStore : squareStore.Built :=
  (KeyStore.Built.empty.insert (by decide) rfl).insert (by decide)
    (by decide +kernel)

theorem garble_fills_every_slot_square :
    Scheme.transparent.cipherSize = 32 ∧
      2 ^ square.arity * Scheme.transparent.cipherSize < wordLimit ∧
      squareStore.Built ∧
      ∃ table, square.garble .transparent squareStore = .ok table ∧
        table.rows = 4 ∧
        (∀ bits : List Bool, bits.length = 2 → ∃ value,
          square.compute bits = .ok value ∧
            square.toGateWiring.evaluate .transparent table
                (selectKeys [⟨⟨7⟩, ⟨4⟩⟩, ⟨⟨7⟩, ⟨4⟩⟩] bits) =
              .ok (KeyPair.unit.select value)) := by
  have hlimit : 2 ^ square.arity * Scheme.transparent.cipherSize <
      wordLimit := by decide +kernel
  obtain ⟨hgarbled, hslots⟩ :=
    garble_fills_every_slot square (rfl : Scheme.transparent.cipherSize = 32)
      hlimit built_squareStore
  have hinput : squareStore.contains 5 = true := by decide +kernel
  have hwires : ∀ wire ∈ square.inputs, squareStore.contains wire = true :=
    List.forall_mem_cons.mpr ⟨hinput, List.forall_mem_singleton.mpr hinput⟩
  obtain ⟨table, hgarble⟩ :=
    hgarbled.mpr ⟨by decide, hwires, by decide +kernel⟩
  obtain ⟨inputs, output, hinputs, houtput, _, _, hrows, _, _, hevaluate⟩ :=
    hslots table hgarble
  have hget : square.inputs.mapM squareStore.get =
      .ok [⟨⟨⟨7⟩, ⟨4⟩⟩, true⟩, ⟨⟨⟨7⟩, ⟨4⟩⟩, true⟩] := by decide +kernel
  have hpair : squareStore.pair square.firstOutput = .ok .unit := by
    decide +kernel
  rw [hget, Except.ok.injEq] at hinputs
  rw [hpair, Except.ok.injEq] at houtput
  rw [← hinputs, ← houtput] at hevaluate
  exact ⟨rfl, hlimit, built_squareStore, table, hgarble, hrows, hevaluate⟩

end GarbledCircuits.Gate
