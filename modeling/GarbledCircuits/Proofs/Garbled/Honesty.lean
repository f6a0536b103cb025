import GarbledCircuits.Proofs.Garbled.Garbling
import GarbledCircuits.Proofs.Garbled.Soundness

/-!
# Verified garblings are honest ones

A garbled circuit is verified exactly if an honest garbler writes the same
bytes for some store of opposed pairs.  The pairs that verification recovers
wire by wire make up such a store, and there is no other one.
-/

namespace GarbledCircuits

open Outcome

namespace Circuit

/-- A store of pairs for exactly the wires of the circuit, from which an
honest garbler gets the tables, the translation table and the kept keys. -/
structure Honest (circuit : Circuit) (scheme : Scheme)
    (garbled : GarbledCircuit) (secrets : Secrets) (outs : List KeyPair)
    (store : KeyStore) : Prop where
  wires : ∀ wire : WireId, wire ∈ store.wires ↔ wire ∈ circuit.wires
  wellFormed : store.WellFormed
  inputs : ∀ wire ∈ circuit.inputs, ∃ pair,
    secrets.inputPairs[wire]? = some pair ∧ store.pair wire = .ok pair
  shared : ∀ gate ∈ circuit.gates, ∀ wire ∈ gate.outputs,
    store.pair wire = store.pair gate.firstOutput
  tables : circuit.gates.mapM (Gate.garble · scheme store) =
    .ok garbled.tables
  outputs : circuit.outputs.mapM store.pair = .ok outs
  kept : secrets.outputPairs = outs
  translation : garbled.translation.bits = outs.map KeyPair.signalBit

variable {circuit : Circuit} {executor : Executor} {scheme : Scheme}
  {garbled : GarbledCircuit} {secrets : Secrets} {outs : List KeyPair}
  {store : KeyStore}

/-! ## From a store to verification -/

namespace Honest

theorem inputPairs_eq
    (hhonest : circuit.Honest scheme garbled secrets outs store) {wire : WireId}
    (hwire : wire ∈ circuit.inputs) :
    secrets.inputPairs[wire]? = some (store.pairOf wire) := by
  obtain ⟨pair, hinput, hpair⟩ := hhonest.inputs wire hwire
  rw [hinput, KeyStore.pairOf_eq_of_pair hpair]

theorem realizedBy
    (hhonest : circuit.Honest scheme garbled secrets outs store)
    (hsize : scheme.cipherSize = 32) :
    circuit.RealizedBy scheme garbled.tables store.pairOf := by
  apply realizedBy_of_mapM_garble hsize hhonest.wellFormed _ hhonest.tables
  intro gate hgate wire hwire
  have hdriven : gate.firstOutput ∈ store.wires := by
    rw [hhonest.wires]
    exact mem_wires_of_mem_outputs hgate gate.firstOutput_mem_outputs
  obtain ⟨keys, hkeys⟩ := mem_iff_exists_getElem?.mp hdriven
  have hfirst := KeyStore.pair_eq_ok_pairOf hkeys
  apply KeyStore.pairOf_eq_of_pair
  rw [hhonest.shared gate hgate wire hwire, hfirst]

theorem length_tables
    (hhonest : circuit.Honest scheme garbled secrets outs store) :
    garbled.tables.length = circuit.gates.length :=
  (mapM_eq_ok_iff.mp hhonest.tables).length_eq.symm

theorem verified
    (hhonest : circuit.Honest scheme garbled secrets outs store)
    (hsize : scheme.cipherSize = 32)
    (htopology : garbled.topology = circuit.topology) :
    circuit.verify garbled executor scheme secrets = .ok outs := by
  rw [verify_eq_ok_iff, verifyGates_eq_ok_iff hsize]
  refine ⟨⟨?_, hhonest.length_tables, store.pairOf,
      fun wire hwire => hhonest.inputPairs_eq hwire, hhonest.realizedBy hsize,
      KeyStore.map_pairOf_of_mapM_pair hhonest.outputs⟩,
    hhonest.translation,
    hhonest.wellFormed.opposed_of_mapM_pair hhonest.outputs, hhonest.kept⟩
  rw [htopology, Circuit.topology]

/-- No two stores give one garbled circuit the same input pairs. -/
theorem unique
    {others : List KeyPair} {other : KeyStore}
    (hhonest : circuit.Honest scheme garbled secrets outs store)
    (hother : circuit.Honest scheme garbled secrets others other)
    (hsize : scheme.cipherSize = 32)
    (htopology : garbled.topology = circuit.topology) : store = other := by
  obtain ⟨depth, hscheduled⟩ := circuit.exists_scheduled
  have hwirings : garbled.topology.gates =
      circuit.gates.map Gate.toGateWiring := by
    rw [htopology, Circuit.topology]
  have hgates : garbled.topology.gates.length = circuit.gates.length := by
    rw [hwirings, List.length_map]
  have hsolves := (solves_verifyGate_iff hsize hgates
    hhonest.length_tables).mpr ⟨hwirings, hhonest.realizedBy hsize⟩
  have hsolvesOther := (solves_verifyGate_iff hsize hgates
    hhonest.length_tables).mpr ⟨hwirings, hother.realizedBy hsize⟩
  have hinputs : ∀ wire ∈ circuit.inputs,
      store.pairOf wire = other.pairOf wire := by
    intro wire hwire
    have hpair := hhonest.inputPairs_eq hwire
    rw [hother.inputPairs_eq hwire, Option.some.injEq] at hpair
    exact hpair.symm
  have hpairs := hscheduled.solves_unique hinputs hsolves hsolvesOther
  apply KeyStore.ext
  intro wire
  by_cases hdriven : wire ∈ circuit.wires
  · obtain ⟨keys, hkeys⟩ :=
      mem_iff_exists_getElem?.mp ((hhonest.wires wire).mpr hdriven)
    obtain ⟨otherKeys, hotherKeys⟩ :=
      mem_iff_exists_getElem?.mp ((hother.wires wire).mpr hdriven)
    rw [hhonest.wellFormed.getElem?_eq_pairOf hkeys,
      hother.wellFormed.getElem?_eq_pairOf hotherKeys, hpairs wire hdriven]
  · have hnone : wire ∉ store.wires := by rwa [hhonest.wires]
    have hotherNone : wire ∉ other.wires := by rwa [hother.wires]
    rw [notMem_iff_getElem?.mp hnone, notMem_iff_getElem?.mp hotherNone]

end Honest

/-! ## From verification to a store -/

def storeOf (circuit : Circuit) (pair : WireId → KeyPair) : KeyStore :=
  ⟨assign ∅ (circuit.wires.map fun wire =>
    (wire, ⟨pair wire, (pair wire).signalBit⟩))⟩

section

variable {pair : WireId → KeyPair}

theorem getElem?_storeOf
    {wire : WireId} (hwire : wire ∈ circuit.wires) :
    (circuit.storeOf pair).wires[wire]? =
      some ⟨pair wire, (pair wire).signalBit⟩ :=
  getElem?_assign_map (fun wire =>
    (⟨pair wire, (pair wire).signalBit⟩ : WireKeys)) hwire

theorem mem_storeOf_iff {wire : WireId} :
    wire ∈ (circuit.storeOf pair).wires ↔ wire ∈ circuit.wires := by
  constructor
  · intro hmem
    by_contra hdriven
    have hnone : (circuit.storeOf pair).wires[wire]? = none := by
      rw [storeOf, getElem?_assign_of_forall_ne]
      · simp
      · rintro entry hentry rfl
        obtain ⟨other, hother, rfl⟩ := List.mem_map.mp hentry
        exact hdriven hother
    exact notMem_iff_getElem?.mpr hnone hmem
  · intro hdriven
    exact mem_of_getElem? (getElem?_storeOf hdriven)

theorem pair_storeOf
    {wire : WireId} (hwire : wire ∈ circuit.wires) :
    (circuit.storeOf pair).pair wire = .ok (pair wire) :=
  KeyStore.pair_eq_ok_iff.mpr ⟨_, getElem?_storeOf hwire, rfl⟩

theorem mapM_pair_storeOf
    {wires : List WireId} (hwires : ∀ wire ∈ wires, wire ∈ circuit.wires) :
    wires.mapM (circuit.storeOf pair).pair = .ok (wires.map pair) :=
  mapM_eq_ok_map fun wire hwire => pair_storeOf (hwires wire hwire)

theorem wellFormed_storeOf
    (hopposed : ∀ wire ∈ circuit.wires, (pair wire).Opposed) :
    (circuit.storeOf pair).WellFormed := by
  intro wire keys hkeys
  have hdriven := mem_storeOf_iff.mp (mem_of_getElem? hkeys)
  rw [getElem?_storeOf hdriven, Option.some.injEq] at hkeys
  subst hkeys
  exact ⟨hopposed wire hdriven, rfl⟩

/-- A table that realizes a gate is what the gate garbles to. -/
theorem garble_of_realizedBy
    (hsize : scheme.cipherSize = 32)
    (hstore : (circuit.storeOf pair).WellFormed) {gate : Gate}
    (hgate : gate ∈ circuit.gates) {table : Table}
    (hlimit : gate.rowCount * scheme.cipherSize < wordLimit)
    (hwhole : table.bytes.length % table.rowSize = 0)
    (hrealized : gate.RealizedBy scheme table (gate.inputs.map pair)
      (pair gate.firstOutput)) :
    gate.garble scheme (circuit.storeOf pair) = .ok table := by
  have hbytes : table.bytes.length = gate.rowCount * scheme.cipherSize := by
    have hrows := hrealized.rows
    rw [← Nat.div_add_mod table.bytes.length table.rowSize, hwhole,
      ← Table.rows, hrows, hrealized.rowSize, Nat.mul_comm, Nat.add_zero]
  have hinputs : ∀ wire ∈ gate.inputs, wire ∈ circuit.wires :=
    fun wire hwire => mem_wires_of_mem_inputs hgate hwire
  exact (Gate.garble_eq_ok_iff hsize hstore).mpr ⟨hrealized.capacity, hlimit,
    hrealized.rowSize, hbytes, _, _, mapM_pair_storeOf hinputs,
    pair_storeOf (mem_wires_of_mem_outputs hgate
      gate.firstOutput_mem_outputs), hrealized.encodes⟩

theorem mapM_garble_of_realizedBy
    (hsize : scheme.cipherSize = 32)
    (hstore : (circuit.storeOf pair).WellFormed)
    (hlimit : ∀ gate ∈ circuit.gates,
      gate.rowCount * scheme.cipherSize < wordLimit)
    {tables : Tables} (hcount : tables.length = circuit.gates.length)
    (hwhole : ∀ table ∈ tables, table.bytes.length % table.rowSize = 0)
    (hrealized : circuit.RealizedBy scheme tables pair) :
    circuit.gates.mapM (Gate.garble · scheme (circuit.storeOf pair)) =
      .ok tables := by
  rw [mapM_eq_ok_iff, List.forall₂_iff_get]
  refine ⟨hcount.symm, ?_⟩
  intro index hindex hlt
  have hgate := List.getElem_mem hindex
  have hpart := hrealized index _ _ (List.getElem?_eq_getElem hindex)
    (List.getElem?_eq_getElem hlt) _
    circuit.gates[index].firstOutput_mem_outputs
  exact garble_of_realizedBy hsize hstore hgate (hlimit _ hgate)
    (hwhole _ (List.getElem_mem hlt)) hpart

theorem opposed_of_realizedBy
    {tables : Tables} (hcount : tables.length = circuit.gates.length)
    (hrealized : circuit.RealizedBy scheme tables pair)
    (hinputs : ∀ wire ∈ circuit.inputs, (pair wire).Opposed) :
    ∀ wire ∈ circuit.wires, (pair wire).Opposed := by
  intro wire hwire
  rcases mem_wires_iff.mp hwire with hinput | ⟨gate, hgate, hdriven⟩
  · exact hinputs wire hinput
  · obtain ⟨table, _, htable⟩ := hrealized.exists_table hcount hgate
    exact (htable wire hdriven).output_opposed

theorem pair_eq_firstOutput_of_realizedBy
    (hsize : scheme.cipherSize = 32)
    {tables : Tables} (hcount : tables.length = circuit.gates.length)
    (hrealized : circuit.RealizedBy scheme tables pair)
    {gate : Gate} (hgate : gate ∈ circuit.gates) {wire : WireId}
    (hwire : wire ∈ gate.outputs) : pair wire = pair gate.firstOutput := by
  obtain ⟨table, _, htable⟩ := hrealized.exists_table hcount hgate
  have hfirst := htable gate.firstOutput gate.firstOutput_mem_outputs
  exact Gate.Encodes.output_eq hsize (htable wire hwire).encodes hfirst.encodes

end

/-- A circuit that is verified was garbled from the recovered pairs. -/
theorem exists_honest_of_verify
    (hsize : scheme.cipherSize = 32)
    (hlimit : ∀ gate ∈ circuit.gates,
      gate.rowCount * scheme.cipherSize < wordLimit)
    (hwhole : ∀ table ∈ garbled.tables,
      table.bytes.length % table.rowSize = 0)
    (hinputs : ∀ wire ∈ circuit.inputs, ∃ pair,
      secrets.inputPairs[wire]? = some pair ∧ pair.Opposed)
    (hverify : circuit.verify garbled executor scheme secrets = .ok outs) :
    ∃ store, circuit.Honest scheme garbled secrets outs store := by
  obtain ⟨hgates, hbits, _, hkept⟩ := verify_eq_ok_iff.mp hverify
  obtain ⟨_, hcount, pair, hpairs, hrealized, houts⟩ :=
    (verifyGates_eq_ok_iff hsize).mp hgates
  have hopposed : ∀ wire ∈ circuit.inputs, (pair wire).Opposed := by
    intro wire hwire
    obtain ⟨other, hother, hopposed⟩ := hinputs wire hwire
    rw [hpairs wire hwire, Option.some.injEq] at hother
    rwa [hother]
  have hstore : (circuit.storeOf pair).WellFormed :=
    wellFormed_storeOf (opposed_of_realizedBy hcount hrealized hopposed)
  refine ⟨circuit.storeOf pair, fun _ => mem_storeOf_iff, hstore, ?_, ?_,
    mapM_garble_of_realizedBy hsize hstore hlimit hcount hwhole hrealized,
    ?_, hkept, hbits⟩
  · intro wire hwire
    exact ⟨pair wire, hpairs wire hwire,
      pair_storeOf (mem_wires_iff.mpr (Or.inl hwire))⟩
  · intro gate hgate wire hwire
    rw [pair_storeOf (mem_wires_of_mem_outputs hgate hwire),
      pair_storeOf (mem_wires_of_mem_outputs hgate
        gate.firstOutput_mem_outputs),
      pair_eq_firstOutput_of_realizedBy hsize hcount hrealized hgate hwire]
  · rw [← houts]
    exact mapM_pair_storeOf circuit.outputs_mem_wires

/-- A rebuilt circuit is verified exactly if it was garbled honestly from some
store, which is then the only one. -/
theorem verify_eq_ok_iff_exists_honest
    (hsize : scheme.cipherSize = 32)
    (hlimit : ∀ gate ∈ circuit.gates,
      gate.rowCount * scheme.cipherSize < wordLimit)
    {tables : Tables} {translation : Translation}
    (hparts : GarbledCircuit.ofParts circuit scheme tables translation =
      .ok garbled)
    (hwhole : ∀ table ∈ tables, ∃ bytes rowSize,
      Table.ofBytes bytes rowSize = .ok table)
    (hinputs : ∀ wire ∈ circuit.inputs, ∃ pair,
      secrets.inputPairs[wire]? = some pair ∧ pair.Opposed) :
    (∀ executor, circuit.verify garbled executor scheme secrets = .ok outs ↔
        ∃ store, circuit.Honest scheme garbled secrets outs store) ∧
      ∀ store other : KeyStore,
        circuit.Honest scheme garbled secrets outs store →
        circuit.Honest scheme garbled secrets outs other → store = other := by
  obtain ⟨_, _, rfl⟩ := GarbledCircuit.ofParts_eq_ok_iff.mp hparts
  refine ⟨fun executor =>
    ⟨exists_honest_of_verify hsize hlimit ?_ hinputs, ?_⟩, ?_⟩
  · intro table htable
    obtain ⟨bytes, rowSize, hbytes⟩ := hwhole table htable
    unfold Table.ofBytes at hbytes
    split_ifs at hbytes with hzero hpartial
    cases hbytes
    exact not_not.mp hpartial
  · rintro ⟨store, hhonest⟩
    exact hhonest.verified hsize rfl
  · intro store other hhonest hother
    exact hhonest.unique hother hsize rfl

theorem verify_eq_ok_iff_exists_honest_inverter :
    Scheme.transparent.cipherSize = 32 ∧
      (∀ gate ∈ inverter.gates,
        gate.rowCount * Scheme.transparent.cipherSize < wordLimit) ∧
      GarbledCircuit.ofParts .inverter .transparent
          GarbledCircuit.inverter.tables GarbledCircuit.inverter.translation =
        .ok .inverter ∧
      (∀ table ∈ GarbledCircuit.inverter.tables, ∃ bytes rowSize,
        Table.ofBytes bytes rowSize = .ok table) ∧
      (∀ wire ∈ inverter.inputs, ∃ pair,
        Secrets.inverter.inputPairs[wire]? = some pair ∧ pair.Opposed) ∧
      ∃ store,
        inverter.Honest .transparent .inverter .inverter [.unit] store := by
  have hlimit : ∀ gate ∈ inverter.gates,
      gate.rowCount * Scheme.transparent.cipherSize < wordLimit := by
    decide +kernel
  have hparts : GarbledCircuit.ofParts .inverter .transparent
      GarbledCircuit.inverter.tables GarbledCircuit.inverter.translation =
        .ok .inverter := by decide +kernel
  have hwhole : ∀ table ∈ GarbledCircuit.inverter.tables, ∃ bytes rowSize,
      Table.ofBytes bytes rowSize = .ok table := by
    intro table htable
    refine ⟨table.bytes, 32, ?_⟩
    revert htable table
    decide +kernel
  have hinputs : ∀ wire ∈ inverter.inputs, ∃ pair,
      Secrets.inverter.inputPairs[wire]? = some pair ∧ pair.Opposed := by
    intro wire hwire
    obtain rfl : wire = 0 := List.mem_singleton.mp hwire
    exact ⟨.unit, by decide +kernel, by decide⟩
  have hverify : inverter.verify .inverter .sequential .transparent
      .inverter = .ok [.unit] := by decide +kernel
  have hhonest : ∃ store,
      inverter.Honest .transparent .inverter .inverter [.unit] store :=
    ((verify_eq_ok_iff_exists_honest rfl hlimit hparts hwhole hinputs).1
      _).mp hverify
  exact ⟨rfl, hlimit, hparts, hwhole, hinputs, hhonest⟩

end Circuit

end GarbledCircuits
