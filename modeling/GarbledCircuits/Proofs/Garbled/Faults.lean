import GarbledCircuits.Proofs.Circuit.Faults
import GarbledCircuits.Proofs.Garbled.Formats
import GarbledCircuits.Proofs.Gate.Faults

/-!
# Faults of received circuits

A garbled circuit that was received for a circuit has tables of the right
sizes, whatever their bytes.  Evaluation then fails only at a row that does not
open, and verification only with an accusation of the garbler.  All other
faults are out of reach, and nothing is read out of range.
-/

namespace GarbledCircuits

open Outcome

/-- What is shifted and cut out for the rows of a gate is in range. -/
structure Gate.InRange (gate : Gate) (scheme : Scheme) (table : Table) :
    Prop where
  arity_lt : gate.arity < 64
  tweakWord_le : tweakWord ≤ scheme.tweakSize
  row_end : ∀ masked : List Bool, masked.length = gate.arity →
    (position masked + 1) * table.rowSize ≤ table.bytes.length
  length_lt : table.bytes.length < wordLimit

theorem Gate.Readable.inRange
    {gate : Gate} {scheme : Scheme} {table : Table}
    (hreadable : gate.Readable scheme table) : gate.InRange scheme table := by
  have hlength := hreadable.hasRows.length_bytes
  constructor
  · exact gate.arity_lt
  · have hcapacity := gate.arity_le_maxArity_iff.mp hreadable.capacity
    unfold tweakWord at hcapacity ⊢
    omega
  · intro masked hmasked
    have hposition := position_lt masked
    rw [hmasked, ← gate.rowCount_eq] at hposition
    rw [hlength, hreadable.hasRows.rowSize]
    exact Nat.mul_le_mul_right _ hposition
  · rw [hlength]
    exact hreadable.limit

/-- There is a table that can be read for every gate. -/
def Circuit.Readable (circuit : Circuit) (scheme : Scheme)
    (tables : Tables) : Prop :=
  ∀ (index : Nat) (gate : Gate), circuit.gates[index]? = some gate →
    ∃ table, tables[index]? = some table ∧ gate.Readable scheme table

namespace GarbledCircuit

variable {circuit : Circuit} {executor : Executor} {scheme : Scheme}
  {garbled : GarbledCircuit}

theorem FitsCircuit.topology_eq
    (hfits : garbled.FitsCircuit circuit scheme) :
    garbled.topology = circuit.topology := by
  rw [hfits.eq_parts]

theorem FitsCircuit.length_tables
    (hfits : garbled.FitsCircuit circuit scheme) :
    garbled.tables.length = circuit.gates.length := by
  rw [List.Forall₂.length_eq hfits.tables, List.length_map]

theorem FitsCircuit.readable
    (hfits : garbled.FitsCircuit circuit scheme)
    (hlimit : garbled.tables.toBytes.length < wordLimit)
    (hcapacity : ∀ gate ∈ circuit.gates,
      gate.arity ≤ maxArity scheme.tweakSize) :
    circuit.Readable scheme garbled.tables := by
  intro index gate hgate
  obtain ⟨hindex, rfl⟩ := List.getElem?_eq_some_iff.mp hgate
  have hmem := List.getElem_mem hindex
  have htable : index < garbled.tables.length := by
    rwa [hfits.length_tables]
  have hrows := hfits.tables
  rw [Tables.Laid, List.forall₂_map_right_iff] at hrows
  have hsum : circuit.gates[index].rowCount * scheme.cipherSize ≤
      Tables.flatLength (circuit.gates.map Gate.rowCount)
        scheme.cipherSize := by
    apply List.le_sum_of_mem
    rw [List.map_map]
    exact List.mem_map.mpr ⟨_, hmem, rfl⟩
  rw [← hfits.tables.length_toBytes] at hsum
  exact ⟨_, List.getElem?_eq_getElem htable, hcapacity _ hmem,
    hrows.get htable hindex, by omega⟩

/-! ## Evaluation -/

section

variable {keys : ActiveKeys}

theorem evaluateGate_keeps
    (hsize : scheme.cipherSize = 32)
    (hreadable : circuit.Readable scheme garbled.tables) {index : Nat}
    {gate : Gate} (hgate : circuit.gates[index]? = some gate) :
    Keeps (fun entry : Nat × GateWiring => entry.2)
      (garbled.evaluateGate scheme) (fun _ => True)
      (fun cause => ∃ gate ∈ circuit.gates,
        cause = .gate (.cipher gate.number .integrityCheckFailed))
      (index, gate.toGateWiring) := by
  intro inputs hlength _
  obtain ⟨table, htable, hrows⟩ := hreadable index gate hgate
  refine ⟨?_, fun _ _ => trivial⟩
  simp only [evaluateGate, tableAt, htable, ok_bind, CircuitError.ofGate]
  refine (hrows.evaluate_failsOnly hsize hlength).mapError ?_
  rintro _ rfl
  exact ⟨gate, List.mem_of_getElem? hgate, rfl⟩

theorem evaluate_failsOnly
    (hsize : scheme.cipherSize = 32)
    (hfits : garbled.FitsCircuit circuit scheme)
    (hreadable : circuit.Readable scheme garbled.tables)
    (hkeys : ∀ wire ∈ circuit.inputs, wire ∈ keys) :
    FailsOnly (fun cause => ∃ gate ∈ circuit.gates,
        cause = .gate (.cipher gate.number .integrityCheckFailed))
      (garbled.evaluate executor scheme keys) := by
  have htopology := hfits.topology_eq
  have hcount : garbled.checkTableCount = .ok () := by
    rw [checkTableCount_eq_ok_iff, hfits.length_tables, htopology]
    simp [Circuit.topology]
  obtain ⟨depth, hscheduled⟩ := circuit.exists_scheduled_topology
  have hstart : HoldsOn (· ∈ circuit.inputs) (fun _ => True) keys := by
    intro wire hwire
    obtain ⟨key, hkey⟩ := mem_iff_exists_getElem?.mp (hkeys wire hwire)
    exact ⟨key, hkey, trivial⟩
  rw [evaluate, hcount, ok_bind, evaluateLevel_eq_runLevel htopology,
    htopology]
  refine hscheduled.run_failsOnly hstart ?_
  intro index wiring hwiring
  rw [List.getElem?_map, Option.map_eq_some_iff] at hwiring
  obtain ⟨gate, hgate, rfl⟩ := hwiring
  exact evaluateGate_keeps hsize hreadable hgate

end

/-! ## Verification -/

section

variable {inputPairs : WireMap KeyPair}

theorem verifyGate_keeps
    (hsize : scheme.cipherSize = 32)
    (htopology : garbled.topology = circuit.topology)
    (hreadable : circuit.Readable scheme garbled.tables) {index : Nat}
    {gate : Gate} (hgate : circuit.gates[index]? = some gate) :
    Keeps (fun entry : Nat × Gate => entry.2.toGateWiring)
      (circuit.verifyGate garbled scheme) KeyPair.Opposed
      (fun cause => ∃ fault, cause = .gate fault ∧
        fault.fault = .cheatAttempt) (index, gate) := by
  intro inputs hlength hopposed
  obtain ⟨table, htable, hrows⟩ := hreadable index gate hgate
  have hwiring : garbled.topology.gates[index]? = some gate.toGateWiring := by
    rw [htopology, Circuit.topology, List.getElem?_map, hgate,
      Option.map_some]
  simp only [Circuit.verifyGate, hwiring, htable, CircuitError.ofGate]
  constructor
  · refine (hrows.verify_failsOnly hsize hlength hopposed).mapError ?_
    intro fault hfault
    exact ⟨fault, rfl, hfault⟩
  · intro pair hpair
    rw [mapError_eq_ok_iff, GateWiring.verify_eq_ok_iff hsize] at hpair
    exact hpair.2.2.output_opposed

theorem verifyGates_failsOnly
    (hsize : scheme.cipherSize = 32)
    (hfits : garbled.FitsCircuit circuit scheme)
    (hreadable : circuit.Readable scheme garbled.tables)
    (hpairs : HoldsOn (· ∈ circuit.inputs) KeyPair.Opposed inputPairs) :
    FailsOnly (fun cause => ∃ fault, cause = .gate fault ∧
        fault.fault = .cheatAttempt)
      (circuit.verifyGates garbled executor scheme inputPairs) := by
  have htopology := hfits.topology_eq
  have hcount : circuit.checkGateCounts garbled = .ok () := by
    rw [Circuit.checkGateCounts_eq_ok_iff, htopology]
    exact ⟨by simp [Circuit.topology], hfits.length_tables⟩
  obtain ⟨depth, hscheduled⟩ := circuit.exists_scheduled
  have hread := mapM_wireValue_eq_ok_iff.mpr ⟨fun wire hwire => by
    obtain ⟨pair, hpair, _⟩ := hpairs wire hwire
    exact mem_of_getElem? hpair, rfl⟩
  have hstart : HoldsOn (· ∈ circuit.inputs) KeyPair.Opposed
      (assign ∅ (circuit.inputs.map fun wire =>
        (wire, valueOf inputPairs wire))) := by
    intro wire hwire
    obtain ⟨pair, hpair, hopposed⟩ := hpairs wire hwire
    refine ⟨valueOf inputPairs wire, getElem?_assign_map _ hwire, ?_⟩
    rwa [valueOf, hpair, Option.getD_some]
  rw [Circuit.verifyGates, hcount, ok_bind, hread, ok_bind,
    Circuit.verifyLevel_eq_runLevel]
  refine hscheduled.run_failsOnly hstart ?_
  intro index gate hgate
  exact verifyGate_keeps hsize htopology hreadable hgate

end

/-- Whatever bytes were received for a circuit that fits the scheme: evaluation
gives keys or finds a row that does not open, verification gives pairs or
accuses the garbler, and all that they index is there. -/
theorem faults_of_ofBytes
    (hsize : scheme.cipherSize = 32)
    (hcapacity : ∀ gate ∈ circuit.gates,
      tweakWord * (gate.arity + 1) ≤ scheme.tweakSize)
    {tables translation : List UInt8}
    (hbytes : ofBytes circuit scheme tables translation = .ok garbled) :
    (∀ executor (keys : ActiveKeys),
      (∀ wire ∈ circuit.inputs, wire ∈ keys) →
      (∃ results, garbled.evaluate executor scheme keys = .ok results) ∨
        ∃ cause, garbled.evaluate executor scheme keys = .error cause ∧
          cause.fault = .cryptoFailure ∧ ∃ gate ∈ circuit.gates,
            cause = .gate (.cipher gate.number .integrityCheckFailed)) ∧
    (∀ executor (inputPairs : WireMap KeyPair),
      (∀ wire ∈ circuit.inputs, ∃ pair, inputPairs[wire]? = some pair ∧
        pair.Opposed) →
      (∃ outs, circuit.verifyGates garbled executor scheme inputPairs =
          .ok outs) ∨
        ∃ cause, circuit.verifyGates garbled executor scheme inputPairs =
            .error cause ∧
          cause.fault = .cheatAttempt ∧ ∃ fault, cause = .gate fault) ∧
    garbled.topology = circuit.topology ∧
    ∀ level ∈ circuit.levels, ∀ index ∈ level, ∃ gate table,
      circuit.gates[index]? = some gate ∧
        garbled.tables[index]? = some table ∧
        table.rowSize = scheme.cipherSize ∧ gate.InRange scheme table := by
  obtain ⟨hfits, rfl, hlimit, _⟩ := ofBytes_eq_ok_iff.mp hbytes
  have hreadable := hfits.readable hlimit fun gate hgate =>
    gate.arity_le_maxArity_iff.mpr (hcapacity gate hgate)
  refine ⟨?_, ?_, hfits.topology_eq, ?_⟩
  · intro executor keys hkeys
    have hfails : FailsOnly _ (garbled.evaluate executor scheme keys) :=
      evaluate_failsOnly hsize hfits hreadable hkeys
    rcases hfails.exists_ok_or_error
      with hresults | ⟨cause, hcause, gate, hgate, rfl⟩
    · exact Or.inl hresults
    · exact Or.inr ⟨_, hcause, rfl, gate, hgate, rfl⟩
  · intro executor inputPairs hpairs
    have hfails : FailsOnly _
        (circuit.verifyGates garbled executor scheme inputPairs) :=
      verifyGates_failsOnly hsize hfits hreadable hpairs
    rcases hfails.exists_ok_or_error
      with houts | ⟨cause, hcause, fault, rfl, hcheat⟩
    · exact Or.inl houts
    · exact Or.inr ⟨_, hcause, hcheat, fault, rfl⟩
  · intro level hlevel index hindex
    obtain ⟨gate, hgate⟩ := circuit.exists_gate_of_mem_levels hlevel hindex
    obtain ⟨table, htable, hrows⟩ := hreadable index gate hgate
    exact ⟨gate, table, hgate, htable, hrows.hasRows.rowSize, hrows.inRange⟩

/-- The inverter with a table of ones, which no key opens. -/
theorem faults_of_ofBytes_inverter :
    ∃ garbled : GarbledCircuit,
      Scheme.transparent.cipherSize = 32 ∧
      (∀ gate ∈ Circuit.inverter.gates,
        tweakWord * (gate.arity + 1) ≤ Scheme.transparent.tweakSize) ∧
      ofBytes .inverter .transparent (List.replicate 64 255) [1] =
        .ok garbled ∧
      ((∃ results, garbled.evaluate (.pool .inOrder) .transparent
          (assign ∅ [(0, KeyPair.unit.key0)]) = .ok results) ∨
        ∃ cause, garbled.evaluate (.pool .inOrder) .transparent
            (assign ∅ [(0, KeyPair.unit.key0)]) = .error cause ∧
          cause.fault = .cryptoFailure ∧ ∃ gate ∈ Circuit.inverter.gates,
            cause = .gate (.cipher gate.number .integrityCheckFailed)) ∧
      ((∃ outs, Circuit.inverter.verifyGates garbled (.pool .inOrder)
          .transparent (assign ∅ [(0, .unit)]) = .ok outs) ∨
        ∃ cause, Circuit.inverter.verifyGates garbled (.pool .inOrder)
            .transparent (assign ∅ [(0, .unit)]) = .error cause ∧
          cause.fault = .cheatAttempt ∧ ∃ fault, cause = .gate fault) := by
  have hcapacity : ∀ gate ∈ Circuit.inverter.gates,
      tweakWord * (gate.arity + 1) ≤ Scheme.transparent.tweakSize := by
    decide +kernel
  have hbytes :
      ofBytes .inverter .transparent (List.replicate 64 255) [1] =
        .ok ⟨.fixedKeyAes, 32, Circuit.inverter.topology,
          [⟨List.replicate 64 255, 32⟩], ⟨[true]⟩⟩ := by
    decide +kernel
  obtain ⟨hevaluate, hverify, _⟩ := faults_of_ofBytes rfl hcapacity hbytes
  refine ⟨_, rfl, hcapacity, hbytes, hevaluate _ _ ?_, hverify _ _ ?_⟩
  · intro wire hwire
    obtain rfl : wire = 0 := List.mem_singleton.mp hwire
    decide +kernel
  · intro wire hwire
    obtain rfl : wire = 0 := List.mem_singleton.mp hwire
    exact ⟨.unit, by decide +kernel, by decide⟩

end GarbledCircuit

end GarbledCircuits
