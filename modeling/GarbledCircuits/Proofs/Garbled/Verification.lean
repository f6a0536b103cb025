import GarbledCircuits.Garbled.Verify
import GarbledCircuits.Proofs.Garbled.Decoding
import GarbledCircuits.Proofs.Garbled.Evaluation

/-!
# What a verified circuit realizes

A garbled circuit is verified exactly if its tables realize the gates of the
plain circuit under pairs that continue those of the inputs, and if the
translation table and the kept output keys belong to these pairs.  Hence what
was verified evaluates and decodes to what the plain circuit computes, with no
assumption on how its tables were made.
-/

namespace GarbledCircuits

open Outcome

namespace Circuit

variable {circuit : Circuit} {executor : Executor} {scheme : Scheme}
  {garbled : GarbledCircuit} {inputPairs : WireMap KeyPair}
  {outs : List KeyPair}

theorem checkGateCounts_eq_ok_iff :
    circuit.checkGateCounts garbled = .ok () ↔
      garbled.topology.gates.length = circuit.gates.length ∧
        garbled.tables.length = circuit.gates.length := by
  simp only [checkGateCounts]
  split_ifs with hgates htables <;> simp_all

theorem verifyLevel_eq_runLevel :
    circuit.verifyLevel garbled executor scheme = fun pairs level =>
      runLevel executor (fun entry : Nat × Gate => entry.2.toGateWiring)
        (circuit.verifyGate garbled scheme) pairs
        (gatesAt circuit.gates level) :=
  rfl

theorem verifyGate_eq_ok_iff
    {index : Nat} {gate : Gate} {pairs : List KeyPair} {pair : KeyPair} :
    circuit.verifyGate garbled scheme ((index, gate), pairs) = .ok pair ↔
      ∃ wiring table, garbled.topology.gates[index]? = some wiring ∧
        garbled.tables[index]? = some table ∧
        wiring.verify gate scheme table pairs = .ok pair := by
  simp only [verifyGate, CircuitError.ofGate]
  cases garbled.topology.gates[index]? <;> cases garbled.tables[index]? <;>
    simp [mapError_eq_ok_iff]

theorem gates_eq_of_solves
    (hgates : garbled.topology.gates.length = circuit.gates.length)
    {pair : WireId → KeyPair}
    (hsolves : ∀ (index : Nat) (gate : Gate),
      circuit.gates[index]? = some gate →
        Solves (fun entry : Nat × Gate => entry.2.toGateWiring)
          (circuit.verifyGate garbled scheme) pair (index, gate)) :
    garbled.topology.gates = circuit.gates.map Gate.toGateWiring := by
  apply List.ext_getElem?
  intro index
  rw [List.getElem?_map]
  cases hgate : circuit.gates[index]? with
  | none =>
      rw [List.getElem?_eq_none_iff] at hgate
      rw [Option.map_none, List.getElem?_eq_none_iff]
      omega
  | some gate =>
      obtain ⟨wire, hwire⟩ := List.exists_mem_of_ne_nil _ gate.outputs_ne_nil
      obtain ⟨wiring, _, hwiring, _, hverify⟩ :=
        verifyGate_eq_ok_iff.mp (hsolves index gate hgate wire hwire)
      rw [hwiring, GateWiring.eq_of_verify hverify, Option.map_some]

/-- The gates are verified under an assignment of pairs exactly if they are
those of the plain circuit and the tables realize them. -/
theorem solves_verifyGate_iff
    (hsize : scheme.cipherSize = 32)
    (hgates : garbled.topology.gates.length = circuit.gates.length)
    (htables : garbled.tables.length = circuit.gates.length)
    {pair : WireId → KeyPair} :
    (∀ (index : Nat) (gate : Gate), circuit.gates[index]? = some gate →
        Solves (fun entry : Nat × Gate => entry.2.toGateWiring)
          (circuit.verifyGate garbled scheme) pair (index, gate)) ↔
      garbled.topology.gates = circuit.gates.map Gate.toGateWiring ∧
        circuit.RealizedBy scheme garbled.tables pair := by
  constructor
  · intro hsolves
    refine ⟨gates_eq_of_solves hgates hsolves, ?_⟩
    intro index gate table hgate htable wire hwire
    obtain ⟨_, other, _, hother, hverify⟩ :=
      verifyGate_eq_ok_iff.mp (hsolves index gate hgate wire hwire)
    obtain ⟨_, _, hrealized⟩ :=
      (GateWiring.verify_eq_ok_iff hsize).mp hverify
    rw [htable, Option.some.injEq] at hother
    rw [hother]
    exact hrealized
  · rintro ⟨hwirings, hrealized⟩ index gate hgate wire hwire
    obtain ⟨hindex, _⟩ := List.getElem?_eq_some_iff.mp hgate
    have htable := List.getElem?_eq_getElem (htables ▸ hindex)
    have hpart := hrealized index gate _ hgate htable wire hwire
    refine verifyGate_eq_ok_iff.mpr ⟨gate.toGateWiring, _, ?_, htable,
      (GateWiring.verify_eq_ok_iff hsize).mpr
        ⟨rfl, List.length_map .., hpart⟩⟩
    rw [hwirings, List.getElem?_map, hgate, Option.map_some]

theorem verifyRun_eq_ok_iff
    {start : WireMap KeyPair} (hstart : ∀ wire ∈ circuit.inputs, wire ∈ start) :
    (circuit.levels.foldlM (circuit.verifyLevel garbled executor scheme)
          start >>= fun pairs =>
        circuit.outputs.mapM (valueAt pairs)) = .ok outs ↔
      ∃ pair : WireId → KeyPair,
        (∀ wire ∈ circuit.inputs, start[wire]? = some (pair wire)) ∧
        (∀ (index : Nat) (gate : Gate), circuit.gates[index]? = some gate →
          Solves (fun entry : Nat × Gate => entry.2.toGateWiring)
            (circuit.verifyGate garbled scheme) pair (index, gate)) ∧
        circuit.outputs.map pair = outs := by
  obtain ⟨depth, hscheduled⟩ := circuit.exists_scheduled
  have hdriven : ∀ gate ∈ circuit.gates, gate.outputs ≠ [] :=
    fun gate _ => gate.outputs_ne_nil
  rw [verifyLevel_eq_runLevel]
  exact hscheduled.run_eq_ok_iff hdriven hstart

/-- The gates are verified exactly if there is one for each, and the pairs of
the inputs can be continued to an assignment that all of them agree with. -/
theorem verifyGates_eq_ok_iff_solves :
    circuit.verifyGates garbled executor scheme inputPairs = .ok outs ↔
      (garbled.topology.gates.length = circuit.gates.length ∧
          garbled.tables.length = circuit.gates.length) ∧
        ∃ pair : WireId → KeyPair,
          (∀ wire ∈ circuit.inputs, inputPairs[wire]? = some (pair wire)) ∧
          (∀ (index : Nat) (gate : Gate), circuit.gates[index]? = some gate →
            Solves (fun entry : Nat × Gate => entry.2.toGateWiring)
              (circuit.verifyGate garbled scheme) pair (index, gate)) ∧
          circuit.outputs.map pair = outs := by
  have hstart : ∀ wire ∈ circuit.inputs,
      (assign ∅ (circuit.inputs.map fun wire =>
        (wire, valueOf inputPairs wire)))[wire]? =
          some (valueOf inputPairs wire) :=
    fun wire hwire => getElem?_assign_map _ hwire
  have hmemStart : ∀ wire ∈ circuit.inputs,
      wire ∈ assign ∅ (circuit.inputs.map fun wire =>
        (wire, valueOf inputPairs wire)) :=
    fun wire hwire => mem_of_getElem? (hstart wire hwire)
  rw [verifyGates, bind_eq_ok_iff, exists_unit_iff,
    checkGateCounts_eq_ok_iff, bind_eq_ok_iff]
  simp only [mapM_wireValue_eq_ok_iff]
  refine and_congr_right fun _ => ?_
  constructor
  · rintro ⟨_, ⟨hmem, rfl⟩, hrun⟩
    obtain ⟨pair, hpair, hsolves, houts⟩ :=
      (verifyRun_eq_ok_iff hmemStart).mp hrun
    refine ⟨pair, ?_, hsolves, houts⟩
    intro wire hwire
    rw [← hpair wire hwire, hstart wire hwire]
    exact getElem?_eq_some_valueOf (hmem wire hwire)
  · rintro ⟨pair, hpair, hsolves, houts⟩
    have hread : ∀ wire ∈ circuit.inputs, wire ∈ inputPairs :=
      fun wire hwire => mem_of_getElem? (hpair wire hwire)
    refine ⟨_, ⟨hread, rfl⟩,
      (verifyRun_eq_ok_iff hmemStart).mpr ⟨pair, ?_, hsolves, houts⟩⟩
    intro wire hwire
    rw [hstart wire hwire, valueOf, hpair wire hwire, Option.getD_some]

/-- The gates are verified exactly if the pairs of the inputs can be continued
to pairs under which the tables realize them. -/
theorem verifyGates_eq_ok_iff (hsize : scheme.cipherSize = 32) :
    circuit.verifyGates garbled executor scheme inputPairs = .ok outs ↔
      garbled.topology.gates = circuit.gates.map Gate.toGateWiring ∧
        garbled.tables.length = circuit.gates.length ∧
        ∃ pair : WireId → KeyPair,
          (∀ wire ∈ circuit.inputs, inputPairs[wire]? = some (pair wire)) ∧
          circuit.RealizedBy scheme garbled.tables pair ∧
          circuit.outputs.map pair = outs := by
  rw [verifyGates_eq_ok_iff_solves]
  constructor
  · rintro ⟨⟨hgates, htables⟩, pair, hpair, hsolves, houts⟩
    obtain ⟨hwirings, hrealized⟩ :=
      (solves_verifyGate_iff hsize hgates htables).mp hsolves
    exact ⟨hwirings, htables, pair, hpair, hrealized, houts⟩
  · rintro ⟨hwirings, htables, pair, hpair, hrealized, houts⟩
    have hgates : garbled.topology.gates.length = circuit.gates.length := by
      rw [hwirings, List.length_map]
    exact ⟨⟨hgates, htables⟩, pair, hpair,
      (solves_verifyGate_iff hsize hgates htables).mpr
        ⟨hwirings, hrealized⟩, houts⟩

end Circuit

theorem findIdx?_fault_eq_ok_iff
    {entries : List α} {p : α → Bool} {cause : Nat → CircuitError} :
    (match entries.findIdx? p with
      | some index => Except.error (cause index)
      | none => .ok ()) = .ok () ↔ ∀ entry ∈ entries, p entry = false := by
  rw [← List.findIdx?_eq_none_iff]
  cases entries.findIdx? p <;> simp

theorem verifyTranslation_eq_ok_iff
    {translation : Translation} {pairs : List KeyPair} :
    verifyTranslation translation pairs = .ok () ↔
      translation.bits = pairs.map KeyPair.signalBit ∧
        ∀ pair ∈ pairs, pair.Opposed := by
  have hagrees : ∀ (bits : List Bool) (pairs : List KeyPair),
      (bits.length = pairs.length ∧
        ∀ entry ∈ bits.zip pairs, (!agreesWithBit entry.1 entry.2) = false) ↔
      bits = pairs.map KeyPair.signalBit ∧
        ∀ pair ∈ pairs, pair.Opposed := by
    intro bits pairs
    induction pairs generalizing bits with
    | nil => simp
    | cons pair pairs ih =>
        cases bits with
        | nil => simp
        | cons bit bits =>
            have hrest := ih bits
            simp only [List.length_cons, List.zip_cons_cons,
              List.forall_mem_cons, List.map_cons, List.cons.injEq,
              Nat.add_right_cancel_iff] at hrest ⊢
            have hfirst : (!agreesWithBit bit pair) = false ↔
                bit = pair.signalBit ∧ pair.Opposed := by
              simp only [agreesWithBit, KeyPair.signalBit, KeyPair.Opposed]
              cases bit <;> cases pair.key0.signalBit <;>
                cases pair.key1.signalBit <;> simp
            rw [hfirst]
            tauto
  rw [← hagrees, ← Translation.length]
  unfold verifyTranslation
  split_ifs with hlength
  · simp [hlength]
  · refine findIdx?_fault_eq_ok_iff.trans ?_
    simp only [not_not.mp hlength, true_and]

theorem checkOutputPairs_eq_ok_iff {outputs kept : List KeyPair} :
    checkOutputPairs outputs kept = .ok () ↔ kept = outputs := by
  have hequal : kept = outputs ↔ kept.length = outputs.length ∧
      ∀ entry ∈ outputs.zip kept, entry.1 = entry.2 := by
    rw [eq_comm, ← List.forall₂_eq_eq_eq, List.forall₂_iff_zip, eq_comm]
    simp only [Prod.forall]
  unfold checkOutputPairs
  rw [hequal]
  split_ifs with hlength
  · simp [hlength]
  · refine findIdx?_fault_eq_ok_iff.trans ?_
    simp [not_not.mp hlength]

namespace Circuit

variable {circuit : Circuit} {executor : Executor} {scheme : Scheme}
  {garbled : GarbledCircuit} {secrets : Secrets} {outs : List KeyPair}

/-- A circuit is verified exactly if its gates are, and the translation table
and the kept keys are those of the verified pairs. -/
theorem verify_eq_ok_iff :
    circuit.verify garbled executor scheme secrets = .ok outs ↔
      circuit.verifyGates garbled executor scheme secrets.inputPairs =
          .ok outs ∧
        garbled.translation.bits = outs.map KeyPair.signalBit ∧
        (∀ pair ∈ outs, pair.Opposed) ∧ secrets.outputPairs = outs := by
  simp only [verify, bind_eq_ok_iff, exists_unit_iff,
    verifyTranslation_eq_ok_iff, checkOutputPairs_eq_ok_iff, pure_eq_ok_iff]
  constructor
  · rintro ⟨_, hgates, ⟨hbits, hopposed⟩, hkept, rfl⟩
    exact ⟨hgates, hbits, hopposed, hkept⟩
  · rintro ⟨hgates, hbits, hopposed, hkept⟩
    exact ⟨_, hgates, ⟨hbits, hopposed⟩, hkept, rfl⟩

end Circuit

end GarbledCircuits
