import GarbledCircuits.Garbled.Garble
import GarbledCircuits.Proofs.Garbled.Soundness

/-!
# What verification does not look at

Verification compares gates, tables, translation table and output keys.  Of a
topology this fixes everything but the declared interface: the input wires of
the parties and the output wires.  A circuit that declares other outputs is
accepted all the same, and evaluates to its own outputs.
-/

namespace GarbledCircuits

open Outcome

namespace Circuit

variable {circuit : Circuit} {executor : Executor} {scheme : Scheme}
  {garbled : GarbledCircuit} {secrets : Secrets} {outs : List KeyPair}

def withOutputs (circuit : Circuit) (outputs : List WireId)
    (houtputs : ∀ wire ∈ outputs, wire ∈ circuit.wires) : Circuit where
  partyInputs := circuit.partyInputs
  gates := circuit.gates
  outputs := outputs
  levels := circuit.levels
  scheduled := schedule_of_outputs_driven circuit.scheduled houtputs

/-- Of the topology, verification reads the gates alone. -/
theorem verify_withTopology
    {topology : Topology} (hgates : topology.gates = garbled.topology.gates) :
    circuit.verify { garbled with topology := topology } executor scheme
      secrets = circuit.verify garbled executor scheme secrets := by
  obtain ⟨_, _, ⟨_, _, _, _⟩, _, _⟩ := garbled
  obtain ⟨_, _, _, _⟩ := topology
  cases hgates
  rfl

theorem gates_eq_of_verify
    (hverify : circuit.verify garbled executor scheme secrets = .ok outs) :
    garbled.topology.gates = circuit.topology.gates := by
  obtain ⟨hgates, _⟩ := verify_eq_ok_iff.mp hverify
  obtain ⟨⟨hcount, _⟩, _, _, hsolves, _⟩ :=
    verifyGates_eq_ok_iff_solves.mp hgates
  exact gates_eq_of_solves hcount hsolves

/-- Circuits with the same gates differ in their interfaces only. -/
theorem topology_eq_of_gates_eq
    {other : Circuit} (hgates : other.topology.gates = circuit.topology.gates) :
    other.topology = { circuit.topology with
      partyInputs := other.partyInputs
      outputs := other.outputs } := by
  have hwirings : other.gates.map Gate.toGateWiring =
      circuit.gates.map Gate.toGateWiring := hgates
  have hscheduled := other.scheduled
  rw [hwirings] at hscheduled
  have hlevels := levels_eq_of_schedule hscheduled circuit.scheduled
  simp only [topology, hwirings, hlevels]

end Circuit

theorem GarbledCircuit.evaluate_withTopology
    {garbled : GarbledCircuit} {executor : Executor} {scheme : Scheme}
    {keys : ActiveKeys}
    {topology : Topology} (hgates : topology.gates = garbled.topology.gates)
    (hlevels : topology.levels = garbled.topology.levels)
    (houtputs : topology.outputs = garbled.topology.outputs) :
    ({ garbled with topology := topology } : GarbledCircuit).evaluate executor
      scheme keys = garbled.evaluate executor scheme keys := by
  obtain ⟨_, _, ⟨_, _, _, _⟩, _, _⟩ := garbled
  obtain ⟨_, _, _, _⟩ := topology
  cases hgates
  cases hlevels
  cases houtputs
  rfl

/-- A realized circuit can be evaluated for other outputs. -/
theorem Circuit.RealizedBy.evaluate_outputs
    {circuit : Circuit} {executor : Executor} {scheme : Scheme}
    {garbled : GarbledCircuit} {pair : WireId → KeyPair}
    (hsize : scheme.cipherSize = 32)
    (hrealized : circuit.RealizedBy scheme garbled.tables pair)
    (hcount : garbled.tables.length = circuit.gates.length)
    (hgates : garbled.topology.gates = circuit.topology.gates)
    (hlevels : garbled.topology.levels = circuit.topology.levels)
    (houtputs : ∀ wire ∈ garbled.topology.outputs, wire ∈ circuit.wires)
    {value : WireId → Bool} (hcomputes : circuit.Computes value)
    {keys : ActiveKeys} (hkeys : ∀ wire ∈ circuit.inputs,
      keys[wire]? = some ((pair wire).select (value wire))) :
    garbled.evaluate executor scheme keys =
      .ok (selectKeys (garbled.topology.outputs.map pair)
        (garbled.topology.outputs.map value)) := by
  let own := circuit.withOutputs garbled.topology.outputs houtputs
  let rewired : GarbledCircuit := { garbled with topology := own.topology }
  have hrewired : rewired.evaluate executor scheme keys =
      garbled.evaluate executor scheme keys :=
    GarbledCircuit.evaluate_withTopology hgates.symm hlevels.symm rfl
  have htopology : rewired.topology = own.topology := rfl
  rw [← hrewired]
  exact GarbledCircuit.evaluate_of_realizedBy hsize htopology hcount hrealized
    hcomputes hkeys

/-- A garbled circuit is verified exactly if it is one of the plain circuit
but for its interface.  The interface is bound only if the topologies are the
same, and evaluation gives the keys of whatever outputs are declared. -/
theorem verify_eq_ok_iff_but_interface
    {circuit other : Circuit} {executor : Executor} {scheme : Scheme}
    {garbled : GarbledCircuit} {secrets : Secrets} {outs : List KeyPair}
    (hother : garbled.topology = other.topology) :
    (circuit.verify garbled executor scheme secrets = .ok outs ↔
        (∃ partyInputs outputs, garbled.topology = { circuit.topology with
          partyInputs := partyInputs
          outputs := outputs }) ∧
        circuit.verify { garbled with topology := circuit.topology } executor
          scheme secrets = .ok outs) ∧
      (circuit.verify garbled executor scheme secrets = .ok outs →
        (garbled.topology.partyInputs = circuit.partyInputs ∧
            garbled.topology.outputs = circuit.outputs ↔
          garbled.topology = circuit.topology)) ∧
      (scheme.cipherSize = 32 →
        circuit.verify garbled executor scheme secrets = .ok outs →
        (∀ wire ∈ garbled.topology.outputs, wire ∈ circuit.wires) →
        ∃ pair : WireId → KeyPair, circuit.outputs.map pair = outs ∧
          ∀ bits, circuit.Fits bits →
            ∃ entries value,
              circuit.Carries value bits ∧ circuit.Computes value ∧
              (circuit.inputs.zip bits.flatten).mapM secrets.inputKey =
                .ok entries ∧
              ∀ evaluator,
                garbled.evaluate evaluator scheme (assign ∅ entries) =
                  .ok (selectKeys (garbled.topology.outputs.map pair)
                    (garbled.topology.outputs.map value))) := by
  have hinterface : garbled.topology.gates = circuit.topology.gates →
      garbled.topology = { circuit.topology with
        partyInputs := other.partyInputs
        outputs := other.outputs } := by
    rw [hother]
    exact Circuit.topology_eq_of_gates_eq
  refine ⟨⟨?_, ?_⟩, ?_, ?_⟩
  · intro hverify
    have hgates := Circuit.gates_eq_of_verify hverify
    refine ⟨⟨_, _, hinterface hgates⟩, ?_⟩
    rw [Circuit.verify_withTopology hgates.symm, hverify]
  · rintro ⟨⟨_, _, htopology⟩, hverify⟩
    have hgates : garbled.topology.gates = circuit.topology.gates := by
      rw [htopology]
    rwa [Circuit.verify_withTopology hgates.symm] at hverify
  · intro hverify
    constructor
    · rintro ⟨hinputs, houtputs⟩
      rw [hother] at hinputs houtputs
      have hparties : other.partyInputs = circuit.partyInputs := hinputs
      have hdeclared : other.outputs = circuit.outputs := houtputs
      rw [hinterface (Circuit.gates_eq_of_verify hverify), hparties, hdeclared]
      rfl
    · intro htopology
      rw [htopology]
      exact ⟨rfl, rfl⟩
  · intro hsize hverify houtputs
    have hgates := Circuit.gates_eq_of_verify hverify
    have hlevels : garbled.topology.levels = circuit.topology.levels := by
      rw [hinterface hgates]
    obtain ⟨hverifyGates, _⟩ := Circuit.verify_eq_ok_iff.mp hverify
    obtain ⟨_, hcount, pair, hpairs, hrealized, houts⟩ :=
      (Circuit.verifyGates_eq_ok_iff hsize).mp hverifyGates
    refine ⟨pair, houts, ?_⟩
    intro bits hfits
    obtain ⟨value, hcarries, hcomputes⟩ := hfits.exists_computes
    have hentries := mapM_inputKey_eq_ok hpairs value
    rw [← hcarries.zip_eq] at hentries
    refine ⟨_, value, hcarries, hcomputes, hentries, ?_⟩
    intro evaluator
    exact hrealized.evaluate_outputs hsize hcount hgates hlevels houtputs
      hcomputes fun wire hwire => getElem?_assign_map
        (fun wire => (pair wire).select (value wire)) hwire

/-- The gate of the inverter, with its input for an output. -/
def Circuit.bypass : Circuit :=
  Circuit.inverter.withOutputs [0]
    (List.forall_mem_singleton.mpr List.mem_cons_self)

def GarbledCircuit.bypass : GarbledCircuit :=
  { GarbledCircuit.inverter with topology := Circuit.bypass.topology }

theorem verify_eq_ok_iff_but_interface_bypass :
    GarbledCircuit.bypass.topology = Circuit.bypass.topology ∧
      Circuit.inverter.verify .bypass .sequential .transparent .inverter =
        .ok [.unit] ∧
      (∃ partyInputs outputs, GarbledCircuit.bypass.topology =
        { Circuit.inverter.topology with
          partyInputs := partyInputs
          outputs := outputs }) ∧
      ∃ pair : WireId → KeyPair,
        Circuit.inverter.outputs.map pair = [.unit] ∧
        ∀ bits, Circuit.inverter.Fits bits →
          ∃ entries value,
            Circuit.inverter.Carries value bits ∧
            Circuit.inverter.Computes value ∧
            (Circuit.inverter.inputs.zip bits.flatten).mapM
              Secrets.inverter.inputKey = .ok entries ∧
            ∀ evaluator,
              GarbledCircuit.bypass.evaluate evaluator .transparent
                  (assign ∅ entries) =
                .ok (selectKeys ([0].map pair) ([0].map value)) := by
  have hverify : Circuit.inverter.verify .bypass .sequential .transparent
      .inverter = .ok [.unit] := by decide +kernel
  have houtputs : ∀ wire ∈ GarbledCircuit.bypass.topology.outputs,
      wire ∈ Circuit.inverter.wires :=
    List.forall_mem_singleton.mpr List.mem_cons_self
  obtain ⟨haccepted, _, hevaluates⟩ := verify_eq_ok_iff_but_interface
    (rfl : GarbledCircuit.bypass.topology = Circuit.bypass.topology)
  exact ⟨rfl, hverify, (haccepted.mp hverify).1,
    hevaluates rfl hverify houtputs⟩

/-- Garbled from one stream, the bypass is verified as the inverter, but it
decodes a bit to itself. -/
theorem exists_verify_other_outputs :
    ∃ garbled secrets foreign honest outs keys results,
      (Circuit.bypass.garble .sequential .transparent ⟨fun _ => 0, 0⟩).1 =
          .ok (garbled, foreign) ∧
        (Circuit.inverter.garble .sequential .transparent
          ⟨fun _ => 0, 0⟩).1 = .ok (honest, secrets) ∧
        Circuit.inverter.verify garbled .sequential .transparent secrets =
          .ok outs ∧
        garbled.topology.outputs ≠ Circuit.inverter.outputs ∧
        secrets.inputKeys 0 [false] = .ok keys ∧
        garbled.evaluate .sequential .transparent keys = .ok results ∧
        translate results garbled.translation = .ok [false] ∧
        Circuit.inverter.compute [[false]] = .ok [true] := by
  refine ⟨.bypass, .inverter, .inverter, .inverter, [.unit],
    assign ∅ [(0, ⟨0⟩)], [⟨0⟩], ?_, ?_, ?_, ?_, ?_, ?_, ?_, ?_⟩
  all_goals decide +kernel

end GarbledCircuits
