import GarbledCircuits.Garbled.Evaluate
import GarbledCircuits.Proofs.Circuit.Computation
import GarbledCircuits.Proofs.Gate.Verification

/-!
# Evaluating realized circuits

Where every table realizes its gate under the pairs of its wires, evaluation
carries along each wire the key that its pair has for its bit.  The circuit is
evaluated level by level and computed in declared order, and both follow the
same assignment of bits.
-/

namespace GarbledCircuits

open Outcome

namespace Circuit

/-- Every table realizes its gate under the pairs of its wires. -/
def RealizedBy (circuit : Circuit) (scheme : Scheme) (tables : Tables)
    (pair : WireId → KeyPair) : Prop :=
  ∀ (index : Nat) (gate : Gate) (table : Table),
    circuit.gates[index]? = some gate → tables[index]? = some table →
    ∀ wire ∈ gate.outputs,
      gate.RealizedBy scheme table (gate.inputs.map pair) (pair wire)

/-- Every table evaluates the keys of its gate's inputs to those of its
outputs. -/
def EvaluatedBy (circuit : Circuit) (scheme : Scheme) (tables : Tables)
    (key : WireId → WireKey) : Prop :=
  ∀ (index : Nat) (gate : Gate) (table : Table),
    circuit.gates[index]? = some gate → tables[index]? = some table →
    ∀ wire ∈ gate.outputs,
      gate.toGateWiring.evaluate scheme table (gate.inputs.map key) =
        .ok (key wire)

/-- The gates of a garbled circuit are wirings themselves. -/
theorem exists_scheduled_topology (circuit : Circuit) :
    ∃ depth, Scheduled circuit.inputs
      ((circuit.gates.map Gate.toGateWiring).map id) circuit.outputs
      circuit.levels depth := by
  rw [List.map_id]
  exact circuit.exists_scheduled

theorem RealizedBy.exists_table
    {circuit : Circuit} {scheme : Scheme} {tables : Tables}
    {pair : WireId → KeyPair}
    (hrealized : circuit.RealizedBy scheme tables pair)
    (hcount : tables.length = circuit.gates.length) {gate : Gate}
    (hgate : gate ∈ circuit.gates) :
    ∃ table ∈ tables, ∀ wire ∈ gate.outputs,
      gate.RealizedBy scheme table (gate.inputs.map pair) (pair wire) := by
  obtain ⟨index, hindex⟩ := List.getElem?_of_mem hgate
  obtain ⟨hlt, _⟩ := List.getElem?_eq_some_iff.mp hindex
  have htable := List.getElem?_eq_getElem (hcount ▸ hlt)
  exact ⟨_, List.mem_of_getElem? htable, hrealized index gate _ hindex htable⟩

end Circuit

namespace GarbledCircuit

variable {circuit : Circuit} {executor : Executor} {scheme : Scheme}
  {garbled : GarbledCircuit} {keys : ActiveKeys} {results : List WireKey}

theorem checkTableCount_eq_ok_iff :
    garbled.checkTableCount = .ok () ↔
      garbled.tables.length = garbled.topology.gates.length := by
  simp only [checkTableCount]
  split_ifs with hcount <;> simp_all

theorem evaluateLevel_eq_runLevel
    (htopology : garbled.topology = circuit.topology) :
    garbled.evaluateLevel executor scheme = fun keys level =>
      runLevel executor (fun entry : Nat × GateWiring => entry.2)
        (garbled.evaluateGate scheme) keys
        (gatesAt (circuit.gates.map Gate.toGateWiring) level) := by
  funext keys level
  unfold evaluateLevel
  rw [htopology]
  rfl

theorem evaluateGate_eq_ok_iff
    {index : Nat} {wiring : GateWiring} {inputs : List WireKey}
    {key : WireKey} :
    garbled.evaluateGate scheme ((index, wiring), inputs) = .ok key ↔
      ∃ table, garbled.tables[index]? = some table ∧
        wiring.evaluate scheme table inputs = .ok key := by
  simp only [evaluateGate, bind_eq_ok_iff, tableAt, CircuitError.ofGate,
    mapError_eq_ok_iff]
  cases garbled.tables[index]? <;> simp

theorem evaluatedBy_iff_solves
    (hcount : garbled.tables.length = circuit.gates.length)
    {key : WireId → WireKey} :
    circuit.EvaluatedBy scheme garbled.tables key ↔
      ∀ (index : Nat) (wiring : GateWiring),
        (circuit.gates.map Gate.toGateWiring)[index]? = some wiring →
        Solves (fun entry : Nat × GateWiring => entry.2)
          (garbled.evaluateGate scheme) key (index, wiring) := by
  simp only [List.getElem?_map, Option.map_eq_some_iff, Solves,
    evaluateGate_eq_ok_iff]
  constructor
  · rintro hevaluated index _ ⟨gate, hgate, rfl⟩ wire hwire
    obtain ⟨hindex, _⟩ := List.getElem?_eq_some_iff.mp hgate
    have htable := List.getElem?_eq_getElem (hcount ▸ hindex)
    exact ⟨_, htable, hevaluated index gate _ hgate htable wire hwire⟩
  · intro hsolves index gate table hgate htable wire hwire
    obtain ⟨other, hother, hevaluate⟩ :=
      hsolves index _ ⟨gate, hgate, rfl⟩ wire hwire
    rw [htable, Option.some.injEq] at hother
    rw [hother]
    exact hevaluate

/-- Evaluation gives exactly the keys of the outputs that follow, table by
table, from those of the inputs. -/
theorem evaluate_eq_ok_iff
    (htopology : garbled.topology = circuit.topology)
    (hkeys : ∀ wire ∈ circuit.inputs, wire ∈ keys) :
    garbled.evaluate executor scheme keys = .ok results ↔
      garbled.tables.length = circuit.gates.length ∧
        ∃ key : WireId → WireKey,
          (∀ wire ∈ circuit.inputs, keys[wire]? = some (key wire)) ∧
          circuit.EvaluatedBy scheme garbled.tables key ∧
          circuit.outputs.map key = results := by
  obtain ⟨depth, hscheduled⟩ := circuit.exists_scheduled_topology
  have hdriven : ∀ wiring ∈ circuit.gates.map Gate.toGateWiring,
      (id wiring).outputs ≠ [] := by
    simp only [List.forall_mem_map]
    intro gate _
    exact gate.outputs_ne_nil
  rw [evaluate, bind_eq_ok_iff, exists_unit_iff, checkTableCount_eq_ok_iff]
  rw [evaluateLevel_eq_runLevel htopology, htopology]
  simp only [Circuit.topology, List.length_map]
  refine and_congr_right fun hcount => ?_
  simp only [evaluatedBy_iff_solves hcount]
  exact hscheduled.run_eq_ok_iff hdriven hkeys

/-- Evaluation of a realized circuit selects from the pair of every output the
key for its bit. -/
theorem evaluate_of_realizedBy
    (hsize : scheme.cipherSize = 32)
    (htopology : garbled.topology = circuit.topology)
    (hcount : garbled.tables.length = circuit.gates.length)
    {pair : WireId → KeyPair} {value : WireId → Bool}
    (hrealized : circuit.RealizedBy scheme garbled.tables pair)
    (hcomputes : circuit.Computes value)
    (hkeys : ∀ wire ∈ circuit.inputs,
      keys[wire]? = some ((pair wire).select (value wire))) :
    garbled.evaluate executor scheme keys =
      .ok (selectKeys (circuit.outputs.map pair)
        (circuit.outputs.map value)) := by
  rw [evaluate_eq_ok_iff htopology fun wire hwire =>
    mem_of_getElem? (hkeys wire hwire), selectKeys_map]
  refine ⟨hcount, _, hkeys, ?_, rfl⟩
  intro index gate table hgate htable wire hwire
  have hpart := hrealized index gate table hgate htable wire hwire
  have hbits : (gate.inputs.map value).length = gate.arity :=
    List.length_map ..
  have hevaluate := hpart.evaluate hsize (List.length_map ..) hbits
  have hvalue := hcomputes gate (List.mem_of_getElem? hgate) wire hwire
  rw [selectKeys_map, ← hvalue] at hevaluate
  exact hevaluate

end GarbledCircuit

end GarbledCircuits
