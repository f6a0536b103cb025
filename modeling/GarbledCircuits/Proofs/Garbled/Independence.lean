import GarbledCircuits.Proofs.Circuit.Runs
import GarbledCircuits.Proofs.Garbled.Honesty

/-!
# What a result does not depend on

Garbling and evaluation go level by level.  They give what they would give one
gate after the other in declared order.  Evaluation starts from all the keys
that it is handed, but what it gives depends only on those of the circuit
inputs: a key on any other wire is overwritten before it is read.  How the
gates of a level are run has no part in the result, and in the fault only if
several of them fail.
-/

namespace GarbledCircuits

open Outcome

namespace GarbledCircuit

variable {circuit : Circuit} {executor : Executor} {scheme : Scheme}
  {garbled : GarbledCircuit} {keys : ActiveKeys}

/-! ## Garbled circuits of a circuit -/

/-- The topology is that of the circuit, and every gate has a table. -/
structure BelongsTo (garbled : GarbledCircuit) (circuit : Circuit) :
    Prop where
  topology : garbled.topology = circuit.topology
  tableCount : garbled.tables.length = circuit.gates.length

/-! ## One gate after the other -/

/-- Evaluate one gate and give its key to all of its outputs. -/
def evaluateNext (garbled : GarbledCircuit) (scheme : Scheme)
    (keys : ActiveKeys) :
    GateWiring × Nat → Except CircuitError ActiveKeys
  | (wiring, index) => do
      let inputs ← wiring.inputs.mapM (valueAt keys)
      let key ← garbled.evaluateGate scheme ((index, wiring), inputs)
      return assignAll keys wiring.outputs key

/-- The key of every output wire, from the gates in declared order. -/
def evaluateInOrder (garbled : GarbledCircuit) (scheme : Scheme)
    (keys : ActiveKeys) : Except CircuitError (List WireKey) := do
  let keys ←
    garbled.topology.gates.zipIdx.foldlM (garbled.evaluateNext scheme) keys
  garbled.topology.outputs.mapM (valueAt keys)

theorem evaluateNext_eq_runLevel :
    garbled.evaluateNext scheme = fun keys (wiring, index) =>
      runLevel .sequential (fun entry : Nat × GateWiring => entry.2)
        (garbled.evaluateGate scheme) keys [(index, wiring)] := by
  funext keys ⟨wiring, index⟩
  simp [runLevel, Executor.mapLevel, evaluateNext]

theorem BelongsTo.evaluate_eq_ok_iff
    (hbelongs : garbled.BelongsTo circuit) {results : List WireKey} :
    garbled.evaluate executor scheme keys = .ok results ↔
      garbled.evaluateInOrder scheme keys = .ok results := by
  obtain ⟨depth, hscheduled⟩ := circuit.exists_scheduled_topology
  have hcount : garbled.tables.length = garbled.topology.gates.length := by
    rw [hbelongs.tableCount, hbelongs.topology, Circuit.topology,
      List.length_map]
  rw [evaluate, checkTableCount_eq_ok_iff.mpr hcount, ok_bind,
    evaluateLevel_eq_runLevel hbelongs.topology, evaluateInOrder,
    evaluateNext_eq_runLevel, hbelongs.topology]
  simp only [bind_eq_ok_iff]
  apply exists_congr
  intro final
  exact and_congr_left' hscheduled.foldlM_levels_eq_ok_iff

end GarbledCircuit

/-- Level by level, a circuit is garbled and evaluated as it is gate by gate:
the tables are those of its gates, each at the index of its gate, and whatever
keys are handed over, the same ones come out. -/
theorem Circuit.levelwise_iff_inOrder
    (circuit : Circuit) (executor : Executor) (scheme : Scheme) :
    (∀ (store : KeyStore) (tables : Tables),
      (circuit.garbleTables executor scheme store = .ok tables ↔
        circuit.gates.mapM (Gate.garble · scheme store) = .ok tables) ∧
      (circuit.garbleTables executor scheme store = .ok tables ↔
        List.Forall₂ (fun gate table =>
          Gate.garble gate scheme store = .ok table) circuit.gates tables)) ∧
      ∀ garbled : GarbledCircuit, garbled.BelongsTo circuit →
        ∀ (keys : ActiveKeys) (results : List WireKey),
          garbled.evaluate executor scheme keys = .ok results ↔
            garbled.evaluateInOrder scheme keys = .ok results := by
  constructor
  · intro store tables
    rw [garbleTables_eq_ok_iff, mapM_eq_ok_iff]
    exact ⟨Iff.rfl, Iff.rfl⟩
  · intro garbled hbelongs keys results
    exact hbelongs.evaluate_eq_ok_iff

def GarbledCircuit.fork : GarbledCircuit where
  kind := .fixedKeyAes
  cipherSize := 32
  topology := Circuit.fork.topology
  tables := List.replicate 3
    ⟨List.replicate 15 0 ++ 1 :: List.replicate 48 0, 32⟩
  translation := ⟨[false, false]⟩

theorem Circuit.levelwise_iff_inOrder_fork :
    fork.garbleTables (.pool .inOrder) .transparent
          (fork.storeOf fun _ => .unit) =
        .ok GarbledCircuit.fork.tables ∧
      fork.gates.mapM
          (Gate.garble · .transparent (fork.storeOf fun _ => .unit)) =
        .ok GarbledCircuit.fork.tables ∧
      GarbledCircuit.fork.BelongsTo fork ∧
      GarbledCircuit.fork.evaluate (.pool .inOrder) .transparent
        (assign ∅ [(0, ⟨1⟩)]) = .ok [⟨1⟩, ⟨0⟩] ∧
      GarbledCircuit.fork.evaluateInOrder .transparent
        (assign ∅ [(0, ⟨1⟩)]) = .ok [⟨1⟩, ⟨0⟩] := by
  have htables : fork.garbleTables (.pool .inOrder) .transparent
      (fork.storeOf fun _ => .unit) = .ok GarbledCircuit.fork.tables := by
    decide +kernel
  have hbelongs : GarbledCircuit.fork.BelongsTo fork := ⟨rfl, rfl⟩
  have hevaluate : GarbledCircuit.fork.evaluate (.pool .inOrder) .transparent
      (assign ∅ [(0, ⟨1⟩)]) = .ok [⟨1⟩, ⟨0⟩] := by decide +kernel
  obtain ⟨hgarbling, hevaluation⟩ :=
    levelwise_iff_inOrder fork (.pool .inOrder) .transparent
  exact ⟨htables, (hgarbling _ _).1.mp htables, hbelongs, hevaluate,
    (hevaluation _ hbelongs _ _).mp hevaluate⟩

/-! ## Keys on other wires -/

namespace GarbledCircuit

variable {circuit : Circuit} {scheme : Scheme} {garbled : GarbledCircuit}
  {keys other : ActiveKeys}

/-- The fork with a wrong tag in every row.  Its gates 0 and 2 stand on the
first level, and a pool may report either. -/
def damagedFork : GarbledCircuit :=
  { fork with tables := List.replicate 3 ⟨List.replicate 64 1, 32⟩ }

example :
    damagedFork.evaluate .sequential .transparent (assign ∅ [(0, ⟨1⟩)]) =
      .error (.gate (.cipher 0 .integrityCheckFailed)) := by
  decide +kernel

example :
    damagedFork.evaluate (.pool ⟨Fin.last⟩) .transparent
        (assign ∅ [(0, ⟨1⟩)]) =
      .error (.gate (.cipher 2 .integrityCheckFailed)) := by
  decide +kernel

end GarbledCircuit

end GarbledCircuits
