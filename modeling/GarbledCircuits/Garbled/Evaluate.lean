import GarbledCircuits.Garbled.Circuit
import GarbledCircuits.Garbled.Secrets
import GarbledCircuits.Garbled.Settings
import GarbledCircuits.Gate.Garbling

/-!
# Evaluating a garbled circuit

From one key for each circuit input, the gates are evaluated level by level.
-/

namespace GarbledCircuits

namespace GarbledCircuit

def checkTableCount (garbled : GarbledCircuit) : Except CircuitError Unit :=
  let gates := garbled.topology.gates.length
  if garbled.tables.length ≠ gates then
    .error (.gateCountMismatch gates garbled.tables.length)
  else .ok ()

def tableAt (garbled : GarbledCircuit) (index : Nat) :
    Except CircuitError Table :=
  match garbled.tables[index]? with
  | some table => .ok table
  | none =>
      .error (.gateCountMismatch garbled.topology.gates.length
        garbled.tables.length)

/-- The output key of a gate for given input keys. -/
def evaluateGate (garbled : GarbledCircuit) (scheme : Scheme) :
    (Nat × GateWiring) × List WireKey → Except CircuitError WireKey
  | ((index, wiring), keys) => do
      let table ← garbled.tableAt index
      CircuitError.ofGate (wiring.evaluate scheme table keys)

def evaluateLevel (garbled : GarbledCircuit) (executor : Executor)
    (scheme : Scheme) (keys : ActiveKeys) (level : List Nat) :
    Except CircuitError ActiveKeys :=
  runLevel executor (fun entry : Nat × GateWiring => entry.2)
    (garbled.evaluateGate scheme) keys (gatesAt garbled.topology.gates level)

/-- The key of every output wire, from a key for every input wire. -/
def evaluate (garbled : GarbledCircuit) (executor : Executor)
    (scheme : Scheme) (keys : ActiveKeys) :
    Except CircuitError (List WireKey) := do
  garbled.checkTableCount
  let keys ← garbled.topology.levels.foldlM
    (garbled.evaluateLevel executor scheme) keys
  garbled.topology.outputs.mapM (valueAt keys)

end GarbledCircuit

/-- Evaluates garbled circuits of one scheme. -/
structure Evaluator where
  scheme : Scheme
  executor : Executor

namespace Evaluator

def setUp (settings : Settings) (machine : Machine) (scheme : Scheme) :
    Except CircuitError Evaluator := do
  let executor ← settings.setUp machine scheme
  return ⟨scheme, executor⟩

def evaluate (evaluator : Evaluator) (garbled : GarbledCircuit)
    (keys : ActiveKeys) : Except CircuitError (List WireKey) :=
  garbled.evaluate evaluator.executor evaluator.scheme keys

end Evaluator

end GarbledCircuits
