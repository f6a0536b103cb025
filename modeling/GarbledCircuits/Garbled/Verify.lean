import GarbledCircuits.Garbled.Evaluate
import GarbledCircuits.Gate.Verify

/-!
# Verifying a garbled circuit

Given both keys of every circuit input, the gates are verified level by level
against those of the plain circuit, which gives both keys of every wire.  The
translation table and the garbler's own output keys must agree with them.
-/

namespace GarbledCircuits

namespace Circuit

def checkGateCounts (circuit : Circuit) (garbled : GarbledCircuit) :
    Except CircuitError Unit :=
  let gates := circuit.gates.length
  let wirings := garbled.topology.gates.length
  if wirings ≠ gates then .error (.gateCountMismatch gates wirings)
  else if garbled.tables.length ≠ gates then
    .error (.gateCountMismatch gates garbled.tables.length)
  else .ok ()

def verifyGate (circuit : Circuit) (garbled : GarbledCircuit)
    (scheme : Scheme) :
    (Nat × Gate) × List KeyPair → Except CircuitError KeyPair
  | ((index, gate), pairs) =>
      match garbled.topology.gates[index]?, garbled.tables[index]? with
      | some wiring, some table =>
          CircuitError.ofGate (wiring.verify gate scheme table pairs)
      | _, _ =>
          .error (.gateCountMismatch circuit.gates.length
            garbled.tables.length)

def verifyLevel (circuit : Circuit) (garbled : GarbledCircuit)
    (executor : Executor) (scheme : Scheme) (pairs : WireMap KeyPair)
    (level : List Nat) : Except CircuitError (WireMap KeyPair) :=
  runLevel executor (fun entry : Nat × Gate => entry.2.toGateWiring)
    (circuit.verifyGate garbled scheme) pairs (gatesAt circuit.gates level)

/-- The pair of every output wire, from the pairs of the input wires; the
translation table is not looked at. -/
def verifyGates (circuit : Circuit) (garbled : GarbledCircuit)
    (executor : Executor) (scheme : Scheme) (inputPairs : WireMap KeyPair) :
    Except CircuitError (List KeyPair) := do
  circuit.checkGateCounts garbled
  let inputs ← circuit.inputs.mapM fun wire => do
    let pair ← valueAt inputPairs wire
    return (wire, pair)
  let pairs ← circuit.levels.foldlM
    (circuit.verifyLevel garbled executor scheme) (assign ∅ inputs)
  circuit.outputs.mapM (valueAt pairs)

end Circuit

/-- The key for false carries the bit and the key for true its opposite. -/
def agreesWithBit (bit : Bool) (pair : KeyPair) : Bool :=
  pair.key0.signalBit == bit && pair.key1.signalBit != bit

/-- Every pair of outputs carries the bit of the translation table. -/
def verifyTranslation (translation : Translation) (pairs : List KeyPair) :
    Except CircuitError Unit :=
  if translation.length ≠ pairs.length then
    .error (.outputCountMismatch pairs.length translation.length)
  else
    match (translation.bits.zip pairs).findIdx? fun (bit, pair) =>
        !agreesWithBit bit pair with
    | some index => .error (.translationMismatch index)
    | none => .ok ()

/-- The output pairs are the ones that the garbler kept. -/
def checkOutputPairs (outputs kept : List KeyPair) :
    Except CircuitError Unit :=
  if kept.length ≠ outputs.length then
    .error (.outputCountMismatch outputs.length kept.length)
  else
    match (outputs.zip kept).findIdx? fun (pair, other) => pair ≠ other with
    | some index => .error (.outputKeysMismatch index)
    | none => .ok ()

/-- Verify gates, translation table and output keys of an opened garbling. -/
def Circuit.verify (circuit : Circuit) (garbled : GarbledCircuit)
    (executor : Executor) (scheme : Scheme) (secrets : Secrets) :
    Except CircuitError (List KeyPair) := do
  let outputs ←
    circuit.verifyGates garbled executor scheme secrets.inputPairs
  verifyTranslation garbled.translation outputs
  checkOutputPairs outputs secrets.outputPairs
  return outputs

/-- Verifies garblings of one circuit under one scheme. -/
structure Verifier where
  circuit : Circuit
  scheme : Scheme
  executor : Executor

namespace Verifier

def setUp (settings : Settings) (machine : Machine) (circuit : Circuit)
    (scheme : Scheme) : Except CircuitError Verifier := do
  let executor ← settings.setUp machine scheme
  return ⟨circuit, scheme, executor⟩

def verifyGates (verifier : Verifier) (garbled : GarbledCircuit)
    (inputPairs : WireMap KeyPair) : Except CircuitError (List KeyPair) :=
  verifier.circuit.verifyGates garbled verifier.executor verifier.scheme
    inputPairs

def verify (verifier : Verifier) (garbled : GarbledCircuit)
    (secrets : Secrets) : Except CircuitError (List KeyPair) :=
  verifier.circuit.verify garbled verifier.executor verifier.scheme secrets

end Verifier

end GarbledCircuits
