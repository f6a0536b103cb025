import GarbledCircuits.Garbled.Circuit
import GarbledCircuits.Garbled.Secrets
import GarbledCircuits.Garbled.Settings
import GarbledCircuits.Gate.Garbling
import GarbledCircuits.Random.WordStream

/-!
# Garbling a circuit

Every circuit input draws a signal bit and a pair of keys, and then every gate
draws one pair for all of its outputs.  The gates are garbled level by level,
and each table goes to the index of its gate.
-/

namespace GarbledCircuits

def WordStream.drawWires (stream : WordStream) :
    Nat → List (KeyPair × Bool) × WordStream
  | 0 => ([], stream)
  | count + 1 =>
      let (wire, stream) := stream.drawWire
      let (wires, stream) := stream.drawWires count
      (wire :: wires, stream)

def KeyStore.initAll (store : KeyStore) :
    List WireId × (KeyPair × Bool) → Except WireError KeyStore
  | (wires, pair, signalBit) =>
      wires.foldlM (fun store wire => store.init wire pair signalBit) store

namespace Circuit

/-- The wires that get one pair each time, in the order of drawing: each
circuit input, and then the outputs of each gate. -/
def pairGroups (circuit : Circuit) : List (List WireId) :=
  circuit.inputs.map (fun wire => [wire]) ++
    circuit.gates.map fun gate => gate.outputs

def issueKeys (circuit : Circuit) (stream : WordStream) :
    Except WireError KeyStore × WordStream :=
  let groups := circuit.pairGroups
  let (pairs, stream) := stream.drawWires groups.length
  ((groups.zip pairs).foldlM KeyStore.initAll .empty, stream)

def garbleEntry (scheme : Scheme) (store : KeyStore) :
    Nat × Gate → Except (Stop GateError) (Nat × Table)
  | (index, gate) => do
      let table ← gate.garble scheme store
      return (index, table)

/-- Garble the gates of one level and put their tables in place. -/
def garbleLevel (circuit : Circuit) (executor : Executor) (scheme : Scheme)
    (store : KeyStore) (slots : List (Option Table)) (level : List Nat) :
    Except (Stop GateError) (List (Option Table)) := do
  let tables ← executor.mapLevel (garbleEntry scheme store)
    (gatesAt circuit.gates level)
  return tables.foldl
    (fun slots (index, table) => slots.set index (some table)) slots

def garbleTables (circuit : Circuit) (executor : Executor) (scheme : Scheme)
    (store : KeyStore) : Except (Stop GateError) Tables := do
  let blank := List.replicate circuit.gates.length none
  let slots ←
    circuit.levels.foldlM (circuit.garbleLevel executor scheme store) blank
  return slots.filterMap id

/-- The garbled circuit and the secrets of an assignment of keys. -/
def garbleUnder (circuit : Circuit) (executor : Executor) (scheme : Scheme)
    (store : KeyStore) :
    Except (Stop CircuitError) (GarbledCircuit × Secrets) := do
  let tables ←
    (circuit.garbleTables executor scheme store).mapError (Stop.map .gate)
  let outputPairs ← Stop.ofExcept
    (CircuitError.ofWire (circuit.outputs.mapM store.pair))
  let translation : Translation := ⟨outputPairs.map KeyPair.signalBit⟩
  let inputPairs ← Stop.ofExcept
    (CircuitError.ofWire (circuit.inputs.mapM fun wire => do
      let pair ← store.pair wire
      return (wire, pair)))
  return (
    ⟨scheme.kind, scheme.cipherSize, circuit.topology, tables, translation⟩,
    ⟨circuit.partyInputs, assign ∅ inputPairs, outputPairs, translation⟩)

/-- Garble a circuit with keys from a stream, and leave the rest of the
stream. -/
def garble (circuit : Circuit) (executor : Executor) (scheme : Scheme)
    (stream : WordStream) :
    Except (Stop CircuitError) (GarbledCircuit × Secrets) × WordStream :=
  let (store, stream) := circuit.issueKeys stream
  (do
    let store ← Stop.ofExcept (CircuitError.ofWire store)
    circuit.garbleUnder executor scheme store, stream)

end Circuit

/-- Garbles one circuit under one scheme. -/
structure Garbler where
  circuit : Circuit
  scheme : Scheme
  executor : Executor

namespace Garbler

def setUp (settings : Settings) (machine : Machine) (circuit : Circuit)
    (scheme : Scheme) : Except CircuitError Garbler := do
  let executor ← settings.setUp machine scheme
  return ⟨circuit, scheme, executor⟩

def garble (garbler : Garbler) (stream : WordStream) :
    Except (Stop CircuitError) (GarbledCircuit × Secrets) × WordStream :=
  garbler.circuit.garble garbler.executor garbler.scheme stream

end Garbler

end GarbledCircuits
