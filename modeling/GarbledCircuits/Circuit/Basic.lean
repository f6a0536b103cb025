import GarbledCircuits.Circuit.Error

/-!
# Boolean circuits

A circuit has the input wires of its parties, gates in an order in which every
wire is driven before it is read, and output wires.  The levels of a circuit
are pinned to its wiring: they are what the scan of the gates gives.

A circuit is computed in the clear on one bit for each input wire of each
party, one gate after the other in declared order.
-/

namespace GarbledCircuits

/-- What is public about a circuit. -/
structure Topology where
  partyInputs : List (List WireId)
  gates : List GateWiring
  outputs : List WireId
  levels : Levels
  deriving DecidableEq

namespace Topology

def rowCounts (topology : Topology) : List Nat :=
  topology.gates.map GateWiring.rows

def inputWires (topology : Topology) (party : Nat) :
    Except CircuitError (List WireId) :=
  match topology.partyInputs[party]? with
  | some wires => .ok wires
  | none => .error (.unknownParty party topology.partyInputs.length)

end Topology

structure Circuit where
  partyInputs : List (List WireId)
  gates : List Gate
  outputs : List WireId
  levels : Levels
  scheduled :
    schedule partyInputs (gates.map Gate.toGateWiring) outputs = .ok levels
  deriving DecidableEq

namespace Circuit

def build (partyInputs : List (List WireId)) (gates : List Gate)
    (outputs : List WireId) : Except WiringError Circuit :=
  match hlevels :
      schedule partyInputs (gates.map Gate.toGateWiring) outputs with
  | .ok levels => .ok ⟨partyInputs, gates, outputs, levels, hlevels⟩
  | .error cause => .error cause

def topology (circuit : Circuit) : Topology where
  partyInputs := circuit.partyInputs
  gates := circuit.gates.map Gate.toGateWiring
  outputs := circuit.outputs
  levels := circuit.levels

/-- All input wires, party by party. -/
def inputs (circuit : Circuit) : List WireId :=
  circuit.partyInputs.flatten

end Circuit

def valueAt (values : WireMap α) (wire : WireId) : Except CircuitError α :=
  match values[wire]? with
  | some value => .ok value
  | none => .error (.missingInput wire)

/-- The gates at some indices, with their indices. -/
def gatesAt (gates : List γ) (indices : List Nat) : List (Nat × γ) :=
  indices.filterMap fun index => (gates[index]?).map (index, ·)

/-- Give all of some wires one value. -/
def assignAll (values : WireMap α) (wires : List WireId) (value : α) :
    WireMap α :=
  wires.foldl (fun values wire => values.insert wire value) values

/-! ## Computing in the clear -/

def assign (values : WireMap α) (entries : List (WireId × α)) : WireMap α :=
  entries.foldl (fun values (wire, value) => values.insert wire value) values

namespace Circuit

/-- Give the inputs of parties, of which the first has number `party`, their
bits. -/
def assignInputs (party : Nat) (values : WireMap Bool) :
    List (List WireId) → List (List Bool) →
      Except CircuitError (WireMap Bool)
  | wires :: parties, bits :: rest =>
      if wires.length ≠ bits.length then
        .error (.inputLengthMismatch party wires.length bits.length)
      else
        assignInputs (party + 1) (assign values (wires.zip bits)) parties rest
  | _, _ => .ok values

def computeGate (values : WireMap Bool) (gate : Gate) :
    Except CircuitError (WireMap Bool) := do
  let bits ← gate.inputs.mapM (valueAt values)
  let value ← CircuitError.ofGate (gate.compute bits)
  return assignAll values gate.outputs value

/-- The output bits for the bits of every party. -/
def compute (circuit : Circuit) (bits : List (List Bool)) :
    Except CircuitError (List Bool) := do
  if bits.length ≠ circuit.partyInputs.length then
    throw (.unknownParty bits.length circuit.partyInputs.length)
  let inputs ← assignInputs 0 ∅ circuit.partyInputs bits
  let values ← circuit.gates.foldlM computeGate inputs
  circuit.outputs.mapM (valueAt values)

end Circuit

end GarbledCircuits
