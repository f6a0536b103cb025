import GarbledCircuits.Gate.Basic
import Std.Data.ExtTreeSet

/-!
# Wiring up a circuit

A circuit is scanned once in the order of its gates.  The scan checks that
every wire is driven once and before it is read, and gives every gate a level:
circuit inputs have depth zero, and the outputs of a gate lie one deeper than
its deepest input.
-/

namespace GarbledCircuits

inductive WiringError
  | duplicateWire (wire : WireId)
  | duplicateGateNumber (gate : GateNumber)
  | unresolvedInput (gate : GateNumber) (wire : WireId)
  | unknownOutput (wire : WireId)
  deriving DecidableEq, Repr

namespace WiringError

def fault (_ : WiringError) : Fault := .malformedInput

def message : WiringError → String
  | duplicateWire wire => s!"Wire {wire} is driven more than once"
  | duplicateGateNumber gate => s!"Gate number {gate} is used more than once"
  | unresolvedInput gate wire =>
      s!"Gate {gate} reads wire {wire} before it is produced"
  | unknownOutput wire =>
      s!"Output wire {wire} is neither an input nor produced by a gate"

end WiringError

/-- The indices of gates by level. -/
abbrev Levels := List (List Nat)

/-- Put a gate at the end of the level with the given depth. -/
def Levels.place (index : Nat) : Nat → Levels → Levels
  | 0, [] => [[index]]
  | 0, level :: levels => (level ++ [index]) :: levels
  | depth + 1, [] => [] :: place index depth []
  | depth + 1, level :: levels => level :: place index depth levels

/-- What a scan knows after some gates. -/
structure Scan where
  /-- The depth of every wire that is driven. -/
  depth : WireMap Nat
  numbers : Std.ExtTreeSet GateNumber
  levels : Levels

namespace Scan

def drive (value : Nat) (depth : WireMap Nat) (wire : WireId) :
    Except WiringError (WireMap Nat) :=
  if depth.contains wire then .error (.duplicateWire wire)
  else .ok (depth.insert wire value)

/-- Read a wire; the deepest one counts. -/
def deepen (depth : WireMap Nat) (gate : GateNumber) (deepest : Nat)
    (wire : WireId) : Except WiringError Nat :=
  match depth[wire]? with
  | some value => .ok (max deepest value)
  | none => .error (.unresolvedInput gate wire)

def start (inputs : List WireId) : Except WiringError Scan := do
  let depth ← inputs.foldlM (drive 0) ∅
  return ⟨depth, ∅, []⟩

def gate (scan : Scan) (index : Nat) (wiring : GateWiring) :
    Except WiringError Scan := do
  if scan.numbers.contains wiring.number then
    throw (.duplicateGateNumber wiring.number)
  let deepest ← wiring.inputs.foldlM (deepen scan.depth wiring.number) 0
  let depth ← wiring.outputs.foldlM (drive (deepest + 1)) scan.depth
  return {
    depth := depth
    numbers := scan.numbers.insert wiring.number
    levels := Levels.place index deepest scan.levels }

/-- Scan gates of which the first has number `index`. -/
def gates (scan : Scan) (index : Nat) :
    List GateWiring → Except WiringError Scan
  | [] => .ok scan
  | wiring :: rest => do
      let scan ← scan.gate index wiring
      scan.gates (index + 1) rest

end Scan

/-- The levels of a circuit, if it is wired up well. -/
def schedule (partyInputs : List (List WireId)) (gates : List GateWiring)
    (outputs : List WireId) : Except WiringError Levels := do
  let start ← Scan.start partyInputs.flatten
  let scan ← start.gates 0 gates
  match outputs.find? fun wire => ¬scan.depth.contains wire with
  | some wire => throw (.unknownOutput wire)
  | none => return scan.levels

end GarbledCircuits
