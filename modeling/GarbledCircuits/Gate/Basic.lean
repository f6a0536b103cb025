import GarbledCircuits.Gate.Error
import GarbledCircuits.Gate.Function
import GarbledCircuits.Gate.Rows

/-!
# Gates

The wiring of a gate is public: its number, its ordered inputs and the outputs
that all carry its value.  A gate adds a truth table that is not constant,
with one bit for each row.
-/

namespace GarbledCircuits

/-- What is public about a gate. -/
structure GateWiring where
  number : GateNumber
  inputs : List WireId
  outputs : List WireId
  deriving DecidableEq, Inhabited

namespace GateWiring

def arity (wiring : GateWiring) : Nat :=
  wiring.inputs.length

/-- The count of rows in a garbled table; the largest word where there are
more than a word can count. -/
def rows (wiring : GateWiring) : Nat :=
  if wiring.arity < 64 then 2 ^ wiring.arity else wordLimit - 1

end GateWiring

structure Gate extends GateWiring where
  truthTable : List Bool
  inputs_ne_nil : inputs ≠ []
  outputs_ne_nil : outputs ≠ []
  arity_lt : inputs.length < 64
  length_truthTable : truthTable.length = 2 ^ inputs.length
  /-- Both values occur. -/
  mem_truthTable : ∀ value : Bool, value ∈ truthTable
  deriving DecidableEq

namespace Gate

def build (number : GateNumber) (inputs outputs : List WireId)
    (truthTable : List Bool) : Except GateError Gate :=
  if hinputs : inputs = [] then .error (.noInputs number)
  else if houtputs : outputs = [] then .error (.noOutputs number)
  else if harity : inputs.length < 64 then
    if hlength : truthTable.length = 2 ^ inputs.length then
      if hvalues : true ∈ truthTable ∧ false ∈ truthTable then
        .ok {
          number := number
          inputs := inputs
          outputs := outputs
          truthTable := truthTable
          inputs_ne_nil := hinputs
          outputs_ne_nil := houtputs
          arity_lt := harity
          length_truthTable := hlength
          mem_truthTable := by
            intro value
            cases value with
            | false => exact hvalues.2
            | true => exact hvalues.1 }
      else .error (.constantTruthTable number)
    else
      .error
        (.truthTableLength number (2 ^ inputs.length) truthTable.length)
  else .error (.tooManyInputs number inputs.length)

def ofFunction (function : GateFunction) (number : GateNumber)
    (inputs : List WireId) (output : WireId) : Except GateError Gate :=
  build number inputs [output] function.truthTable

def and (number : GateNumber) (a b output : WireId) : Except GateError Gate :=
  ofFunction .and number [a, b] output

def xor (number : GateNumber) (a b output : WireId) : Except GateError Gate :=
  ofFunction .xor number [a, b] output

def not (number : GateNumber) (a output : WireId) : Except GateError Gate :=
  ofFunction .not number [a] output

def rowCount (gate : Gate) : Nat :=
  gate.truthTable.length

/-- The value of a gate on a row. -/
def truthBit (gate : Gate) (row : Nat) : Bool :=
  gate.truthTable.getD row false

/-- The output wire whose keys a garbled table holds. -/
def firstOutput (gate : Gate) : WireId :=
  gate.outputs.head gate.outputs_ne_nil

def compute (gate : Gate) (bits : List Bool) : Except GateError Bool :=
  if bits.length ≠ gate.arity then
    .error (.inputKeyCount gate.number gate.arity bits.length)
  else .ok (gate.truthBit (position bits))

theorem rows_eq_rowCount (gate : Gate) : gate.rows = gate.rowCount := by
  have harity : gate.toGateWiring.arity < 64 := gate.arity_lt
  rw [GateWiring.rows, if_pos harity, rowCount, gate.length_truthTable,
    GateWiring.arity]

end Gate

end GarbledCircuits
