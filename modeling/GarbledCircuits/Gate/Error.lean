import GarbledCircuits.Cipher.Error
import GarbledCircuits.Table.Basic
import GarbledCircuits.Wire.Store

/-!
# Errors of gates
-/

namespace GarbledCircuits

abbrev GateNumber := UInt32

inductive GateError
  | noInputs (gate : GateNumber)
  | noOutputs (gate : GateNumber)
  | tooManyInputs (gate : GateNumber) (arity : Nat)
  | truthTableLength (gate : GateNumber) (expected actual : Nat)
  | constantTruthTable (gate : GateNumber)
  | arityExceedsTweak (gate : GateNumber) (arity tweakSize : Nat)
  | inputKeyCount (gate : GateNumber) (expected actual : Nat)
  | tableShape (gate : GateNumber)
      (expectedRows expectedRowSize actualRows actualRowSize : Nat)
  | gateNumberMismatch (garbled plain : GateNumber)
  | inputWiresMismatch (gate : GateNumber) (garbled plain : List WireId)
  | outputWiresMismatch (gate : GateNumber) (garbled plain : List WireId)
  | cipher (gate : GateNumber) (cause : CipherError)
  | wire (cause : WireError)
  | table (cause : TableError)
  | undecryptableRow (gate : GateNumber) (row : Nat)
  /-- Two rows with the same truth bit hold different keys. -/
  | inconsistentRows (gate : GateNumber) (truthBit : Bool)
  | degenerateOutput (gate : GateNumber)
  | collidingSignalBits (gate : GateNumber)
  deriving DecidableEq, Repr

namespace GateError

def fault : GateError → Fault
  | cipher _ cause => cause.fault
  | wire cause => cause.fault
  | table cause => cause.fault
  | undecryptableRow .. | inconsistentRows .. | degenerateOutput _
  | collidingSignalBits _ => .cheatAttempt
  | noInputs _ | noOutputs _ | tooManyInputs .. | truthTableLength ..
  | constantTruthTable _ | arityExceedsTweak .. | inputKeyCount ..
  | tableShape .. | gateNumberMismatch .. | inputWiresMismatch ..
  | outputWiresMismatch .. => .malformedInput

/-- The message of a mismatch between two lists of wires. -/
def wiresMessage (gate : GateNumber) (role : String)
    (garbled plain : List WireId) : String :=
  s!"Gate {gate}: {role} wires {describeWires garbled}" ++
    s!" do not match {describeWires plain}"

def message : GateError → String
  | noInputs gate => s!"Gate {gate} has no input wires"
  | noOutputs gate => s!"Gate {gate} has no output wires"
  | tooManyInputs gate arity =>
      s!"Gate {gate} has {arity} inputs, more than any truth table can address"
  | truthTableLength gate expected actual =>
      s!"Gate {gate}: truth table has {actual} rows, expected {expected}"
  | constantTruthTable gate =>
      s!"Gate {gate}: constant truth tables are not garbled"
  | arityExceedsTweak gate arity tweakSize =>
      s!"Gate {gate}: {arity} inputs do not fit a {tweakSize}-byte tweak"
  | inputKeyCount gate expected actual =>
      s!"Gate {gate}: expected {expected} input keys, got {actual}"
  | tableShape gate expectedRows expectedRowSize actualRows actualRowSize =>
      s!"Gate {gate}: garbled table holds {actualRows} rows of " ++
        s!"{actualRowSize} bytes, expected {expectedRows} of {expectedRowSize}"
  | gateNumberMismatch garbled plain =>
      s!"Garbled gate number {garbled} does not match gate {plain}"
  | inputWiresMismatch gate garbled plain =>
      wiresMessage gate "input" garbled plain
  | outputWiresMismatch gate garbled plain =>
      wiresMessage gate "output" garbled plain
  | cipher gate cause => s!"Gate {gate}: {cause.message}"
  | wire cause => cause.message
  | table cause => cause.message
  | undecryptableRow gate row =>
      s!"Gate {gate}: row {row} does not decrypt under its input keys"
  | inconsistentRows gate truthBit =>
      s!"Gate {gate}: rows with truth bit {truthBit} decrypt to different keys"
  | degenerateOutput gate =>
      s!"Gate {gate}: output 0-key and 1-key are identical"
  | collidingSignalBits gate =>
      s!"Gate {gate}: output keys carry the same signal bit"

end GateError

end GarbledCircuits
