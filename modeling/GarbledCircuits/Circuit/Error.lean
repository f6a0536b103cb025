import GarbledCircuits.Circuit.Schedule

/-!
# Errors of descriptions, circuits and garbled circuits
-/

namespace GarbledCircuits

/-- Why a description does not describe anything. -/
inductive DescriptionError
  /-- The text is no JSON, or JSON of another form. -/
  | malformed
  | gate (cause : GateError)
  | wiring (cause : WiringError)
  deriving DecidableEq, Repr

def DescriptionError.message : DescriptionError → String
  | malformed => "invalid JSON"
  | gate cause => cause.message
  | wiring cause => cause.message

inductive CircuitError
  | gate (cause : GateError)
  | wire (cause : WireError)
  | table (cause : TableError)
  | wiring (cause : WiringError)
  | unknownParty (party parties : Nat)
  | inputLengthMismatch (party expected actual : Nat)
  | missingInput (wire : WireId)
  | gateCountMismatch (expected actual : Nat)
  | outputCountMismatch (expected actual : Nat)
  | foreignOutputKey (index : Nat)
  | translationMismatch (index : Nat)
  | outputKeysMismatch (index : Nat)
  | commitmentMismatch (index : Nat)
  | tweakSizeMismatch (configured scheme : Nat)
  | zeroThreads
  /-- There is no pool of threads, for a reason that the machine gives. -/
  | threadPool (reason : String)
  | description (cause : DescriptionError)
  deriving DecidableEq, Repr

namespace CircuitError

def fault : CircuitError → Fault
  | gate cause => cause.fault
  | wire cause => cause.fault
  | table cause => cause.fault
  | wiring cause => cause.fault
  | foreignOutputKey _ | translationMismatch _ | outputKeysMismatch _
  | commitmentMismatch _ => .cheatAttempt
  | tweakSizeMismatch .. | zeroThreads | threadPool _ => .configuration
  | unknownParty .. | inputLengthMismatch .. | missingInput _
  | gateCountMismatch .. | outputCountMismatch .. | description _ =>
      .malformedInput

def message : CircuitError → String
  | gate cause => cause.message
  | wire cause => cause.message
  | table cause => cause.message
  | wiring cause => cause.message
  | unknownParty party parties =>
      s!"Party {party} does not exist, circuit has {parties}"
  | inputLengthMismatch party expected actual =>
      s!"Party {party} owns {expected} input wires, got {actual} values"
  | missingInput id => s!"No key for input wire {id}"
  | gateCountMismatch expected actual =>
      s!"Garbled circuit has {actual} gates, circuit has {expected}"
  | outputCountMismatch expected actual =>
      s!"Expected {expected} output keys, got {actual}"
  | foreignOutputKey index =>
      s!"Output {index}: key is not one of the output wire keys"
  | translationMismatch index =>
      s!"Output {index}: keys disagree with the translation table"
  | outputKeysMismatch index =>
      s!"Output {index}: verified keys differ from the committed ones"
  | commitmentMismatch index =>
      s!"Output {index}: commitment and translation table decode " ++
        "different values"
  | tweakSizeMismatch configured scheme =>
      s!"Configured tweak size {configured} but the scheme uses {scheme}"
  | zeroThreads => "Thread count must be positive"
  | threadPool reason => s!"Thread pool: {reason}"
  | description cause => s!"Circuit description: {cause.message}"

def ofGate (result : Except GateError α) : Except CircuitError α :=
  result.mapError gate

def ofWire (result : Except WireError α) : Except CircuitError α :=
  result.mapError wire

def ofTable (result : Except TableError α) : Except CircuitError α :=
  result.mapError table

end CircuitError

end GarbledCircuits
