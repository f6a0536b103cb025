import GarbledCircuits.Gate.Garbling

/-!
# Verifying a garbled gate

Given both keys of every input, all rows of a table are opened.  The table is
a garbling of the plain gate if rows with the same truth bit hold the same
key, and the two keys make an opposed pair.
-/

namespace GarbledCircuits

/-- The output keys that have been met so far. -/
structure MetKeys where
  key0 : Option WireKey := none
  key1 : Option WireKey := none

namespace MetKeys

def get (met : MetKeys) (value : Bool) : Option WireKey :=
  if value then met.key1 else met.key0

def set (met : MetKeys) (value : Bool) (key : WireKey) : MetKeys :=
  if value then { met with key1 := some key }
  else { met with key0 := some key }

/-- The opposed pair of the keys that have been met. -/
def pair (met : MetKeys) (gate : GateNumber) : Except GateError KeyPair :=
  match met.key0, met.key1 with
  | some key0, some key1 =>
      if key0 = key1 then .error (.degenerateOutput gate)
      else if key0.signalBit = key1.signalBit then
        .error (.collidingSignalBits gate)
      else .ok ⟨key0, key1⟩
  | _, _ => .error (.constantTruthTable gate)

end MetKeys

/-- A row that does not open is the garbler's fault; any other fault of the
cipher is passed on. -/
def openingFault (gate : GateNumber) (row : Nat) : CipherError → GateError
  | .integrityCheckFailed => .undecryptableRow gate row
  | cause => .cipher gate cause

namespace GateWiring

def checkMatches (wiring : GateWiring) (plain : Gate) :
    Except GateError Unit :=
  if wiring.number ≠ plain.number then
    .error (.gateNumberMismatch wiring.number plain.number)
  else if wiring.inputs ≠ plain.inputs then
    .error (.inputWiresMismatch wiring.number wiring.inputs plain.inputs)
  else if wiring.outputs ≠ plain.outputs then
    .error (.outputWiresMismatch wiring.number wiring.outputs plain.outputs)
  else .ok ()

def checkOpposed (wiring : GateWiring) (pairs : List KeyPair) :
    Except GateError Unit :=
  match (wiring.inputs.zip pairs).find? fun (_, pair) => ¬pair.Opposed with
  | some (wire, pair) =>
      .error (.wire (.inconsistentSignalBit wire pair.signalBit))
  | none => .ok ()

/-- Open a plain row and compare its key with those met before. -/
def verifyRow (wiring : GateWiring) (plain : Gate) (scheme : Scheme)
    (table : Table) (pairs : List KeyPair) (met : MetKeys) (row : Nat) :
    Except GateError MetKeys := do
  let gate := wiring.number
  let keys := selectKeys pairs (rowBits row wiring.arity)
  let masked := signalBits keys
  let session ← GateError.ofCipher gate (rowSession scheme gate keys masked)
  match table.row (position masked) with
  | none => throw (.undecryptableRow gate row)
  | some sealedRow =>
      let payload ←
        (session.decrypt sealedRow).mapError (openingFault gate row)
      let key ← keyOfPayload gate payload
      let value := plain.truthBit row
      match met.get value with
      | none => return met.set value key
      | some expected =>
          if expected ≠ key then throw (.inconsistentRows gate value)
          return met

/-- The output pair that a table encodes for the plain gate. -/
def verify (wiring : GateWiring) (plain : Gate) (scheme : Scheme)
    (table : Table) (pairs : List KeyPair) : Except GateError KeyPair := do
  let gate := wiring.number
  wiring.checkMatches plain
  checkInputCount gate wiring.arity pairs.length
  wiring.checkOpposed pairs
  checkCapacity gate wiring.arity scheme.tweakSize
  checkShape gate table plain.rowCount scheme.cipherSize
  let met ← (List.range plain.rowCount).foldlM
    (wiring.verifyRow plain scheme table pairs) {}
  met.pair gate

end GateWiring

end GarbledCircuits
