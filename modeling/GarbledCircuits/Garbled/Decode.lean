import GarbledCircuits.Circuit.Error
import GarbledCircuits.Garbled.Commitment
import GarbledCircuits.Table.Translation

/-!
# From output keys to output bits

There are three ways to tell the bit that an output key stands for: by its
signal bit and the translation table, by the key pair of its wire, or by the
commitments to that pair.
-/

namespace GarbledCircuits

def checkOutputCount (expected actual : Nat) : Except CircuitError Unit :=
  if expected ≠ actual then .error (.outputCountMismatch expected actual)
  else .ok ()

/-- The signal bit of every key, added to the bit of the table. -/
def translate (keys : List WireKey) (translation : Translation) :
    Except CircuitError (List Bool) := do
  checkOutputCount translation.length keys.length
  return List.zipWith (fun key bit => key.signalBit ^^ bit) keys
    translation.bits

/-- Decode every output, of which the first has number `index`. -/
def decodeFrom (decode : Nat → α → Except CircuitError β) (index : Nat) :
    List α → Except CircuitError (List β)
  | [] => .ok []
  | item :: items => do
      let value ← decode index item
      let values ← decodeFrom decode (index + 1) items
      return value :: values

def decodeByPair (index : Nat) : WireKey × KeyPair → Except CircuitError Bool
  | (key, pair) =>
      match pair.decode key with
      | some value => .ok value
      | none => .error (.foreignOutputKey index)

def verifiedTranslate (keys : List WireKey) (pairs : List KeyPair) :
    Except CircuitError (List Bool) := do
  checkOutputCount pairs.length keys.length
  decodeFrom decodeByPair 0 (keys.zip pairs)

/-- The value that a key opens, which has to be the translated one. -/
def decodeByCommitment (index : Nat) :
    (WireKey × KeyCommitment) × Bool → Except CircuitError Bool
  | ((key, commitment), expected) =>
      match commitment.opens key with
      | none => .error (.foreignOutputKey index)
      | some value =>
          if value ≠ expected then .error (.commitmentMismatch index)
          else .ok value

/-- Decode keys by commitments, in agreement with the translation table. -/
def translateCommitted (keys : List WireKey) (commitments : Commitments)
    (translation : Translation) : Except CircuitError (List Bool) := do
  let translated ← translate keys translation
  checkOutputCount commitments.length keys.length
  decodeFrom decodeByCommitment 0 ((keys.zip commitments).zip translated)

end GarbledCircuits
