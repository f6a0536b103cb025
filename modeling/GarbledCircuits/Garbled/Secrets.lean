import GarbledCircuits.Circuit.Basic
import GarbledCircuits.Garbled.Commitment
import GarbledCircuits.Table.Translation

/-!
# What the garbler keeps

The garbler knows both keys of every input and output wire.  An evaluator gets
one key for each input wire, chosen by the bit of its party.
-/

namespace GarbledCircuits

abbrev ActiveKeys := WireMap WireKey

structure Secrets where
  partyInputs : List (List WireId)
  inputPairs : WireMap KeyPair
  outputPairs : List KeyPair
  translation : Translation

instance : DecidableEq Secrets := fun a b =>
  decidable_of_iff
    (a.partyInputs = b.partyInputs ∧ a.inputPairs = b.inputPairs ∧
      a.outputPairs = b.outputPairs ∧ a.translation = b.translation) (by
    cases a
    cases b
    simp)

namespace Secrets

def commitments (secrets : Secrets) : Commitments :=
  .ofPairs secrets.outputPairs

def inputKey (secrets : Secrets) :
    WireId × Bool → Except CircuitError (WireId × WireKey)
  | (wire, bit) => do
      let pair ← valueAt secrets.inputPairs wire
      return (wire, pair.select bit)

/-- The keys of a party's input wires for its bits. -/
def inputKeys (secrets : Secrets) (party : Nat) (bits : List Bool) :
    Except CircuitError ActiveKeys :=
  match secrets.partyInputs[party]? with
  | none => .error (.unknownParty party secrets.partyInputs.length)
  | some wires => do
      if wires.length ≠ bits.length then
        throw (.inputLengthMismatch party wires.length bits.length)
      let entries ← (wires.zip bits).mapM secrets.inputKey
      return assign ∅ entries

end Secrets

end GarbledCircuits
