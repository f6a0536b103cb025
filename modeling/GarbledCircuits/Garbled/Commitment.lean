import GarbledCircuits.Primitive.Sha256
import GarbledCircuits.Wire.Pair

/-!
# Commitments to output keys

The garbler commits to both keys of an output wire by their hashes.  Whoever
holds a key can tell by the hashes which value it stands for.
-/

namespace GarbledCircuits

def commitKey (key : WireKey) : List UInt8 :=
  Sha256.digest key.toBytes

structure KeyCommitment where
  commit0 : List UInt8
  commit1 : List UInt8
  deriving DecidableEq

namespace KeyCommitment

def ofPair (pair : KeyPair) : KeyCommitment :=
  ⟨commitKey pair.key0, commitKey pair.key1⟩

def select (commitment : KeyCommitment) (value : Bool) : List UInt8 :=
  if value then commitment.commit1 else commitment.commit0

/-- The value that a key opens; false where both hashes are equal. -/
def opens (commitment : KeyCommitment) (key : WireKey) : Option Bool :=
  let hash := commitKey key
  if hash = commitment.commit0 then some false
  else if hash = commitment.commit1 then some true
  else none

def describe (commitment : KeyCommitment) : String :=
  "LabelCommit \x7b label0: 0x" ++ Hex.render commitment.commit0 ++
    ", label1: 0x" ++ Hex.render commitment.commit1 ++ " \x7d"

end KeyCommitment

abbrev Commitments := List KeyCommitment

def Commitments.ofPairs (pairs : List KeyPair) : Commitments :=
  pairs.map KeyCommitment.ofPair

end GarbledCircuits
