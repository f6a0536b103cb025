import GarbledCircuits.Cipher.FixedKey

/-!
# The scheme over an extendable hash

The keystream is the hash of a label, the count of keys, the keys and the
tweak.  The count of keys, in four bytes, tells where the keys end, so
different keys or tweaks never give the hash the same input.
-/

namespace GarbledCircuits.Hashed

def domain : List UInt8 :=
  "garbled-gates/blake3-row/v1".toUTF8.toList

/-- The count of keys and then the keys. -/
def frame (keys : List WireKey) : List UInt8 :=
  BigEndian.encode 4 keys.length ++ keys.flatMap WireKey.toBytes

/-- What is hashed for the keystream of a multi-key and a tweak. -/
def input (key : MultiKey) (tweak : List UInt8) : List UInt8 :=
  domain ++ key.material ++ tweak

/-- The scheme over any extendable hash and any tag. -/
def scheme (hash : List UInt8 → (size : Nat) → Vector UInt8 size)
    (tag : List UInt8 → List UInt8 → Vector UInt8 tagSize)
    (tweakSize : Nat) : Scheme where
  kind := .blake3
  tweakSize := tweakSize
  join := frame
  keystream := fun key tweak => hash (input key tweak)
  tag := tag

/-- A tweak has whole words: one for the gate number and at least one for a
signal bit. -/
def Supports (tweakSize : Nat) : Prop :=
  8 ≤ tweakSize ∧ tweakSize % 4 = 0

instance (tweakSize : Nat) : Decidable (Supports tweakSize) :=
  inferInstanceAs (Decidable (_ ∧ _))

end Hashed

def Blake3.hash (bytes : List UInt8) (size : Nat) : Vector UInt8 size :=
  ⟨(extendedHash bytes size).toArray, by simp [extendedHash]⟩

namespace Scheme

def blake3Sized (tweakSize : Nat) : Except CipherError Scheme :=
  if Hashed.Supports tweakSize then
    .ok (Hashed.scheme Blake3.hash Blake3.tag tweakSize)
  else .error (.unsupportedTweakSize tweakSize)

def blake3 : Scheme :=
  Hashed.scheme Blake3.hash Blake3.tag defaultTweakSize

end Scheme

end GarbledCircuits
