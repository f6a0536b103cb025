import GarbledCircuits.Cipher.Scheme
import GarbledCircuits.Primitive.Aes128
import GarbledCircuits.Primitive.Blake3

/-!
# The scheme over a fixed permutation

The keys `k₀, …, kₙ₋₁` of a row are joined to `2ⁿ k₀ + … + 2 kₙ₋₁` in
GF(2^128), so their order counts.  Block `j` of the keystream is `π X + X` for
`X` the sum of multi-key and tweak doubled `j` times.
-/

namespace GarbledCircuits.FixedKey

/-- The weighted sum of keys; the last one is doubled once. -/
def combine (keys : List WireKey) : WireKey :=
  (keys.foldl (fun sum key => sum.double ^^^ key) WireKey.zero).double

/-- The first block: the sum of multi-key and tweak, and zero where either
has no byte. -/
def firstBlock (material tweak : List UInt8) : WireKey :=
  let sum := (List.zipWith (· ^^^ ·) material tweak).take WireKey.size
  WireKey.ofBytes
    (sum ++ List.replicate (WireKey.size - sum.length) 0)

/-- The blocks of the keystream from the one that belongs to `x`. -/
def padBlocks (permutation : WireKey → WireKey) (x : WireKey) :
    Nat → List UInt8
  | 0 => []
  | count + 1 =>
      (permutation x ^^^ x).toBytes ++ padBlocks permutation x.double count

@[simp] theorem length_padBlocks (permutation : WireKey → WireKey)
    (x : WireKey) (count : Nat) :
    (padBlocks permutation x count).length = WireKey.size * count := by
  induction count generalizing x with
  | zero => rfl
  | succ count ih =>
      simp only [padBlocks, List.length_append, WireKey.length_toBytes, ih,
        WireKey.size]
      omega

def keystream (permutation : WireKey → WireKey) (key : MultiKey)
    (tweak : List UInt8) (size : Nat) : Vector UInt8 size :=
  let blocks :=
    padBlocks permutation (firstBlock key.material tweak) ((size + 15) / 16)
  ⟨(blocks.take size).toArray, by
    simp only [blocks, List.size_toArray, List.length_take, length_padBlocks,
      WireKey.size]
    omega⟩

/-- The scheme over any permutation and any tag. -/
def scheme (permutation : WireKey → WireKey)
    (tag : List UInt8 → List UInt8 → Vector UInt8 tagSize) : Scheme where
  kind := .fixedKeyAes
  join := fun keys => (combine keys).toBytes
  keystream := keystream permutation
  tag := tag

/-- The public key of the permutation. -/
def fixedSchedule : Aes128.Schedule :=
  .ofKey (Vector.replicate 16 0x42)

/-- AES-128 under the public key. -/
def permuteBlock (block : WireKey) : WireKey :=
  let bytes : Aes128.Block := ⟨block.toBytes.toArray, by simp [WireKey.size]⟩
  WireKey.ofBytes (fixedSchedule.permute bytes).toList

end FixedKey

/-- The keyed hash of a sealed payload, cut to the size of a tag. -/
def Blake3.tag (key payload : List UInt8) : Vector UInt8 tagSize :=
  ⟨((hashUnderKey key payload).take tagSize).toArray, by
    simp [hashUnderKey, tagSize]⟩

namespace Scheme

def fixedKeyAes : Scheme :=
  FixedKey.scheme FixedKey.permuteBlock Blake3.tag

end Scheme

end GarbledCircuits
