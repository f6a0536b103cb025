import GarbledCircuits.Bytes.Endian

/-!
# Rows and their tweaks

A row of a gate is numbered by its input bits, the first input being the most
significant.  A row of a garbled table is found at the position that the
signal bits of the input keys spell in the same way.

The tweak of a sealed row is a sequence of 32-bit words, most significant byte
first: the number of the gate, the signal bits of the row one word each, and
zeros up to the size of a tweak.
-/

namespace GarbledCircuits

def rowBits (row arity : Nat) : List Bool :=
  (List.range arity).map fun i => row.testBit (arity - 1 - i)

/-- The position that signal bits spell, in a 64-bit word. -/
def position (bits : List Bool) : Nat :=
  bits.foldl (fun sum bit => (2 * sum + bit.toNat) % UInt64.size) 0

@[simp] theorem length_rowBits (row arity : Nat) :
    (rowBits row arity).length = arity := by
  simp [rowBits]

/-- Add up two lists of bits modulo two, place by place. -/
def xorBits (bits mask : List Bool) : List Bool :=
  List.zipWith Bool.xor bits mask

/-! ## Tweaks -/

def tweakWord : Nat := 4

/-- The most inputs for which a tweak has words. -/
def maxArity (tweakSize : Nat) : Nat :=
  tweakSize / tweakWord - 1

/-- The words of signal bits that fit a tweak. -/
def tweakBits (masked : List Bool) (tweakSize : Nat) : List UInt8 :=
  (masked.take (maxArity tweakSize)).flatMap fun bit =>
    BigEndian.encode tweakWord bit.toNat

/-- The tweak of a gate number and signal bits; bits without a word are left
out. -/
def tweak (number : UInt32) (masked : List Bool) (tweakSize : Nat) :
    List UInt8 :=
  let words :=
    BigEndian.encode tweakWord number.toNat ++ tweakBits masked tweakSize
  words ++ List.replicate (tweakSize - words.length) 0

theorem length_tweakBits_le (masked : List Bool) (tweakSize : Nat) :
    (tweakBits masked tweakSize).length ≤ tweakWord * maxArity tweakSize := by
  simp only [tweakBits, List.length_flatMap, BigEndian.length_encode,
    List.map_const', List.sum_replicate_nat, List.length_take]
  rw [Nat.mul_comm tweakWord]
  exact Nat.mul_le_mul_right _ (Nat.min_le_left _ _)

/-- A tweak with room for its gate number has exactly the size of a tweak. -/
theorem length_tweak (number : UInt32) (masked : List Bool)
    {tweakSize : Nat} (hsize : tweakWord ≤ tweakSize) :
    (tweak number masked tweakSize).length = tweakSize := by
  have hbits := length_tweakBits_le masked tweakSize
  unfold tweakWord at hsize
  simp only [tweakWord, maxArity] at hbits
  simp only [tweak, tweakWord, List.length_append, BigEndian.length_encode,
    List.length_replicate]
  omega

end GarbledCircuits
