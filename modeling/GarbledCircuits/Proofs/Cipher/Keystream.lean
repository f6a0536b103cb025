import GarbledCircuits.Proofs.Cipher.Codec
import GarbledCircuits.Proofs.Wire.Residue

/-!
# The keystream in closed form

Block `j` of the keystream over a fixed permutation `π` is `π X + X`, where the
residue of `X` is that of multi-key and tweak, multiplied by `x ^ j`.  No byte
depends on how many are asked for.  So a short keystream begins every longer
one, and rows of all sizes take their pad and tag key from one stream.
-/

namespace GarbledCircuits

theorem WireKey.residue_iterate_double (key : WireKey) (j : ℕ) :
    (double^[j] key).residue =
      AdjoinRoot.root modulus ^ j * key.residue := by
  induction j with
  | zero => rw [Function.iterate_zero_apply, pow_zero, one_mul]
  | succ j ih =>
      rw [Function.iterate_succ_apply', residue_double, ih, pow_succ',
        mul_assoc]

theorem Scheme.payloadPad_append_tagKey
    (scheme : Scheme) (key : MultiKey) (tweak : List UInt8) :
    scheme.payloadPad key tweak ++ scheme.tagKey key tweak =
      (scheme.keystream key tweak
        (scheme.payloadSize + tagKeySize)).toList :=
  List.take_append_drop ..

namespace FixedKey

open WireKey

variable {permutation : WireKey → WireKey} {key : MultiKey}
  {material tweak : List UInt8}

theorem firstBlock_eq_xor
    (hmaterial : material.length = WireKey.size)
    (htweak : tweak.length = WireKey.size) :
    firstBlock material tweak = ofBytes material ^^^ ofBytes tweak := by
  have hbytes : (ofBytes material ^^^ ofBytes tweak).toBytes =
      List.zipWith (· ^^^ ·) material tweak := by
    rw [toBytes_xor, toBytes_ofBytes hmaterial, toBytes_ofBytes htweak]
  have hlength :
      (List.zipWith (· ^^^ ·) material tweak).length = WireKey.size := by
    rw [← hbytes, length_toBytes]
  rw [firstBlock, List.take_of_length_le hlength.le, hlength, Nat.sub_self,
    List.replicate_zero, List.append_nil, ← hbytes, ofBytes_toBytes]

/-- Block `j` of the keystream whose first block belongs to `x`. -/
def padBlock (permutation : WireKey → WireKey) (x : WireKey) (j : ℕ) :
    WireKey :=
  permutation (double^[j] x) ^^^ double^[j] x

theorem getElem?_padBlocks
    {x : WireKey} {count i : ℕ} (hi : i < WireKey.size * count) :
    (padBlocks permutation x count)[i]? =
      (padBlock permutation x
        (i / WireKey.size)).toBytes[i % WireKey.size]? := by
  induction count generalizing x i with
  | zero => simp at hi
  | succ count ih =>
      rw [padBlocks]
      by_cases hfirst : i < WireKey.size
      · rw [List.getElem?_append_left (by rwa [length_toBytes]),
          Nat.div_eq_of_lt hfirst, Nat.mod_eq_of_lt hfirst]
        rfl
      · -- Every later block is one of the blocks from the doubled `x` on.
        obtain ⟨rest, rfl⟩ := Nat.exists_eq_add_of_le' (not_lt.mp hfirst)
        have hrest : rest < WireKey.size * count := by
          rw [Nat.mul_succ] at hi
          omega
        have hblock : padBlock permutation x (rest / WireKey.size + 1) =
            padBlock permutation x.double (rest / WireKey.size) := by
          rw [padBlock, padBlock, Function.iterate_succ_apply]
        rw [List.getElem?_append_right (by rw [length_toBytes]; omega),
          length_toBytes, Nat.add_sub_cancel, ih hrest,
          Nat.add_div_right _ (by decide), Nat.add_mod_right, hblock]

theorem getElem?_keystream {size i : ℕ} (hi : i < size) :
    (keystream permutation key tweak size).toList[i]? =
      (padBlock permutation (firstBlock key.material tweak)
        (i / WireKey.size)).toBytes[i % WireKey.size]? := by
  have hblocks : i < WireKey.size * ((size + 15) / 16) := by
    unfold WireKey.size
    omega
  rw [keystream, Vector.toList_mk, List.toList_toArray,
    List.getElem?_take_of_lt hi, getElem?_padBlocks hblocks]

theorem keystream_prefix {size other : ℕ} (hsize : size ≤ other) :
    (keystream permutation key tweak size).toList <+:
      (keystream permutation key tweak other).toList := by
  rw [List.prefix_iff_getElem?]
  intro i hi
  rw [← List.getElem?_eq_getElem hi]
  rw [Vector.length_toList] at hi
  rw [getElem?_keystream hi, getElem?_keystream (hi.trans_le hsize)]

/-! ## Multi-keys and tweaks of full size -/

section

variable (permutation : WireKey → WireKey)
  (tag : List UInt8 → List UInt8 → Vector UInt8 tagSize)

/-- Pads and tag keys for rows of two sizes are cut from one stream. -/
theorem pad_withCipherSize_prefix
    (key : MultiKey) (tweak : List UInt8) {size other : ℕ}
    (hsize : size ≤ other) :
    ∃ pad tagKey wide wideTagKey,
      (⟨some key, some tweak⟩ : Session
          ((scheme permutation tag).withCipherSize size)).pad =
        .ok (pad, tagKey) ∧
      (⟨some key, some tweak⟩ : Session
          ((scheme permutation tag).withCipherSize other)).pad =
        .ok (wide, wideTagKey) ∧
      pad.length = size - tagSize ∧ tagKey.length = tagKeySize ∧
      pad ++ tagKey <+: wide ++ wideTagKey := by
  have hpayload : size - tagSize + tagKeySize ≤
      other - tagSize + tagKeySize := by omega
  refine ⟨_, _, _, _, Session.pad_eq_ok rfl rfl, Session.pad_eq_ok rfl rfl,
    Scheme.length_payloadPad .., by simp [Scheme.tagKey], ?_⟩
  rw [Scheme.payloadPad_append_tagKey, Scheme.payloadPad_append_tagKey]
  exact keystream_prefix hpayload

/-- The multi-key and the tweak are added up, and the sum is doubled from
block to block.  This gives every byte of every stream, so streams and the
pads that are cut from them differ in nothing but their sizes. -/
theorem keystream_doubles_from_block_to_block
    {key : MultiKey} {tweak : List UInt8}
    (hkey : key.material.length = WireKey.size)
    (htweak : tweak.length = WireKey.size) :
    ∃ x : ℕ → WireKey,
      (∀ j, x j = double^[j] (ofBytes key.material ^^^ ofBytes tweak)) ∧
      (∀ (j : ℕ) (y : WireKey),
        y.residue = AdjoinRoot.root modulus ^ j *
            ((ofBytes key.material).residue + (ofBytes tweak).residue) ↔
          y = x j) ∧
      (∀ size i : ℕ, i < size →
        ((scheme permutation tag).keystream key tweak size).toList[i]? =
          (permutation (x (i / WireKey.size)) ^^^
            x (i / WireKey.size)).toBytes[i % WireKey.size]?) ∧
      (∀ size other : ℕ, size ≤ other →
        ((scheme permutation tag).keystream key tweak size).toList <+:
          ((scheme permutation tag).keystream key tweak other).toList) ∧
      ∀ size other : ℕ, size ≤ other →
        ∃ pad tagKey wide wideTagKey,
          (⟨some key, some tweak⟩ : Session
              ((scheme permutation tag).withCipherSize size)).pad =
            .ok (pad, tagKey) ∧
          (⟨some key, some tweak⟩ : Session
              ((scheme permutation tag).withCipherSize other)).pad =
            .ok (wide, wideTagKey) ∧
          pad.length = size - tagSize ∧ tagKey.length = tagKeySize ∧
          pad ++ tagKey <+: wide ++ wideTagKey := by
  refine ⟨fun j => double^[j] (ofBytes key.material ^^^ ofBytes tweak),
    fun _ => rfl, ?_, ?_, fun _ _ => keystream_prefix,
    fun _ _ => pad_withCipherSize_prefix permutation tag key tweak⟩
  · intro j y
    rw [← residue_xor, ← residue_iterate_double]
    exact residue_injective.eq_iff
  · intro size i hi
    rw [← firstBlock_eq_xor hkey htweak]
    exact getElem?_keystream hi

end

/-- The polynomial `x ^ 127`, which overflows when it is doubled. -/
def highestKey : MultiKey :=
  ⟨0x80 :: List.replicate 15 0⟩

/-- The second block of the stream is cut off after four bytes. -/
theorem keystream_doubles_from_block_to_block_overflow :
    highestKey.material.length = WireKey.size ∧
      (List.replicate 16 0 : List UInt8).length = WireKey.size ∧
      (Scheme.fixedKeyAes.keystream highestKey
          (List.replicate 16 0) 20).toList[17]? =
        (permuteBlock ⟨0x87⟩ ^^^ ⟨0x87⟩).toBytes[1]? ∧
      (Scheme.fixedKeyAes.keystream highestKey
          (List.replicate 16 0) 20).toList <+:
        (Scheme.fixedKeyAes.keystream highestKey
          (List.replicate 16 0) 48).toList := by
  have hkey : highestKey.material.length = WireKey.size := by decide
  have htweak : (List.replicate 16 0 : List UInt8).length =
      WireKey.size := by decide
  obtain ⟨x, hx, _, hbytes, hprefix, _⟩ :=
    keystream_doubles_from_block_to_block permuteBlock Blake3.tag hkey htweak
  have hsecond : x 1 = ⟨0x87⟩ := by
    rw [hx]
    decide
  have hblock : 17 / WireKey.size = 1 := rfl
  have hbyte := hbytes 20 17 (by decide)
  rw [hblock, hsecond] at hbyte
  exact ⟨hkey, htweak, hbyte, hprefix 20 48 (by decide)⟩

end FixedKey

end GarbledCircuits
