import GarbledCircuits.Proofs.Cipher.Codec
import Mathlib.Tactic

/-!
# Reading back what is hashed

The multi-key of the hashed scheme is the count of keys and then the keys, each
of one size, so it gives the keys back.  Before a tweak of any size the count
tells where the keys end, as long as it fits its four bytes.
-/

namespace GarbledCircuits

variable {keys others : List (List UInt8)}

/-- Keys are accepted as bytes if there are any and all have the right size. -/
theorem Scheme.multiKeyOfBytes_eq_ok_iff {scheme : Scheme} {key : MultiKey} :
    scheme.multiKeyOfBytes keys = .ok key ↔
      keys ≠ [] ∧ (∀ bytes ∈ keys, bytes.length = WireKey.size) ∧
        key = ⟨scheme.join (keys.map WireKey.ofBytes)⟩ := by
  unfold multiKeyOfBytes
  split
  next bytes hfind =>
    have hwrong : bytes.length ≠ scheme.keySize :=
      of_decide_eq_true (List.find?_some hfind :)
    have hmem := List.mem_of_find?_eq_some hfind
    simp only [reduceCtorEq, false_iff]
    rintro ⟨_, hsizes, _⟩
    exact hwrong (hsizes bytes hmem)
  next hnone =>
    have hsizes : ∀ bytes ∈ keys, bytes.length = WireKey.size := by
      intro bytes hmem
      have hright := List.find?_eq_none.mp hnone bytes hmem
      exact not_not.mp fun hwrong => hright (decide_eq_true hwrong)
    rw [and_iff_right hsizes]
    cases keys with
    | nil => simp [multiKey]
    | cons first rest => simp [multiKey, eq_comm]

namespace Hashed

variable {hash : List UInt8 → (size : Nat) → Vector UInt8 size}
  {tag : List UInt8 → List UInt8 → Vector UInt8 tagSize} {tweakSize : Nat}
  {key other : MultiKey} {tweak rival : List UInt8}

/-- A multi-key is the count of some keys of the right size and the keys. -/
structure Frames (key : MultiKey) (keys : List (List UInt8)) : Prop where
  sizes : ∀ bytes ∈ keys, bytes.length = WireKey.size
  material : key.material = BigEndian.encode 4 keys.length ++ keys.flatten

theorem frames_frame (keys : List WireKey) :
    Frames ⟨frame keys⟩ (keys.map WireKey.toBytes) where
  sizes := by simp
  material := by rw [frame, List.length_map, List.flatMap_def]

theorem frames_of_multiKeyOfBytes
    (hkey : (scheme hash tag tweakSize).multiKeyOfBytes keys = .ok key) :
    Frames key keys := by
  obtain ⟨_, hsizes, rfl⟩ := Scheme.multiKeyOfBytes_eq_ok_iff.mp hkey
  have hbytes : ∀ bytes ∈ keys, (WireKey.ofBytes bytes).toBytes = bytes :=
    fun bytes hmem => WireKey.toBytes_ofBytes (hsizes bytes hmem)
  have hkeys : (keys.map WireKey.ofBytes).map WireKey.toBytes = keys := by
    rw [List.map_map]
    exact (List.map_congr_left hbytes).trans (List.map_id' keys)
  have hframes := frames_frame (keys.map WireKey.ofBytes)
  rwa [hkeys] at hframes

namespace Frames

theorem length_flatten (hkey : Frames key keys) :
    keys.flatten.length = WireKey.size * keys.length := by
  rw [List.length_flatten, List.map_congr_left hkey.sizes, List.map_const',
    List.sum_replicate_nat, Nat.mul_comm]

/-- As many keys are read back from the front of a byte string. -/
theorem eq_of_flatten_append_eq
    (hkey : Frames key keys) (hother : Frames other others)
    (hcount : keys.length = others.length)
    (hbytes : keys.flatten ++ tweak = others.flatten ++ rival) :
    keys = others ∧ tweak = rival := by
  have hlength : keys.flatten.length = others.flatten.length := by
    rw [hkey.length_flatten, hother.length_flatten, hcount]
  have hsizes : keys.map List.length = others.map List.length := by
    rw [List.map_congr_left hkey.sizes, List.map_congr_left hother.sizes,
      List.map_const', List.map_const', hcount]
  obtain ⟨hflatten, hrest⟩ := List.append_inj hbytes hlength
  exact ⟨List.eq_iff_flatten_eq.mpr ⟨hflatten, hsizes⟩, hrest⟩

/-- The size of a multi-key tells how many keys it has, even if the count is
cut to four bytes. -/
theorem unique (hkeys : Frames key keys) (hothers : Frames key others) :
    keys = others := by
  have hmaterial := hkeys.material.symm.trans hothers.material
  obtain ⟨_, hflatten⟩ := List.append_inj hmaterial (by simp)
  have hcount : keys.length = others.length := by
    have hlength := congrArg List.length hflatten
    rw [hkeys.length_flatten, hothers.length_flatten] at hlength
    exact Nat.eq_of_mul_eq_mul_left (by decide) hlength
  have hbytes : keys.flatten ++ [] = others.flatten ++ [] := by rw [hflatten]
  exact (hkeys.eq_of_flatten_append_eq hothers hcount hbytes).1

/-- Before a tweak it is the count that tells where the keys end. -/
theorem eq_of_input_eq
    (hkey : Frames key keys) (hother : Frames other others)
    (hlimit : keys.length < 2 ^ 32) (hotherLimit : others.length < 2 ^ 32)
    (hinput : input key tweak = input other rival) :
    keys = others ∧ tweak = rival := by
  simp only [input, hkey.material, hother.material, List.append_assoc,
    List.append_cancel_left_eq] at hinput
  obtain ⟨hcount, hbytes⟩ := List.append_inj hinput (by simp)
  exact hkey.eq_of_flatten_append_eq hother
    (BigEndian.encode_injective hlimit hotherLimit hcount) hbytes

end Frames

end Hashed

end GarbledCircuits
