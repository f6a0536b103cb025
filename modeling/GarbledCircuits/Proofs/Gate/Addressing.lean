import GarbledCircuits.Gate.Rows
import Mathlib.Tactic

/-!
# Rows and positions

The bits of a row and the position that bits spell are inverse to each other
up to 64 bits.  Both are read from the last bit, which is the least
significant one.
-/

namespace GarbledCircuits

theorem rowBits_succ (row arity : Nat) :
    rowBits row (arity + 1) =
      rowBits (row / 2) arity ++ [row.testBit 0] := by
  have hhigh : ∀ i ∈ List.range arity,
      row.testBit (arity - i) = (row / 2).testBit (arity - 1 - i) := by
    intro i hi
    rw [List.mem_range] at hi
    have hindex : arity - i = arity - 1 - i + 1 := by omega
    rw [hindex, Nat.testBit_succ]
  simp only [rowBits, List.range_succ, List.map_append, List.map_cons,
    List.map_nil, Nat.add_sub_cancel, Nat.sub_self]
  rw [List.map_congr_left hhigh]

theorem position_append_singleton (bits : List Bool) (bit : Bool) :
    position (bits ++ [bit]) =
      (2 * position bits + bit.toNat) % UInt64.size := by
  simp [position]

theorem position_lt (bits : List Bool) :
    position bits < 2 ^ bits.length := by
  induction bits using List.reverseRecOn with
  | nil => simp [position]
  | append_singleton bits bit ih =>
      have hbit : bit.toNat ≤ 1 := Bool.toNat_le bit
      have hmod : (2 * position bits + bit.toNat) % UInt64.size ≤
          2 * position bits + bit.toNat := Nat.mod_le _ _
      rw [position_append_singleton, List.length_append,
        List.length_singleton, Nat.pow_succ]
      omega

/-- No bit is lost while there are at most 64 of them. -/
theorem position_append_of_lt
    {bits : List Bool} (bit : Bool) (hlength : bits.length < 64) :
    position (bits ++ [bit]) = 2 * position bits + bit.toNat := by
  have hbit : bit.toNat ≤ 1 := Bool.toNat_le bit
  have hlt := position_lt bits
  have hpow : 2 ^ bits.length ≤ 2 ^ 63 :=
    Nat.pow_le_pow_right (by decide) (by omega)
  have hsize : UInt64.size = 2 * 2 ^ 63 := by decide
  rw [position_append_singleton, Nat.mod_eq_of_lt]
  omega

theorem rowBits_position
    {bits : List Bool} (hlength : bits.length ≤ 64) :
    rowBits (position bits) bits.length = bits := by
  induction bits using List.reverseRecOn with
  | nil => rfl
  | append_singleton bits bit ih =>
      simp only [List.length_append, List.length_singleton] at hlength ⊢
      have hquotient : (2 * position bits + bit.toNat) / 2 =
          position bits := by
        have hbit : bit.toNat ≤ 1 := Bool.toNat_le bit
        omega
      have hlast : (2 * position bits + bit.toNat).testBit 0 = bit := by
        cases bit <;> simp [Nat.testBit_zero]
      rw [position_append_of_lt bit (by omega), rowBits_succ, hquotient,
        hlast, ih (by omega)]

theorem position_rowBits
    {row arity : Nat} (harity : arity ≤ 64) (hrow : row < 2 ^ arity) :
    position (rowBits row arity) = row := by
  induction arity generalizing row with
  | zero =>
      have hzero : row = 0 := by simpa using hrow
      simp [hzero, rowBits, position]
  | succ arity ih =>
      rw [Nat.pow_succ] at hrow
      have hlast : (row.testBit 0).toNat = row % 2 := by
        rw [Nat.testBit_zero]
        rcases Nat.mod_two_eq_zero_or_one row with hmod | hmod <;>
          simp [hmod]
      rw [rowBits_succ, position_append_of_lt _ (by simp; omega),
        ih (by omega) (by omega), hlast]
      omega

theorem position_injective
    {bits other : List Bool} (hlength : bits.length ≤ 64)
    (hother : other.length = bits.length)
    (hposition : position bits = position other) : bits = other := by
  rw [← rowBits_position hlength, hposition, ← hother,
    rowBits_position (by omega)]

/-! ## Masks -/

@[simp] theorem length_xorBits (bits mask : List Bool) :
    (xorBits bits mask).length = min bits.length mask.length := by
  simp [xorBits]

theorem xorBits_xorBits
    {bits mask : List Bool} (hlength : bits.length = mask.length) :
    xorBits (xorBits bits mask) mask = bits := by
  induction bits generalizing mask with
  | nil => simp [xorBits]
  | cons bit bits ih =>
      cases mask with
      | nil => simp at hlength
      | cons flag mask =>
          have hrest : xorBits (xorBits bits mask) mask = bits :=
            ih (by simpa using hlength)
          simp only [xorBits, List.zipWith_cons_cons] at hrest ⊢
          rw [hrest, Bool.xor_assoc, Bool.xor_self, Bool.xor_false]

theorem eq_of_xorBits_eq
    {bits other mask : List Bool} (hbits : bits.length = mask.length)
    (hother : other.length = mask.length)
    (hmasked : xorBits bits mask = xorBits other mask) : bits = other := by
  rw [← xorBits_xorBits hbits, hmasked, xorBits_xorBits hother]

/-- Under any mask, different rows have different bits. -/
theorem row_eq_of_masked_eq
    {arity row line : Nat} {mask : List Bool} (harity : arity ≤ 64)
    (hmask : mask.length = arity) (hrow : row < 2 ^ arity)
    (hline : line < 2 ^ arity)
    (hmasked : xorBits (rowBits row arity) mask =
      xorBits (rowBits line arity) mask) : row = line := by
  have hlength : ∀ row, (rowBits row arity).length = mask.length := by
    intro row
    rw [length_rowBits, hmask]
  rw [← position_rowBits harity hrow,
    eq_of_xorBits_eq (hlength row) (hlength line) hmasked,
    position_rowBits harity hline]

end GarbledCircuits
