import GarbledCircuits.Proofs.Gate.Encoding
import Mathlib.Data.Nat.Bitwise

/-!
# Masked rows

Adding a mask to the bits of a row adds the position of the mask to the number
of the row.  So every mask permutes the rows and is undone by being added
again, and the bits of a row address the bit of a truth table that the row has
there.
-/

namespace GarbledCircuits

theorem xorBits_append_singleton
    {bits mask : List Bool} (hlength : bits.length = mask.length)
    (bit flag : Bool) :
    xorBits (bits ++ [bit]) (mask ++ [flag]) =
      xorBits bits mask ++ [bit ^^ flag] := by
  unfold xorBits
  rw [List.zipWith_append hlength]
  rfl

theorem two_mul_xor_add (a b : Nat) (bit flag : Bool) :
    2 * (a ^^^ b) + (bit ^^ flag).toNat =
      (2 * a + bit.toNat) ^^^ (2 * b + flag.toNat) := by
  have hbit := Nat.xor_bit bit a flag b
  simp only [Nat.bit_val] at hbit
  exact hbit.symm

/-- The position of masked bits is that of the bits with that of the mask
added. -/
theorem position_xorBits
    {bits mask : List Bool} (hlength : bits.length = mask.length)
    (hlimit : mask.length ≤ 64) :
    position (xorBits bits mask) = position bits ^^^ position mask := by
  induction bits using List.reverseRecOn generalizing mask with
  | nil =>
      have hmask : mask = [] := List.eq_nil_of_length_eq_zero hlength.symm
      rw [hmask]
      rfl
  | append_singleton bits bit ih =>
      cases mask using List.reverseRecOn with
      | nil => simp at hlength
      | append_singleton mask flag =>
          simp only [List.length_append, List.length_singleton,
            Nat.add_right_cancel_iff] at hlength hlimit
          have hmasked : (xorBits bits mask).length < 64 := by
            rw [length_xorBits, hlength, Nat.min_self]
            omega
          rw [xorBits_append_singleton hlength,
            position_append_of_lt _ hmasked,
            position_append_of_lt _ (by omega),
            position_append_of_lt _ (by omega), ih hlength (by omega),
            two_mul_xor_add]

/-- The row that a row is moved to by a mask. -/
def maskedRow (mask : List Bool) (row : Nat) : Nat :=
  position (xorBits (rowBits row mask.length) mask)

section

variable {mask : List Bool} {row : Nat}

theorem maskedRow_eq_xor
    (hlimit : mask.length ≤ 64) (hrow : row < 2 ^ mask.length) :
    maskedRow mask row = row ^^^ position mask := by
  rw [maskedRow, position_xorBits (length_rowBits row mask.length) hlimit,
    position_rowBits hlimit hrow]

theorem maskedRow_lt (mask : List Bool) (row : Nat) :
    maskedRow mask row < 2 ^ mask.length := by
  have hlt := position_lt (xorBits (rowBits row mask.length) mask)
  rwa [length_xorBits, length_rowBits, Nat.min_self] at hlt

theorem maskedRow_maskedRow
    (hlimit : mask.length ≤ 64) (hrow : row < 2 ^ mask.length) :
    maskedRow mask (maskedRow mask row) = row := by
  rw [maskedRow_eq_xor hlimit (maskedRow_lt mask row),
    maskedRow_eq_xor hlimit hrow, Nat.xor_xor_cancel_right]

/-- A mask permutes the rows. -/
theorem bijOn_maskedRow (hlimit : mask.length ≤ 64) :
    Set.BijOn (maskedRow mask) (Set.Iio (2 ^ mask.length))
      (Set.Iio (2 ^ mask.length)) := by
  have hmaps : Set.MapsTo (maskedRow mask) (Set.Iio (2 ^ mask.length))
      (Set.Iio (2 ^ mask.length)) :=
    fun row _ => maskedRow_lt mask row
  have hundone : Set.LeftInvOn (maskedRow mask) (maskedRow mask)
      (Set.Iio (2 ^ mask.length)) :=
    fun _ hrow => maskedRow_maskedRow hlimit hrow
  exact Set.InvOn.bijOn ⟨hundone, hundone⟩ hmaps hmaps

end

namespace Gate

variable {gate : Gate} {bits : List Bool}

theorem parts_of_build
    {number : GateNumber} {inputs outputs : List WireId}
    {truthTable : List Bool}
    (hbuild : build number inputs outputs truthTable = .ok gate) :
    gate.number = number ∧ gate.inputs = inputs ∧ gate.outputs = outputs ∧
      gate.truthTable = truthTable := by
  unfold build at hbuild
  split_ifs at hbuild
  cases hbuild
  exact ⟨rfl, rfl, rfl, rfl⟩

theorem getElem?_truthTable {row : Nat} (hrow : row < 2 ^ gate.arity) :
    gate.truthTable[row]? = some (gate.truthBit row) := by
  have hindex : row < gate.truthTable.length :=
    hrow.trans_eq gate.length_truthTable.symm
  rw [truthBit, List.getD_eq_getElem?_getD, List.getElem?_eq_getElem hindex,
    Option.getD_some]

/-- As many bits as there are inputs spell a row of the truth table. -/
theorem position_lt_of_length (hbits : bits.length = gate.arity) :
    position bits < 2 ^ gate.arity :=
  hbits ▸ position_lt bits

theorem compute_rowBits {row : Nat} (hrow : row < 2 ^ gate.arity) :
    gate.compute (rowBits row gate.arity) = .ok (gate.truthBit row) := by
  have harity : gate.arity < 64 := gate.arity_lt
  rw [compute_eq_ok_iff]
  exact ⟨length_rowBits row gate.arity,
    congrArg gate.truthBit (position_rowBits harity.le hrow)⟩

end Gate

/-- The bits of a row and its number stand for one another, and adding a mask
to the bits adds its position to the number.  A gate that is built has one to
63 inputs, looks up one entry of its truth table for as many bits as it has
inputs, and none for other bits, and finds the bit of a row by the bits of the
row. -/
theorem rows_addressed_by_bits :
    (∀ arity, 1 ≤ arity → arity ≤ 63 →
      (∀ row < 2 ^ arity, position (rowBits row arity) = row) ∧
      (∀ bits : List Bool, bits.length = arity →
        rowBits (position bits) arity = bits) ∧
      ∀ mask : List Bool, mask.length = arity →
        (∀ row < 2 ^ arity,
          position (xorBits (rowBits row arity) mask) =
              row ^^^ position mask ∧
            row ^^^ position mask < 2 ^ arity ∧
            maskedRow mask row = row ^^^ position mask ∧
            maskedRow mask (maskedRow mask row) = row) ∧
          Set.BijOn (maskedRow mask) (Set.Iio (2 ^ arity))
            (Set.Iio (2 ^ arity))) ∧
      ∀ number inputs outputs truthTable gate,
        Gate.build number inputs outputs truthTable = .ok gate →
          1 ≤ inputs.length ∧ inputs.length ≤ 63 ∧
            (∀ bits : List Bool,
              (bits.length = inputs.length →
                ∃ value, truthTable[position bits]? = some value ∧
                  gate.compute bits = .ok value) ∧
              (bits.length ≠ inputs.length →
                gate.compute bits = .error
                  (.inputKeyCount number inputs.length bits.length))) ∧
            ∀ row < 2 ^ inputs.length,
              truthTable[row]? = some (gate.truthBit row) ∧
                gate.compute (rowBits row inputs.length) =
                  .ok (gate.truthBit row) := by
  constructor
  · intro arity _ harity
    have hlimit : arity ≤ 64 := by omega
    refine ⟨fun row => position_rowBits hlimit, ?_, ?_⟩
    · rintro bits rfl
      exact rowBits_position hlimit
    · rintro mask rfl
      refine ⟨?_, bijOn_maskedRow hlimit⟩
      intro row hrow
      have hxor := maskedRow_eq_xor hlimit hrow
      exact ⟨hxor, hxor ▸ maskedRow_lt mask row, hxor,
        maskedRow_maskedRow hlimit hrow⟩
  · intro number inputs outputs truthTable gate hbuild
    obtain ⟨rfl, rfl, _, rfl⟩ := Gate.parts_of_build hbuild
    refine ⟨gate.arity_pos, Nat.le_of_lt_succ gate.arity_lt, ?_, ?_⟩
    · intro bits
      constructor
      · intro hbits
        exact ⟨_, Gate.getElem?_truthTable (Gate.position_lt_of_length hbits),
          Gate.compute_eq_ok_iff.mpr ⟨hbits, rfl⟩⟩
      · intro hbits
        exact if_pos hbits
    · intro row hrow
      exact ⟨Gate.getElem?_truthTable hrow, Gate.compute_rowBits hrow⟩

/-- The mask of row five takes row six, and back to it, to row three. -/
theorem rows_addressed_by_bits_inverter :
    position (rowBits 6 3) = 6 ∧
      maskedRow [true, false, true] 6 = 3 ∧
      maskedRow [true, false, true] 3 = 6 ∧
      Gate.build 0 [0] [1] [true, false] = .ok Gate.inverter ∧
      Gate.inverter.compute (rowBits 1 1) = .ok false := by
  obtain ⟨hrows, hgates⟩ := rows_addressed_by_bits
  obtain ⟨hposition, _, hmask⟩ := hrows 3 (by decide) (by decide)
  obtain ⟨hmasked, _⟩ := hmask [true, false, true] rfl
  obtain ⟨_, _, hmove, hback⟩ := hmasked 6 (by decide)
  have hmoved : maskedRow [true, false, true] 6 = 3 := hmove.trans (by decide)
  have hbuild : Gate.build 0 [0] [1] [true, false] = .ok Gate.inverter := rfl
  obtain ⟨_, _, _, hcompute⟩ := hgates 0 [0] [1] [true, false] _ hbuild
  exact ⟨hposition 6 (by decide), hmoved, hmoved ▸ hback, hbuild,
    (hcompute 1 (by decide)).2⟩

end GarbledCircuits
