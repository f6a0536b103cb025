/-!
# Numbers as bytes

A big-endian number is written with a fixed count of base-256 digits, most
significant first.  The two directions are inverse on numbers that fit
(`decode_encode`) and on all byte strings (`encode_decode`).

Hash functions and stream ciphers read their input as 32-bit words whose first
byte is the least significant, and write their output the same way.
-/

-- Powers of numbers are those of core, whatever else is in scope.
attribute [instance (high)] instPowNat

namespace GarbledCircuits.BigEndian

/-- The `width` lowest base-256 digits of `value`, most significant first. -/
def encode : Nat → Nat → List UInt8
  | 0, _ => []
  | width + 1, value => encode width (value / 256) ++ [UInt8.ofNat value]

/-- The number that a byte string denotes. -/
def decode (bytes : List UInt8) : Nat :=
  bytes.foldl (fun value byte => value * 256 + byte.toNat) 0

@[simp] theorem length_encode (width value : Nat) :
    (encode width value).length = width := by
  induction width generalizing value with
  | zero => rfl
  | succ width ih => simp [encode, ih]

/-- Numbers are added modulo two byte by byte. -/
theorem encode_xor (width value other : Nat) :
    encode width (value ^^^ other) =
      List.zipWith (· ^^^ ·) (encode width value) (encode width other) := by
  induction width generalizing value other with
  | zero => rfl
  | succ width ih =>
      have hquotient : (value ^^^ other) / 256 = value / 256 ^^^ other / 256 :=
        @Nat.xor_div_two_pow value other 8
      rw [encode, encode, encode, hquotient, ih, UInt8.ofNat_xor,
        List.zipWith_append (by rw [length_encode, length_encode])]
      rfl

theorem decode_append_singleton (bytes : List UInt8) (byte : UInt8) :
    decode (bytes ++ [byte]) = decode bytes * 256 + byte.toNat := by
  simp [decode]

theorem decode_encode (width value : Nat) :
    decode (encode width value) = value % 256 ^ width := by
  induction width generalizing value with
  | zero => simp [encode, decode, Nat.mod_one]
  | succ width ih =>
      have hpow : 256 ^ (width + 1) = 256 * 256 ^ width := by
        rw [Nat.pow_succ, Nat.mul_comm]
      have hlow : (UInt8.ofNat value).toNat = value % 256 := by
        simp
      rw [encode, decode_append_singleton, ih, hlow, hpow, Nat.mod_mul]
      omega

theorem encode_injective
    {width value other : Nat} (hvalue : value < 256 ^ width)
    (hother : other < 256 ^ width)
    (hencode : encode width value = encode width other) : value = other := by
  have hdecode : decode (encode width value) = decode (encode width other) :=
    congrArg decode hencode
  rwa [decode_encode, decode_encode, Nat.mod_eq_of_lt hvalue,
    Nat.mod_eq_of_lt hother] at hdecode

private theorem encode_decode_reverse (bytes : List UInt8) :
    encode bytes.reverse.length (decode bytes.reverse) = bytes.reverse := by
  induction bytes with
  | nil => rfl
  | cons byte bytes ih =>
      have hbyte : byte.toNat < 256 := byte.toNat_lt
      have hquotient :
          (decode bytes.reverse * 256 + byte.toNat) / 256 =
            decode bytes.reverse := by
        omega
      have hlast :
          UInt8.ofNat (decode bytes.reverse * 256 + byte.toNat) = byte := by
        apply UInt8.toNat_inj.mp
        rw [UInt8.toNat_ofNat']
        omega
      simp only [List.length_reverse] at ih
      simp only [List.reverse_cons, List.length_append, List.length_reverse,
        List.length_singleton, decode_append_singleton, encode, hquotient,
        hlast, ih]

theorem encode_decode (bytes : List UInt8) :
    encode bytes.length (decode bytes) = bytes := by
  simpa using encode_decode_reverse bytes.reverse

theorem decode_lt (bytes : List UInt8) :
    decode bytes < 256 ^ bytes.length := by
  have h := decode_encode bytes.length (decode bytes)
  rw [encode_decode] at h
  rw [h]
  exact Nat.mod_lt _ (Nat.pow_pos (by decide))

end GarbledCircuits.BigEndian

namespace GarbledCircuits.LittleEndian

def bytes (word : UInt32) : List UInt8 :=
  [word.toUInt8, (word >>> 8).toUInt8, (word >>> 16).toUInt8,
    (word >>> 24).toUInt8]

/-- The word that up to four bytes denote; absent bytes count as zero. -/
def word : List UInt8 → UInt32
  | [] => 0
  | byte :: rest => byte.toUInt32 ||| (word rest <<< 8)

theorem length_bytes (word : UInt32) : (bytes word).length = 4 :=
  rfl

/-- Cut a byte string into words; the last one may be short of bytes. -/
def words (input : List UInt8) : List UInt32 :=
  match input with
  | [] => []
  | byte :: rest => word ((byte :: rest).take 4) :: words (rest.drop 3)
termination_by input.length
decreasing_by
  simp only [List.length_drop, List.length_cons]
  omega

end GarbledCircuits.LittleEndian
