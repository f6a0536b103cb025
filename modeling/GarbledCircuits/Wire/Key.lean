import GarbledCircuits.Bytes.Endian
import GarbledCircuits.Bytes.Hex

/-!
# Wire keys

A wire key is a word of 128 bits, written as sixteen bytes with the most
significant first.  Its lowest bit is the signal bit.  Keys are added modulo
two, and read as elements of GF(2^128) they can be doubled.
-/

namespace GarbledCircuits

structure WireKey where
  bits : BitVec 128
  deriving DecidableEq, Inhabited

namespace WireKey

def size : Nat := 16

def zero : WireKey := ⟨0⟩

/-! ## Bytes -/

def toBytes (key : WireKey) : List UInt8 :=
  BigEndian.encode size key.bits.toNat

/-- The key that the last sixteen bytes of a byte string denote. -/
def ofBytes (bytes : List UInt8) : WireKey :=
  ⟨BitVec.ofNat 128 (BigEndian.decode bytes)⟩

def ofBytes? (bytes : List UInt8) : Option WireKey :=
  if bytes.length = size then some (ofBytes bytes) else none

@[simp] theorem length_toBytes (key : WireKey) :
    key.toBytes.length = size := by
  simp [toBytes]

theorem decode_toBytes (key : WireKey) :
    BigEndian.decode key.toBytes = key.bits.toNat := by
  have hbits : key.bits.toNat < 2 ^ 128 := key.bits.isLt
  rw [toBytes, BigEndian.decode_encode]
  exact Nat.mod_eq_of_lt hbits

@[simp] theorem ofBytes_toBytes (key : WireKey) :
    ofBytes key.toBytes = key := by
  rw [ofBytes, decode_toBytes, BitVec.ofNat_toNat, BitVec.setWidth_eq]

theorem toBytes_ofBytes {bytes : List UInt8} (hlength : bytes.length = size) :
    (ofBytes bytes).toBytes = bytes := by
  have hlt := BigEndian.decode_lt bytes
  rw [hlength] at hlt
  have hbits :
      (BitVec.ofNat 128 (BigEndian.decode bytes)).toNat =
        BigEndian.decode bytes := by
    rw [BitVec.toNat_ofNat]
    exact Nat.mod_eq_of_lt hlt
  unfold ofBytes toBytes
  rw [hbits, ← hlength]
  exact BigEndian.encode_decode bytes

@[simp] theorem ofBytes?_toBytes (key : WireKey) :
    ofBytes? key.toBytes = some key := by
  simp [ofBytes?]

theorem toBytes_of_ofBytes? {bytes : List UInt8} {key : WireKey}
    (hkey : ofBytes? bytes = some key) : key.toBytes = bytes := by
  unfold ofBytes? at hkey
  split at hkey
  next hlength =>
    cases hkey
    exact toBytes_ofBytes hlength
  next => cases hkey

theorem toBytes_injective {key other : WireKey}
    (hbytes : key.toBytes = other.toBytes) : key = other := by
  rw [← ofBytes_toBytes key, hbytes, ofBytes_toBytes]

/-! ## Signal bit -/

def signalBit (key : WireKey) : Bool :=
  key.bits.getLsbD 0

/-- The key with its signal bit replaced and its other bits kept. -/
def withSignalBit (key : WireKey) (bit : Bool) : WireKey :=
  ⟨(key.bits &&& ~~~(1#128)) ||| (BitVec.ofBool bit).setWidth 128⟩

@[simp] theorem signalBit_withSignalBit (key : WireKey) (bit : Bool) :
    (key.withSignalBit bit).signalBit = bit := by
  cases bit <;> simp [withSignalBit, signalBit]

/-! ## Arithmetic -/

instance : XorOp WireKey where
  xor key other := ⟨key.bits ^^^ other.bits⟩

theorem bits_xor (key other : WireKey) :
    (key ^^^ other).bits = key.bits ^^^ other.bits :=
  rfl

theorem toBytes_xor (key other : WireKey) :
    (key ^^^ other).toBytes =
      List.zipWith (· ^^^ ·) key.toBytes other.toBytes := by
  rw [toBytes, bits_xor, BitVec.toNat_xor, BigEndian.encode_xor]
  rfl

/-- Multiplication by `x` modulo `x^128 + x^7 + x^2 + x + 1`, where bit `i` is
the coefficient of `x^i`. -/
def double (key : WireKey) : WireKey :=
  ⟨(key.bits <<< 1) ^^^ (if key.bits.msb then 0x87#128 else 0)⟩

/-! ## Text -/

def hex (key : WireKey) : String :=
  Hex.render key.toBytes

def describe (key : WireKey) : String :=
  "S(" ++ key.hex ++ ")"

end WireKey

end GarbledCircuits
