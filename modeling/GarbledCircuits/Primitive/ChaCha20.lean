import GarbledCircuits.Primitive.Lanes

/-!
# The ChaCha20 keystream

The keystream of a 256-bit key is a sequence of blocks of sixteen words.  A
block is a function of the key and of its number, so any word of the stream
can be read without the ones before it.
-/

namespace GarbledCircuits.ChaCha20

structure Key where
  low : Lanes
  high : Lanes

/-- A quarter round on each of the four columns. -/
def stirColumns (s : Square) : Square :=
  let a := s.a + s.b
  let d := (s.d ^^^ a).rotate 16
  let c := s.c + d
  let b := (s.b ^^^ c).rotate 12
  let a := a + b
  let d := (d ^^^ a).rotate 8
  let c := c + d
  let b := (b ^^^ c).rotate 7
  ⟨a, b, c, d⟩

/-- A round on the columns and a round on the diagonals. -/
def doubleRound (s : Square) : Square :=
  (stirColumns (stirColumns s).skew).unskew

def constants : Lanes :=
  ⟨0x61707865, 0x3320646e, 0x79622d32, 0x6b206574⟩

/-- The block with a 64-bit number, under stream number zero. -/
def block (key : Key) (number : UInt64) : Square :=
  let position : Lanes := ⟨number.toUInt32, (number >>> 32).toUInt32, 0, 0⟩
  let start : Square := ⟨constants, key.low, key.high, position⟩
  start + Nat.repeat doubleRound 10 start

/-- The word of the keystream with the given index. -/
def word (key : Key) (index : Nat) : UInt32 :=
  (block key (UInt64.ofNat (index / 16))).toList.getD (index % 16) 0

end GarbledCircuits.ChaCha20
