import GarbledCircuits.Bytes.Endian

/-!
# SHA-256

The round constants are the first 32 bits of the fractional parts of the cube
roots of the first 64 primes, the initial state those of the square roots of
the first eight.
-/

namespace GarbledCircuits.Sha256

structure State where
  a : UInt32
  b : UInt32
  c : UInt32
  d : UInt32
  e : UInt32
  f : UInt32
  g : UInt32
  h : UInt32

namespace State

def initial : State :=
  ⟨0x6a09e667, 0xbb67ae85, 0x3c6ef372, 0xa54ff53a,
    0x510e527f, 0x9b05688c, 0x1f83d9ab, 0x5be0cd19⟩

instance : Add State where
  add s t :=
    ⟨s.a + t.a, s.b + t.b, s.c + t.c, s.d + t.d,
      s.e + t.e, s.f + t.f, s.g + t.g, s.h + t.h⟩

def toList (s : State) : List UInt32 :=
  [s.a, s.b, s.c, s.d, s.e, s.f, s.g, s.h]

end State

def constants : List UInt32 :=
  [0x428a2f98, 0x71374491, 0xb5c0fbcf, 0xe9b5dba5,
    0x3956c25b, 0x59f111f1, 0x923f82a4, 0xab1c5ed5,
    0xd807aa98, 0x12835b01, 0x243185be, 0x550c7dc3,
    0x72be5d74, 0x80deb1fe, 0x9bdc06a7, 0xc19bf174,
    0xe49b69c1, 0xefbe4786, 0x0fc19dc6, 0x240ca1cc,
    0x2de92c6f, 0x4a7484aa, 0x5cb0a9dc, 0x76f988da,
    0x983e5152, 0xa831c66d, 0xb00327c8, 0xbf597fc7,
    0xc6e00bf3, 0xd5a79147, 0x06ca6351, 0x14292967,
    0x27b70a85, 0x2e1b2138, 0x4d2c6dfc, 0x53380d13,
    0x650a7354, 0x766a0abb, 0x81c2c92e, 0x92722c85,
    0xa2bfe8a1, 0xa81a664b, 0xc24b8b70, 0xc76c51a3,
    0xd192e819, 0xd6990624, 0xf40e3585, 0x106aa070,
    0x19a4c116, 0x1e376c08, 0x2748774c, 0x34b0bcb5,
    0x391c0cb3, 0x4ed8aa4a, 0x5b9cca4f, 0x682e6ff3,
    0x748f82ee, 0x78a5636f, 0x84c87814, 0x8cc70208,
    0x90befffa, 0xa4506ceb, 0xbef9a3f7, 0xc67178f2]

def rotateRight (word count : UInt32) : UInt32 :=
  (word >>> count) ||| (word <<< (32 - count))

/-- Add the message word after those of a block so far. -/
def extend (words : Array UInt32) : Array UInt32 :=
  let size := words.size
  let early := words.getD (size - 15) 0
  let late := words.getD (size - 2) 0
  let s0 := rotateRight early 7 ^^^ rotateRight early 18 ^^^ (early >>> 3)
  let s1 := rotateRight late 17 ^^^ rotateRight late 19 ^^^ (late >>> 10)
  words.push
    (words.getD (size - 16) 0 + s0 + words.getD (size - 7) 0 + s1)

/-- One round on the state, with its constant and message word added up. -/
def round (s : State) (word : UInt32) : State :=
  let s1 := rotateRight s.e 6 ^^^ rotateRight s.e 11 ^^^ rotateRight s.e 25
  let choice := (s.e &&& s.f) ^^^ (~~~s.e &&& s.g)
  let t1 := s.h + s1 + choice + word
  let s0 := rotateRight s.a 2 ^^^ rotateRight s.a 13 ^^^ rotateRight s.a 22
  let majority := (s.a &&& s.b) ^^^ (s.a &&& s.c) ^^^ (s.b &&& s.c)
  ⟨t1 + s0 + majority, s.a, s.b, s.c, s.d + t1, s.e, s.f, s.g⟩

def wordOf (bytes : List UInt8) : UInt32 :=
  UInt32.ofNat (BigEndian.decode bytes)

/-- The sixteen words of a block and the 48 words that follow from them. -/
def schedule (block : List UInt8) : Array UInt32 :=
  let words := (List.range 16).map fun i =>
    wordOf ((block.drop (4 * i)).take 4)
  Nat.repeat extend 48 words.toArray

/-- Compress one block of 64 bytes into the state. -/
def compress (state : State) (block : List UInt8) : State :=
  let words := List.zipWith (· + ·) constants (schedule block).toList
  state + words.foldl round state

def compressAll (state : State) (bytes : List UInt8) : State :=
  match bytes with
  | [] => state
  | byte :: rest =>
      compressAll (compress state ((byte :: rest).take 64)) (rest.drop 63)
termination_by bytes.length
decreasing_by
  simp only [List.length_drop, List.length_cons]
  omega

/-- The input, a one bit, zeros up to eight bytes short of a whole block, and
the count of input bits. -/
def pad (bytes : List UInt8) : List UInt8 :=
  let zeros := (119 - bytes.length % 64) % 64
  bytes ++ 0x80 :: List.replicate zeros 0 ++
    BigEndian.encode 8 (8 * bytes.length)

/-- The digest of 32 bytes. -/
def digest (bytes : List UInt8) : List UInt8 :=
  (compressAll .initial (pad bytes)).toList.flatMap fun word =>
    BigEndian.encode 4 word.toNat

end GarbledCircuits.Sha256
