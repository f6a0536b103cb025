import GarbledCircuits.Primitive.ChaCha20
import GarbledCircuits.Wire.Pair

/-!
# Drawing keys from a stream of random words

All randomness comes from a stream of 32-bit words and is used up in order:
a bit takes one word, a key sixteen, and the pair of a wire with a given
signal bit two keys.

A 64-bit seed is stretched to a 256-bit key by a permuted congruential
generator, and the key's ChaCha20 keystream is the stream of words.
-/

namespace GarbledCircuits

/-- A stream of words, read up to a position. -/
structure WordStream where
  word : Nat → UInt32
  position : Nat := 0

namespace WordStream

def skip (stream : WordStream) (count : Nat) : WordStream :=
  { stream with position := stream.position + count }

/-- The top bit of the next word. -/
def drawBit (stream : WordStream) : Bool × WordStream :=
  ((stream.word stream.position).toBitVec.msb, stream.skip 1)

/-- The low bytes of the next sixteen words, as a key. -/
def drawKey (stream : WordStream) : WireKey × WordStream :=
  let bytes := (List.range WireKey.size).map fun i =>
    (stream.word (stream.position + i)).toUInt8
  (WireKey.ofBytes bytes, stream.skip WireKey.size)

/-- A random key, but for its signal bit. -/
def drawKeyWith (stream : WordStream) (signalBit : Bool) :
    WireKey × WordStream :=
  let (key, stream) := stream.drawKey
  (key.withSignalBit signalBit, stream)

/-- The pair of a wire whose key for false carries `signalBit`. -/
def drawPair (stream : WordStream) (signalBit : Bool) :
    KeyPair × WordStream :=
  let (key0, stream) := stream.drawKeyWith signalBit
  let (key1, stream) := stream.drawKeyWith (!signalBit)
  (⟨key0, key1⟩, stream)

def wordsPerPair : Nat := 1 + 2 * WireKey.size

/-- Draw a signal bit and then a pair that carries it. -/
def drawWire (stream : WordStream) : (KeyPair × Bool) × WordStream :=
  let (signalBit, stream) := stream.drawBit
  let (pair, stream) := stream.drawPair signalBit
  ((pair, signalBit), stream)

theorem drawPair_opposed (stream : WordStream) (signalBit : Bool) :
    (stream.drawPair signalBit).1.Opposed := by
  simp [drawPair, drawKeyWith, KeyPair.Opposed]

theorem drawWire_signalBit (stream : WordStream) :
    stream.drawWire.1.1.signalBit = stream.drawWire.1.2 := by
  simp [drawWire, drawPair, drawKeyWith, KeyPair.signalBit]

theorem drawWire_position (stream : WordStream) :
    stream.drawWire.2 = stream.skip wordsPerPair := by
  simp [drawWire, drawPair, drawKeyWith, drawKey, drawBit, skip,
    wordsPerPair, WireKey.size]

end WordStream

/-! ## Streams from seeds -/

abbrev Seed := UInt64

namespace Seed

/-- The state of the generator after `state`. -/
def advance (state : UInt64) : UInt64 :=
  state * 6364136223846793005 + 11634580027462260723

/-- The output word for a state: the middle bits, turned by the top ones. -/
def output (state : UInt64) : UInt32 :=
  let mixed := (((state >>> 18) ^^^ state) >>> 27).toUInt32
  let turn := (state >>> 59).toUInt32
  (mixed >>> turn) ||| (mixed <<< ((32 - turn) % 32))

/-- The key that a seed stands for. -/
def key (seed : Seed) : ChaCha20.Key :=
  let words := (List.range 8).map fun i =>
    output (Nat.repeat advance (i + 1) seed)
  ⟨.ofWords words.toArray 0, .ofWords words.toArray 4⟩

end Seed

/-- The stream that a seed stands for, from its first word. -/
def WordStream.ofSeed (seed : Seed) : WordStream :=
  let key := seed.key
  { word := ChaCha20.word key }

end GarbledCircuits
