import GarbledCircuits.Bytes.Endian
import GarbledCircuits.Primitive.Lanes

/-!
# BLAKE3

Input is hashed in chunks of 1024 bytes, the leaves of a binary tree whose
left subtrees are the largest full ones.  The last compression of the root is
repeated with a running counter to give as many bytes as are asked for, so a
shorter output is always a prefix of a longer one
(`take_rootBytes`).
-/

namespace GarbledCircuits.Blake3

/-- A chaining value of eight words. -/
structure Chain where
  low : Lanes
  high : Lanes

namespace Chain

def initial : Chain where
  low := ⟨0x6a09e667, 0xbb67ae85, 0x3c6ef372, 0xa54ff53a⟩
  high := ⟨0x510e527f, 0x9b05688c, 0x1f83d9ab, 0x5be0cd19⟩

/-- The chaining value that 32 bytes spell. -/
def ofBytes (bytes : List UInt8) : Chain :=
  let words := (LittleEndian.words bytes).toArray
  ⟨.ofWords words 0, .ofWords words 4⟩

def toList (chain : Chain) : List UInt32 :=
  chain.low.toList ++ chain.high.toList

end Chain

/-- Up to sixteen words; absent words count as zero. -/
abbrev Message := Array UInt32

/-! ## Compression -/

/-- Stir two message words into each of the four columns. -/
def stirColumns (s : Square) (x y : Lanes) : Square :=
  let a := s.a + s.b + x
  let d := (s.d ^^^ a).rotate 16
  let c := s.c + d
  let b := (s.b ^^^ c).rotate 20
  let a := a + b + y
  let d := (d ^^^ a).rotate 24
  let c := c + d
  let b := (b ^^^ c).rotate 25
  ⟨a, b, c, d⟩

/-- Every second of eight message words from an index on. -/
def alternate (message : Message) (index : Nat) : Lanes :=
  ⟨message.getD index 0, message.getD (index + 2) 0,
    message.getD (index + 4) 0, message.getD (index + 6) 0⟩

/-- Stir the four columns, then the four diagonals. -/
def round (s : Square) (message : Message) : Square :=
  let s := stirColumns s (alternate message 0) (alternate message 1)
  (stirColumns s.skew (alternate message 8) (alternate message 9)).unskew

/-- The order in which the next round reads the message. -/
def order : List Nat :=
  [2, 6, 3, 10, 7, 0, 4, 13, 1, 11, 12, 5, 9, 14, 15, 8]

def reorder (message : Message) : Message :=
  (order.map fun index => message.getD index 0).toArray

def rounds : Nat → Square → Message → Square
  | 0, s, _ => s
  | count + 1, s, message => rounds count (round s message) (reorder message)

/-- What is left to compress at one node of the tree. -/
structure Node where
  chain : Chain
  message : Message
  counter : UInt64
  size : UInt32
  flags : UInt32

/-- The sixteen words that compressing a node gives. -/
def Node.compress (node : Node) : Square :=
  let setting : Lanes :=
    ⟨node.counter.toUInt32, (node.counter >>> 32).toUInt32, node.size,
      node.flags⟩
  let s := rounds 7
    ⟨node.chain.low, node.chain.high, Chain.initial.low, setting⟩ node.message
  ⟨s.a ^^^ s.c, s.b ^^^ s.d, s.c ^^^ node.chain.low, s.d ^^^ node.chain.high⟩

def Node.nextChain (node : Node) : Chain :=
  let s := node.compress
  ⟨s.a, s.b⟩

/-! ## Chunks and the tree -/

def chunkStart : UInt32 := 1
def chunkEnd : UInt32 := 2
def parent : UInt32 := 4
def root : UInt32 := 8
def keyedHash : UInt32 := 16

/-- The message of up to 64 bytes. -/
def messageOf (bytes : List UInt8) : Message :=
  (LittleEndian.words bytes).toArray

/-- The last block of a chunk is left to compress; `start` is the flag of the
chunk's first block until that block is done. -/
def chunkFrom (mode : UInt32) (index : UInt64) (chain : Chain)
    (start : UInt32) (bytes : List UInt8) : Node :=
  if bytes.length ≤ 64 then
    ⟨chain, messageOf bytes, index, UInt32.ofNat bytes.length,
      mode ||| start ||| chunkEnd⟩
  else
    let block : Node :=
      ⟨chain, messageOf (bytes.take 64), index, 64, mode ||| start⟩
    chunkFrom mode index block.nextChain 0 (bytes.drop 64)
termination_by bytes.length
decreasing_by
  simp only [List.length_drop]
  omega

/-- The size of the left subtree over more than one chunk of input: the
largest power of two of whole chunks that leaves a byte for the right one. -/
def leftSize (size : Nat) : Nat :=
  1024 * (1 <<< ((size - 1) / 1024).log2)

theorem leftSize_pos (size : Nat) : 0 < leftSize size := by
  rw [leftSize, Nat.one_shiftLeft]
  exact Nat.mul_pos (by decide) (Nat.two_pow_pos _)

theorem leftSize_lt {size : Nat} (hsize : 1024 < size) :
    leftSize size < size := by
  have hchunks : (size - 1) / 1024 ≠ 0 := by omega
  have hpower : 2 ^ ((size - 1) / 1024).log2 ≤ (size - 1) / 1024 :=
    Nat.log2_self_le hchunks
  rw [leftSize, Nat.one_shiftLeft]
  omega

/-- The node over a whole input whose first chunk has number `index`. -/
def nodeOf (key : Chain) (mode : UInt32) (index : UInt64)
    (bytes : List UInt8) : Node :=
  if _h : bytes.length ≤ 1024 then
    chunkFrom mode index key chunkStart bytes
  else
    let size := leftSize bytes.length
    let left := nodeOf key mode index (bytes.take size)
    let right :=
      nodeOf key mode (index + UInt64.ofNat (size / 1024)) (bytes.drop size)
    let message := left.nextChain.toList ++ right.nextChain.toList
    ⟨key, message.toArray, 0, 64, mode ||| parent⟩
termination_by bytes.length
decreasing_by
  · have : leftSize bytes.length < bytes.length := leftSize_lt (by omega)
    simp only [List.length_take]
    omega
  · have := leftSize_pos bytes.length
    simp only [List.length_drop]
    omega

/-! ## Output -/

/-- The 64 output bytes with number `index`. -/
def Node.rootBlock (node : Node) (index : Nat) : List UInt8 :=
  let words :=
    { node with
        counter := UInt64.ofNat index
        flags := node.flags ||| root }.compress
  words.toList.flatMap LittleEndian.bytes

@[simp] theorem Node.length_rootBlock (node : Node) (index : Nat) :
    (node.rootBlock index).length = 64 := by
  simp [Node.rootBlock, List.length_flatMap, List.map_const',
    LittleEndian.length_bytes, Square.length_toList]

def Node.rootBlocks (node : Node) (count : Nat) : List UInt8 :=
  (List.range count).flatMap node.rootBlock

@[simp] theorem Node.length_rootBlocks (node : Node) (count : Nat) :
    (node.rootBlocks count).length = 64 * count := by
  simp [Node.rootBlocks, List.length_flatMap, List.map_const',
    Nat.mul_comm]

def Node.rootBytes (node : Node) (size : Nat) : List UInt8 :=
  (node.rootBlocks ((size + 63) / 64)).take size

@[simp] theorem Node.length_rootBytes (node : Node) (size : Nat) :
    (node.rootBytes size).length = size := by
  simp only [Node.rootBytes, List.length_take, Node.length_rootBlocks]
  omega

/-- The hash of `bytes`, extended to `size` bytes. -/
def extendedHash (bytes : List UInt8) (size : Nat) : List UInt8 :=
  (nodeOf .initial 0 0 bytes).rootBytes size

/-- The hash of `bytes` under a key of 32 bytes. -/
def hashUnderKey (key bytes : List UInt8) : List UInt8 :=
  (nodeOf (.ofBytes key) keyedHash 0 bytes).rootBytes 32

end GarbledCircuits.Blake3
