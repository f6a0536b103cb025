/-!
# Words in rows and columns

ChaCha20 and BLAKE3 work on sixteen words in four rows of four.  A round stirs
the four columns side by side, and then the four diagonals, which stand in
columns once the rows have been turned by zero, one, two and three words.
-/

namespace GarbledCircuits

/-- A row of four words, on which operations act side by side. -/
structure Lanes where
  w0 : UInt32
  w1 : UInt32
  w2 : UInt32
  w3 : UInt32

namespace Lanes

def zipWith (f : UInt32 → UInt32 → UInt32) (x y : Lanes) : Lanes :=
  ⟨f x.w0 y.w0, f x.w1 y.w1, f x.w2 y.w2, f x.w3 y.w3⟩

instance : Add Lanes := ⟨zipWith (· + ·)⟩

instance : XorOp Lanes := ⟨zipWith (· ^^^ ·)⟩

def rotate (count : UInt32) (x : Lanes) : Lanes :=
  let turn := fun word => (word <<< count) ||| (word >>> (32 - count))
  ⟨turn x.w0, turn x.w1, turn x.w2, turn x.w3⟩

/-- Turn the row to the left by one word. -/
def turn (x : Lanes) : Lanes :=
  ⟨x.w1, x.w2, x.w3, x.w0⟩

def toList (x : Lanes) : List UInt32 :=
  [x.w0, x.w1, x.w2, x.w3]

/-- The row of four words from an index on; absent words count as zero. -/
def ofWords (words : Array UInt32) (index : Nat) : Lanes :=
  ⟨words.getD index 0, words.getD (index + 1) 0, words.getD (index + 2) 0,
    words.getD (index + 3) 0⟩

end Lanes

structure Square where
  a : Lanes
  b : Lanes
  c : Lanes
  d : Lanes

namespace Square

instance : Add Square :=
  ⟨fun x y => ⟨x.a + y.a, x.b + y.b, x.c + y.c, x.d + y.d⟩⟩

/-- Bring the diagonals into columns. -/
def skew (x : Square) : Square :=
  ⟨x.a, x.b.turn, x.c.turn.turn, x.d.turn.turn.turn⟩

/-- Bring the diagonals back into their places. -/
def unskew (x : Square) : Square :=
  ⟨x.a, x.b.turn.turn.turn, x.c.turn.turn, x.d.turn⟩

/-- The words row by row. -/
def toList (x : Square) : List UInt32 :=
  x.a.toList ++ x.b.toList ++ x.c.toList ++ x.d.toList

theorem length_toList (x : Square) : x.toList.length = 16 :=
  rfl

end Square

end GarbledCircuits
