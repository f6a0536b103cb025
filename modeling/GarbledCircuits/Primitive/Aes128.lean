/-!
# The AES-128 block permutation

A block is sixteen bytes; byte `4 * c + r` stands in row `r` of column `c`.
The substitution is computed from its definition, inversion in the field with
256 elements followed by an affine map, and tabulated once.
-/

namespace GarbledCircuits.Aes128

abbrev Block := Vector UInt8 16

/-! ## The field with 256 elements -/

/-- Multiplication by `x` modulo `x^8 + x^4 + x^3 + x + 1`. -/
def double (b : UInt8) : UInt8 :=
  (b <<< 1) ^^^ (if b < 0x80 then 0 else 0x1b)

/-- The product of `a` with the polynomial of the lowest bits of `b`. -/
def mulBits : Nat → UInt8 → UInt8 → UInt8
  | 0, _, _ => 0
  | bits + 1, a, b =>
      (if b &&& 1 = 1 then a else 0) ^^^ mulBits bits (double a) (b >>> 1)

def mul (a b : UInt8) : UInt8 :=
  mulBits 8 a b

/-- `b ^ 254`, the product of `b ^ 2`, `b ^ 4`, …, `b ^ 128`: the inverse of
`b` if it is not zero, and zero otherwise. -/
def inverse (b : UInt8) : UInt8 :=
  let step := fun ((product, square) : UInt8 × UInt8) =>
    let next := mul square square
    (mul product next, next)
  (Nat.repeat step 7 (1, b)).1

def rotateLeft (b count : UInt8) : UInt8 :=
  (b <<< count) ||| (b >>> (8 - count))

/-- The affine map of the substitution, over the bits of a byte. -/
def affine (b : UInt8) : UInt8 :=
  b ^^^ rotateLeft b 1 ^^^ rotateLeft b 2 ^^^ rotateLeft b 3 ^^^
    rotateLeft b 4 ^^^ 0x63

def substitution : Vector UInt8 256 :=
  Vector.ofFn fun i => affine (inverse (UInt8.ofNat i))

def substitute (b : UInt8) : UInt8 :=
  substitution.get ⟨b.toNat, b.toNat_lt⟩

/-! ## Rounds -/

/-- Substitute every byte and turn row `r` left by `r` columns. -/
def substituteAndShift (block : Block) : Block :=
  Vector.ofFn fun i =>
    substitute (block[(i.val + 4 * (i.val % 4)) % 16])

/-- Multiply every column by the circulant matrix of `2, 3, 1, 1`. -/
def mixColumns (block : Block) : Block :=
  Vector.ofFn fun i =>
    let column := i.val / 4 * 4
    let a := block[column + i.val % 4]
    let b := block[column + (i.val + 1) % 4]
    let c := block[column + (i.val + 2) % 4]
    let d := block[column + (i.val + 3) % 4]
    double (a ^^^ b) ^^^ b ^^^ c ^^^ d

def addKey (key block : Block) : Block :=
  Vector.zipWith (· ^^^ ·) key block

/-! ## Round keys -/

/-- The round key after `key`: the last column, turned, substituted and marked
with the round's constant, is added to the first column, and every column of
the result to the next one. -/
def nextKey (constant : UInt8) (key : Block) : Block :=
  let turned : Vector UInt8 4 :=
    #v[substitute key[13] ^^^ constant, substitute key[14],
      substitute key[15], substitute key[12]]
  Vector.ofFn fun i =>
    ((List.finRange 4).filter fun column => column.val ≤ i.val / 4).foldl
      (fun sum column => sum ^^^ key[4 * column.val + i.val % 4])
      turned[i.val % 4]

/-- The keys of the rounds after the first addition. -/
def roundKeys : Nat → UInt8 → Block → List Block
  | 0, _, _ => []
  | rounds + 1, constant, key =>
      let next := nextKey constant key
      next :: roundKeys rounds (double constant) next

/-- A key expanded for use. -/
structure Schedule where
  first : Block
  middle : List Block
  last : Block

def Schedule.ofKey (key : Block) : Schedule :=
  let rest := roundKeys 10 1 key
  ⟨key, rest.take 9, rest.getLast?.getD key⟩

/-- Nine full rounds and a last one that does not mix columns. -/
def Schedule.permute (schedule : Schedule) (block : Block) : Block :=
  let mixed := schedule.middle.foldl
    (fun state key => addKey key (mixColumns (substituteAndShift state)))
    (addKey schedule.first block)
  addKey schedule.last (substituteAndShift mixed)

end GarbledCircuits.Aes128
