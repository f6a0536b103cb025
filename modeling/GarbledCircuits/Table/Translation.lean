import GarbledCircuits.Table.Basic

/-!
# Translation tables

A translation table has the signal bit of every output wire, in the order in
which the outputs are declared.  It is sent as one byte a bit, zero or one.
-/

namespace GarbledCircuits

structure Translation where
  bits : List Bool := []
  deriving DecidableEq

namespace Translation

def length (translation : Translation) : Nat :=
  translation.bits.length

def get? (translation : Translation) (index : Nat) : Option Bool :=
  translation.bits[index]?

def toBytes (translation : Translation) : List UInt8 :=
  translation.bits.map Bool.toUInt8

/-- The bits that bytes stand for, of which the first has number `index`. -/
def bitsFrom (index : Nat) : List UInt8 → Except TableError (List Bool)
  | [] => .ok []
  | byte :: rest =>
      if byte = 0 then (false :: ·) <$> bitsFrom (index + 1) rest
      else if byte = 1 then (true :: ·) <$> bitsFrom (index + 1) rest
      else .error (.translationByte index byte)

def ofBytes (bytes : List UInt8) : Except TableError Translation :=
  mk <$> bitsFrom 0 bytes

end Translation

end GarbledCircuits
