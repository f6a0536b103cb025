/-!
# Gate functions

The named functions that a gate can compute.  The rows of a truth table are
numbered by their inputs, the first input being the most significant bit.
-/

namespace GarbledCircuits

inductive GateFunction
  | and
  | nand
  /-- The first input and not the second. -/
  | nimp
  /-- The first input implies the second. -/
  | imp
  /-- The second input and not the first. -/
  | ncimp
  /-- The second input implies the first. -/
  | cimp
  | nor
  | or
  | xor
  | xnor
  | not
  | buf
  deriving DecidableEq, Repr

namespace GateFunction

def all : List GateFunction :=
  [and, nand, nimp, imp, ncimp, cimp, nor, or, xor, xnor, not, buf]

def code : GateFunction → Nat
  | and => 0
  | nand => 1
  | nimp => 2
  | imp => 3
  | ncimp => 4
  | cimp => 5
  | nor => 6
  | or => 7
  | xor => 8
  | xnor => 9
  | not => 10
  | buf => 11

def name : GateFunction → String
  | and => "and"
  | nand => "nand"
  | nimp => "nimp"
  | imp => "imp"
  | ncimp => "ncimp"
  | cimp => "cimp"
  | nor => "nor"
  | or => "or"
  | xor => "xor"
  | xnor => "xnor"
  | not => "not"
  | buf => "buf"

def describe : GateFunction → String
  | and => "And"
  | nand => "Nand"
  | nimp => "Nimp"
  | imp => "Imp"
  | ncimp => "Ncimp"
  | cimp => "Cimp"
  | nor => "Nor"
  | or => "Or"
  | xor => "Xor"
  | xnor => "Xnor"
  | not => "Not"
  | buf => "Buf"

def arity : GateFunction → Nat
  | not | buf => 1
  | _ => 2

/-- The value of a function; one of a single input leaves out the second. -/
def apply : GateFunction → Bool → Bool → Bool
  | and, a, b => a && b
  | nand, a, b => !(a && b)
  | nimp, a, b => a && !b
  | imp, a, b => !a || b
  | ncimp, a, b => !a && b
  | cimp, a, b => !b || a
  | nor, a, b => !(a || b)
  | or, a, b => a || b
  | xor, a, b => a ^^ b
  | xnor, a, b => !(a ^^ b)
  | not, a, _ => !a
  | buf, a, _ => a

/-- The value of a function on every row. -/
def truthTable (function : GateFunction) : List Bool :=
  match function.arity with
  | 1 => [function.apply false false, function.apply true false]
  | _ =>
      [function.apply false false, function.apply false true,
        function.apply true false, function.apply true true]

end GateFunction

end GarbledCircuits
