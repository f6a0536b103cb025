import GarbledCircuits.Text.Decimal

/-!
# Gate counts and progress for readers

Large counts are shown in thousands, millions or billions with one or two
decimal places.  The quotient is worked out in binary floating point with 53
significant bits before it is cut to places, and every rounding goes to the
nearest neighbour, from the middle to the even one.

While gates are worked through, a line is due whenever the count of finished
ones passes a multiple of one million.
-/

namespace GarbledCircuits.Report

/-- The integer nearest to a quotient; from the middle, the even one. -/
def nearest (numerator denominator : Nat) : Nat :=
  let quotient := numerator / denominator
  let twice := 2 * (numerator % denominator)
  if twice < denominator then quotient
  else if twice = denominator ∧ quotient % 2 = 0 then quotient
  else quotient + 1

/-- The count of significant bits in a floating point number. -/
def precision : Nat := 53

/-- A quotient of at least one, rounded to `precision` significant bits, as
numerator and denominator. -/
def roundBinary (numerator denominator : Nat) : Nat × Nat :=
  let magnitude := Nat.log2 (numerator / denominator) + 1
  if magnitude ≤ precision then
    let scale := 1 <<< (precision - magnitude)
    (nearest (numerator * scale) denominator, scale)
  else
    let scale := 1 <<< (magnitude - precision)
    (nearest numerator (denominator * scale) * scale, 1)

/-- A count in some unit, with the decimals of one part in `steps`. -/
def renderIn (unit steps : Nat) (suffix : String) (count : Nat) : String :=
  let (value, scale) := roundBinary count 1
  let (quotient, scale) := roundBinary value (scale * unit)
  let rounded := nearest (quotient * steps) scale
  let decimals := (Decimal.digits (steps + rounded % steps)).drop 1
  Decimal.render (rounded / steps) ++ "." ++ String.ofList decimals ++ suffix

def thousand : Nat := 1000
def million : Nat := 1000 * thousand
def billion : Nat := 1000 * million

/-- A gate count as readers see it. -/
def gateCount (count : Nat) : String :=
  if billion ≤ count then renderIn billion 100 "b" count
  else if million ≤ count then renderIn million 10 "m" count
  else if thousand ≤ count then renderIn thousand 10 "k" count
  else Decimal.render count

/-! ## Progress -/

def progressStep : Nat := million

/-- The line that is due when the count moves on. -/
def progressLine (label : String) (before after : Nat) : Option String :=
  if before / progressStep < after / progressStep then
    some (label ++ ": " ++ gateCount after ++ " gates")
  else none

/-- The lines of a run through the given counts. -/
def progressLines (label : String) (before : Nat) : List Nat → List String
  | [] => []
  | after :: counts =>
      (progressLine label before after).toList ++
        progressLines label after counts

end GarbledCircuits.Report
