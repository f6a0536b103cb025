import GarbledCircuits.Wire.Key

/-!
# Key pairs

A wire has one key for each of the values false and true.  In a usable pair
the signal bits of the two differ, so that the keys differ too.
-/

namespace GarbledCircuits

/-- The keys of a wire: `key0` stands for false and `key1` for true. -/
structure KeyPair where
  key0 : WireKey
  key1 : WireKey
  deriving DecidableEq, Inhabited

namespace KeyPair

def select (pair : KeyPair) (value : Bool) : WireKey :=
  if value then pair.key1 else pair.key0

/-- The signal bit of the key for false. -/
def signalBit (pair : KeyPair) : Bool :=
  pair.key0.signalBit

/-- The value that a key stands for; false where the two keys are equal. -/
def decode (pair : KeyPair) (key : WireKey) : Option Bool :=
  if key = pair.key0 then some false
  else if key = pair.key1 then some true
  else none

/-- The signal bits of the two keys differ. -/
def Opposed (pair : KeyPair) : Prop :=
  pair.key0.signalBit ≠ pair.key1.signalBit

instance (pair : KeyPair) : Decidable pair.Opposed :=
  inferInstanceAs (Decidable (_ ≠ _))

@[simp] theorem select_false (pair : KeyPair) :
    pair.select false = pair.key0 :=
  rfl

@[simp] theorem select_true (pair : KeyPair) : pair.select true = pair.key1 :=
  rfl

/-- In an opposed pair, the key for `value` carries the pair's signal bit
added to `value`. -/
theorem signalBit_select {pair : KeyPair} (hopposed : pair.Opposed)
    (value : Bool) :
    (pair.select value).signalBit = (value ^^ pair.signalBit) := by
  unfold Opposed at hopposed
  cases value with
  | false => simp [signalBit]
  | true =>
      simp only [select_true, signalBit, Bool.true_xor]
      revert hopposed
      cases pair.key0.signalBit <;> cases pair.key1.signalBit <;> simp

theorem decode_select {pair : KeyPair} (hopposed : pair.Opposed)
    (value : Bool) : pair.decode (pair.select value) = some value := by
  have hne : pair.key1 ≠ pair.key0 := by
    intro heq
    exact hopposed (by rw [heq])
  cases value <;> simp [decode, hne]

def describe (pair : KeyPair) : String :=
  "GarbledWire \x7b label0: " ++ pair.key0.describe ++ ", label1: " ++
    pair.key1.describe ++ " \x7d"

end KeyPair

end GarbledCircuits
