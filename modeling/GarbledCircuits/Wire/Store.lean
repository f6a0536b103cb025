import GarbledCircuits.Fault
import GarbledCircuits.Wire.Pair
import Std.Data.ExtTreeMap

/-!
# The keys of many wires

A key store gives registered wires their pair of keys and their signal bit.
A wire is registered once, with an opposed pair whose key for false carries
the stated signal bit; nothing is ever replaced.
-/

namespace GarbledCircuits

abbrev WireId := UInt64

abbrev WireMap (α : Type) := Std.ExtTreeMap WireId α

def describeWire (wire : WireId) : String :=
  s!"WireId({wire})"

def describeWires (wires : List WireId) : String :=
  "[" ++ String.intercalate ", " (wires.map describeWire) ++ "]"

inductive WireError
  | wireNotFound (wire : WireId)
  | wireAlreadyInitialized (wire : WireId)
  /-- The signal bits of a pair are not the stated one and its opposite. -/
  | inconsistentSignalBit (wire : WireId) (signalBit : Bool)
  | identicalKeys (wire : WireId)
  deriving DecidableEq, Repr

namespace WireError

def fault (_ : WireError) : Fault := .malformedInput

def message : WireError → String
  | wireNotFound wire => s!"Wire with id {wire} not found"
  | wireAlreadyInitialized wire => s!"Wire with id {wire} already initialized"
  | inconsistentSignalBit wire signalBit =>
      s!"Wire {wire} keys do not match signal bit {signalBit}"
  | identicalKeys wire => s!"Wire {wire} has identical 0- and 1-keys"

end WireError

/-- The keys and the signal bit of a registered wire. -/
structure WireKeys where
  pair : KeyPair
  signalBit : Bool
  deriving DecidableEq

structure KeyStore where
  wires : WireMap WireKeys := ∅

namespace KeyStore

def empty : KeyStore := {}

def get (store : KeyStore) (wire : WireId) : Except WireError WireKeys :=
  match store.wires[wire]? with
  | some keys => .ok keys
  | none => .error (.wireNotFound wire)

def pair (store : KeyStore) (wire : WireId) : Except WireError KeyPair :=
  (store.get wire).map WireKeys.pair

def signalBit (store : KeyStore) (wire : WireId) : Except WireError Bool :=
  (store.get wire).map WireKeys.signalBit

def contains (store : KeyStore) (wire : WireId) : Bool :=
  store.wires.contains wire

def size (store : KeyStore) : Nat :=
  store.wires.size

end KeyStore

/-! ## Registering wires -/

/-- A pair for a wire, and the signal bit that its key for false is said to
carry. -/
structure Registration where
  wire : WireId
  pair : KeyPair
  signalBit : Bool
  deriving DecidableEq

namespace Registration

def keys (registration : Registration) : WireKeys :=
  ⟨registration.pair, registration.signalBit⟩

/-- Check the pair and the wire, and only then write. -/
def call (registration : Registration) :
    EStateM WireError KeyStore WireKeys := do
  let ⟨wire, pair, signalBit⟩ := registration
  if pair.key0 = pair.key1 then throw (.identicalKeys wire)
  if pair.key0.signalBit ≠ signalBit ∨ pair.key1.signalBit = signalBit then
    throw (.inconsistentSignalBit wire signalBit)
  if (← get).contains wire then throw (.wireAlreadyInitialized wire)
  modify fun store => ⟨store.wires.insert wire registration.keys⟩
  return registration.keys

end Registration

/-- The store with one more wire. -/
def KeyStore.init (store : KeyStore) (wire : WireId) (pair : KeyPair)
    (signalBit : Bool) : Except WireError KeyStore :=
  stateAfter (Registration.call ⟨wire, pair, signalBit⟩) store

end GarbledCircuits
