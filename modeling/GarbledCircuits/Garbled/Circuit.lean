import GarbledCircuits.Cipher.Scheme
import GarbledCircuits.Circuit.Basic
import GarbledCircuits.Table.Translation

/-!
# Garbled circuits

A garbled circuit is what the garbler publishes: the topology of the circuit,
one table for each gate and the translation table.  Tables and translation
table can be replaced by ones that fit the topology; a replacement that does
not fit is refused.
-/

namespace GarbledCircuits

structure GarbledCircuit where
  kind : SchemeKind
  cipherSize : Nat
  topology : Topology
  tables : Tables
  translation : Translation
  deriving DecidableEq

namespace GarbledCircuit

def keySize (_ : GarbledCircuit) : Nat := WireKey.size

/-- Check new tables, and only then write them. -/
def replaceTables (tables : Tables) :
    EStateM CircuitError GarbledCircuit Unit := do
  let garbled ← get
  MonadExcept.ofExcept (CircuitError.ofTable
    (tables.checkLayout garbled.topology.rowCounts garbled.cipherSize))
  set { garbled with tables := tables }

/-- Check a new translation table, and only then write it. -/
def replaceTranslation (translation : Translation) :
    EStateM CircuitError GarbledCircuit Unit := do
  let outputs := (← get).topology.outputs.length
  if translation.length ≠ outputs then
    throw (.table (.translationLength outputs translation.length))
  modify fun garbled => { garbled with translation := translation }

def setTables (garbled : GarbledCircuit) (tables : Tables) :
    Except CircuitError GarbledCircuit :=
  stateAfter (replaceTables tables) garbled

def setTranslation (garbled : GarbledCircuit) (translation : Translation) :
    Except CircuitError GarbledCircuit :=
  stateAfter (replaceTranslation translation) garbled

def tablesOfBytes (garbled : GarbledCircuit) (bytes : List UInt8) :
    Except CircuitError Tables :=
  CircuitError.ofTable
    (Tables.ofBytes bytes garbled.topology.rowCounts garbled.cipherSize)

/-- The garbled circuit of a circuit and received parts, if they fit. -/
def ofParts (circuit : Circuit) (scheme : Scheme) (tables : Tables)
    (translation : Translation) : Except CircuitError GarbledCircuit := do
  let blank : GarbledCircuit :=
    ⟨scheme.kind, scheme.cipherSize, circuit.topology, [], {}⟩
  let withTables ← blank.setTables tables
  withTables.setTranslation translation

/-- The garbled circuit of a circuit and received bytes, if they fit. -/
def ofBytes (circuit : Circuit) (scheme : Scheme)
    (tables translation : List UInt8) :
    Except CircuitError GarbledCircuit := do
  let rowCounts := circuit.gates.map Gate.rowCount
  let tables ← CircuitError.ofTable
    (Tables.ofBytes tables rowCounts scheme.cipherSize)
  let translation ← CircuitError.ofTable (Translation.ofBytes translation)
  ofParts circuit scheme tables translation

end GarbledCircuit

end GarbledCircuits
