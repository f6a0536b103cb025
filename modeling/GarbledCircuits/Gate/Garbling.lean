import GarbledCircuits.Cipher.Session
import GarbledCircuits.Gate.Basic
import GarbledCircuits.Gate.Rows

/-!
# Garbling and evaluating a gate

A row of a gate is sealed under the keys of its inputs, with the tweak of the
gate's number and of the keys' signal bits, and put at the position that these
bits spell.  It holds the output key for its truth bit, and the signal bits
hide which row of the truth table stands at which position.

One key for each input opens one row: the one at the position that the signal
bits of the keys spell.
-/

namespace GarbledCircuits

namespace GateError

def ofCipher (gate : GateNumber) (result : Except CipherError α) :
    Except GateError α :=
  result.mapError (cipher gate)

def ofWire (result : Except WireError α) : Except GateError α :=
  result.mapError wire

end GateError

/-- The session for the row of a gate with the given keys and signal bits. -/
def rowSession (scheme : Scheme) (gate : GateNumber) (keys : List WireKey)
    (masked : List Bool) : Except CipherError (Session scheme) :=
  Session.keyed scheme keys (tweak gate masked scheme.tweakSize)

/-- Seal a payload under keys and a tweak. -/
def sealTweaked (scheme : Scheme) (keys : List WireKey) (tweak : List UInt8)
    (payload : WireKey) : Except CipherError (List UInt8) := do
  let session ← Session.keyed scheme keys tweak
  session.encrypt payload.toBytes

/-- Seal a payload in the row with the given keys and signal bits. -/
def sealRow (scheme : Scheme) (gate : GateNumber) (keys : List WireKey)
    (masked : List Bool) (payload : WireKey) :
    Except CipherError (List UInt8) :=
  sealTweaked scheme keys (tweak gate masked scheme.tweakSize) payload

def selectKeys (pairs : List KeyPair) (bits : List Bool) : List WireKey :=
  List.zipWith KeyPair.select pairs bits

def signalBits (keys : List WireKey) : List Bool :=
  keys.map WireKey.signalBit

/-- The table of `count` rows in which some are put at positions, the later
ones over the earlier, and all others are zero. -/
def Table.place (count rowSize : Nat) (rows : List (Nat × List UInt8)) :
    Table :=
  let blank := List.replicate count (List.replicate rowSize 0)
  let filled :=
    rows.foldl (fun slots (index, row) => slots.set index row) blank
  ⟨filled.flatten, rowSize⟩

/-- The table that holds the given keys, the one for plain row `r` sealed
under the keys that the bits of `r` select from the input pairs. -/
def sealTable (scheme : Scheme) (wiring : GateWiring) (pairs : List KeyPair)
    (payloads : List WireKey) : Except CipherError Table := do
  let rows ← payloads.zipIdx.mapM fun (payload, row) => do
    let keys := selectKeys pairs (rowBits row wiring.arity)
    let masked := signalBits keys
    let sealedRow ← sealRow scheme wiring.number keys masked payload
    return (position masked, sealedRow)
  return Table.place wiring.rows scheme.cipherSize rows

/-! ## Checks that garbling, evaluation and verification share -/

/-- A tweak has a word for every input. -/
def checkCapacity (gate : GateNumber) (arity tweakSize : Nat) :
    Except GateError Unit :=
  if maxArity tweakSize < arity then
    .error (.arityExceedsTweak gate arity tweakSize)
  else .ok ()

def checkInputCount (gate : GateNumber) (expected actual : Nat) :
    Except GateError Unit :=
  if actual ≠ expected then .error (.inputKeyCount gate expected actual)
  else .ok ()

/-- The fault of a table without the expected rows. -/
def shapeFault (gate : GateNumber) (table : Table) (rows rowSize : Nat) :
    GateError :=
  .tableShape gate rows rowSize table.rows table.rowSize

/-- Whether a table has the expected rows.  There is no answer for an unsized
table. -/
def checkShape (gate : GateNumber) (table : Table) (rows rowSize : Nat) :
    Except GateError Unit :=
  if table.rows ≠ rows ∨ table.rowSize ≠ rowSize then
    .error (shapeFault gate table rows rowSize)
  else .ok ()

def keyOfPayload (gate : GateNumber) (payload : List UInt8) :
    Except GateError WireKey :=
  match WireKey.ofBytes? payload with
  | some key => .ok key
  | none => .error (.cipher gate (.invalidKey WireKey.size payload.length))

/-! ## Garbling and evaluating -/

namespace Gate

/-- The bits of a plain row under the mask of the input signal bits. -/
def maskedBits (gate : Gate) (inputs : List WireKeys) (row : Nat) :
    List Bool :=
  xorBits (rowBits row gate.arity) (inputs.map WireKeys.signalBit)

/-- Whether the bytes of the table are more than a 64-bit word counts. -/
def overfills (gate : Gate) (scheme : Scheme) : Bool :=
  wordLimit ≤ gate.rowCount * scheme.cipherSize

/-- A plain row, sealed under a tweak, and its position. -/
def garbleRow (gate : Gate) (scheme : Scheme) (inputs : List WireKeys)
    (output : KeyPair) (rowTweak : Nat → List UInt8) (row : Nat) :
    Except GateError (Nat × List UInt8) := do
  let keys := selectKeys (inputs.map WireKeys.pair) (rowBits row gate.arity)
  let payload := output.select (gate.truthBit row)
  let sealedRow ← GateError.ofCipher gate.number
    (sealTweaked scheme keys (rowTweak row) payload)
  return (position (gate.maskedBits inputs row), sealedRow)

/-- The table of a gate, under the keys of its inputs and of its first output
wire, with a tweak for each row. -/
def garbleTweaked (gate : Gate) (scheme : Scheme) (store : KeyStore)
    (rowTweak : List WireKeys → Nat → List UInt8) :
    Except (Stop GateError) Table := do
  Stop.ofExcept (checkCapacity gate.number gate.arity scheme.tweakSize)
  let inputs ← Stop.ofExcept (GateError.ofWire (gate.inputs.mapM store.get))
  let output ← Stop.ofExcept (GateError.ofWire (store.pair gate.firstOutput))
  if gate.overfills scheme then throw .unanswered
  let rows ← Stop.ofExcept ((List.range gate.rowCount).mapM
    (gate.garbleRow scheme inputs output (rowTweak inputs)))
  return Table.place gate.rowCount scheme.cipherSize rows

/-- Garble a gate, every row under the tweak of its masked bits. -/
def garble (gate : Gate) (scheme : Scheme) (store : KeyStore) :
    Except (Stop GateError) Table :=
  gate.garbleTweaked scheme store fun inputs row =>
    tweak gate.number (gate.maskedBits inputs row) scheme.tweakSize

end Gate

/-- The key in the one row that the keys of the inputs open. -/
def GateWiring.evaluate (wiring : GateWiring) (scheme : Scheme) (table : Table)
    (keys : List WireKey) : Except GateError WireKey := do
  let gate := wiring.number
  checkInputCount gate wiring.arity keys.length
  checkCapacity gate wiring.arity scheme.tweakSize
  checkShape gate table wiring.rows scheme.cipherSize
  let masked := signalBits keys
  let session ← GateError.ofCipher gate (rowSession scheme gate keys masked)
  match table.row (position masked) with
  | none => throw (shapeFault gate table wiring.rows scheme.cipherSize)
  | some row =>
      let payload ← GateError.ofCipher gate (session.decrypt row)
      keyOfPayload gate payload

end GarbledCircuits
