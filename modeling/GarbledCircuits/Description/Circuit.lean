import GarbledCircuits.Circuit.Basic
import GarbledCircuits.Circuit.Error
import GarbledCircuits.Description.Wire

/-!
# Descriptions of gates and circuits

A gate is described by its wiring and either by the name of a function or by
a truth table, which counts where both are given.  It is built when its
description has been read to the end, and so is the circuit, so nothing that
is read escapes the checks.
-/

namespace GarbledCircuits

/-! ## Gates -/

namespace GateFunction

def toJson (function : GateFunction) : Json := .string function.name

def ofReading : Decoder GateFunction := Decoder.oneOf name all

end GateFunction

namespace GateNumber

def toJson (number : GateNumber) : Json := .number number.toNat

def ofReading : Decoder GateNumber :=
  (Decoder.natural UInt32.size).map UInt32.ofNat

end GateNumber

namespace GateWiring

def jsonFields (wiring : GateWiring) : List (String × Json) :=
  [("gate_number", GateNumber.toJson wiring.number),
    ("input_wires", WireId.listToJson wiring.inputs),
    ("output_wires", WireId.listToJson wiring.outputs)]

def toJson (wiring : GateWiring) : Json := .object wiring.jsonFields

def record : Record GateWiring :=
  ((Record.required "gate_number" GateNumber.ofReading).and
    ((Record.required "input_wires" WireId.listOfReading).and
      (Record.required "output_wires" WireId.listOfReading))).map
    fun (number, inputs, outputs) => ⟨number, inputs, outputs⟩

def ofReading : Decoder GateWiring := record.decode

end GateWiring

structure GateDescription where
  wiring : GateWiring
  function : Option GateFunction
  truthTable : Option (List Bool)

namespace GateDescription

def record : Record GateDescription :=
  (GateWiring.record.and
    ((Record.omissible "gate_type" GateFunction.ofReading).and
      (Record.omissible "truth_table" (Decoder.list Decoder.bool)))).map
    fun (wiring, function, truthTable) => ⟨wiring, function, truthTable⟩

def ofReading : Decoder GateDescription := record.decode

/-- The table of a description; without any, it is empty. -/
def table (description : GateDescription) : List Bool :=
  match description.truthTable, description.function with
  | some table, _ => table
  | none, some function => function.truthTable
  | none, none => []

def build (description : GateDescription) : Except GateError Gate :=
  Gate.build description.wiring.number description.wiring.inputs
    description.wiring.outputs description.table

end GateDescription

namespace Gate

def toJson (gate : Gate) : Json :=
  .object <| gate.jsonFields ++ [("truth_table", .ofBits gate.truthTable)]

def ofReading : Decoder Gate :=
  GateDescription.ofReading.refine fun description =>
    description.build.mapError .gate

end Gate

/-! ## Circuits -/

/-- A circuit as it is described, with gates of some kind. -/
structure CircuitDescription (γ : Type) where
  partyInputs : List (List WireId)
  gates : List γ
  outputs : List WireId

namespace CircuitDescription

def record (gate : Decoder γ) : Record (CircuitDescription γ) :=
  ((Record.required "party_inputs" WireId.partiesOfReading).and
    ((Record.required "gates" (Decoder.list gate)).and
      (Record.required "output_wires" WireId.listOfReading))).map
    fun (partyInputs, gates, outputs) => ⟨partyInputs, gates, outputs⟩

def ofReading (gate : Decoder γ) : Decoder (CircuitDescription γ) :=
  (record gate).decode

def build (description : CircuitDescription Gate) :
    Except WiringError Circuit :=
  Circuit.build description.partyInputs description.gates description.outputs

end CircuitDescription

namespace Circuit

def toJson (circuit : Circuit) : Json :=
  .object
    [("party_inputs", WireId.partiesToJson circuit.partyInputs),
      ("gates", .list Gate.toJson circuit.gates),
      ("output_wires", WireId.listToJson circuit.outputs)]

def ofReading : Decoder Circuit :=
  (CircuitDescription.ofReading Gate.ofReading).refine fun description =>
    description.build.mapError .wiring

def toText (circuit : Circuit) : String :=
  circuit.toJson.render

def ofText (text : String) : Except CircuitError Circuit :=
  (Decoder.ofText ofReading text).mapError .description

end Circuit

end GarbledCircuits
