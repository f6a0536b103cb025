import GarbledCircuits.Description.Wire
import GarbledCircuits.Garbled.Secrets
import GarbledCircuits.Garbled.Settings

/-!
# Descriptions of what garbler and evaluator share

Settings, names of schemes and of classes of faults, commitments, and the
secrets that the garbler keeps for opening a garbling.
-/

namespace GarbledCircuits

open Json (Reading)

namespace Fault

def toJson (fault : Fault) : Json := .string fault.name

def ofReading : Decoder Fault := Decoder.oneOf name all

end Fault

namespace SchemeKind

def toJson (kind : SchemeKind) : Json := .string kind.name

def ofReading : Decoder SchemeKind := Decoder.oneOf name all

end SchemeKind

/-! ## Settings -/

namespace Parallelism

def toJson : Parallelism → Json
  | sequential => .string "sequential"
  | levels threads =>
      .object [("levels", .object [("threads", .option .number threads)])]

def levelsRecord : Record Parallelism :=
  (Record.nullable "threads" (Decoder.natural wordLimit)).map levels

/-- The choice without fields. -/
def plain : Decoder Parallelism :=
  Decoder.oneOf (fun _ => "sequential") [sequential]

/-- A choice with fields is the only field of an object, over its record. -/
def decoder (fields : Decoder Parallelism) : Decoder Parallelism
  | .object [(literal, value)] => do
      let name ← Decoder.textOf literal
      if name = "levels" then fields value
      else plain (.object [(literal, value)])
  | reading => plain reading

def ofReading : Decoder Parallelism := decoder levelsRecord.decode

/-- A choice inside a larger document, whose fields have to be named. -/
def ofEmbedded : Decoder Parallelism := decoder levelsRecord.decodeNamed

end Parallelism

namespace Settings

def toJson (settings : Settings) : Json :=
  .object
    [("parallelism", settings.parallelism.toJson),
      ("tweak_size", .number settings.tweakSize)]

def record (parallelism : Decoder Parallelism) : Record Settings :=
  ((Record.required "parallelism" parallelism).and
    (Record.required "tweak_size" (Decoder.natural wordLimit))).map
    fun (parallelism, tweakSize) => ⟨parallelism, tweakSize⟩

def ofReading : Decoder Settings := (record Parallelism.ofReading).decode

/-- Settings inside a larger document.  Their own fields may still come
without names, unlike those of the parallelism. -/
def ofEmbedded : Decoder Settings := (record Parallelism.ofEmbedded).decode

end Settings

/-! ## Commitments -/

namespace KeyCommitment

def toJson (commitment : KeyCommitment) : Json :=
  .object
    [("commit_label0", .ofBytes commitment.commit0),
      ("commit_label1", .ofBytes commitment.commit1)]

def record : Record KeyCommitment :=
  let hash := Decoder.exactly 32 Decoder.byte
  ((Record.required "commit_label0" hash).and
    (Record.required "commit_label1" hash)).map
    fun (commit0, commit1) => ⟨commit0, commit1⟩

def ofReading : Decoder KeyCommitment := record.decode

end KeyCommitment

namespace Commitments

def toJson (commitments : Commitments) : Json :=
  .list KeyCommitment.toJson commitments

def ofReading : Decoder Commitments := Decoder.list KeyCommitment.ofReading

end Commitments

/-! ## Secrets -/

namespace Secrets

def toJson (secrets : Secrets) : Json :=
  .object
    [("party_inputs", WireId.partiesToJson secrets.partyInputs),
      ("input_values", WireMap.toJson KeyPair.toJson secrets.inputPairs),
      ("output_values", .list KeyPair.toJson secrets.outputPairs),
      ("translation", secrets.translation.toJson)]

def record : Record Secrets :=
  ((Record.required "party_inputs" WireId.partiesOfReading).and
    ((Record.required "input_values"
      (WireMap.ofReading KeyPair.ofReading)).and
      ((Record.required "output_values"
        (Decoder.list KeyPair.ofReading)).and
        (Record.required "translation" Translation.ofReading)))).map
    fun (partyInputs, inputPairs, outputPairs, translation) =>
      ⟨partyInputs, inputPairs, outputPairs, translation⟩

def ofReading : Decoder Secrets := record.decode

end Secrets

end GarbledCircuits
