import GarbledCircuits.Description.Circuit
import GarbledCircuits.Proofs.Circuit.Violations
import GarbledCircuits.Proofs.Description.Record
import GarbledCircuits.Proofs.Json.Reading

/-!
# Reading descriptions of circuits

A text is read as a circuit exactly if it describes gates that can be built
and that can be wired as it says.  What is built is checked in the same way as
any other gates and wires are, and a circuit is read back from its own text as
it was.
-/

namespace GarbledCircuits

open Json (Reading)
open Outcome

/-! ## Numbers of gates and wires -/

theorem GateNumber.ofReading_toJson (number : GateNumber) :
    ofReading (.ofJson number.toJson) = .ok number := by
  have hnatural : Decoder.natural UInt32.size (.ofJson number.toJson) =
      .ok number.toNat :=
    Decoder.natural_ofJson number.toNat_lt
  rw [ofReading, Decoder.map, hnatural]
  exact congrArg Except.ok UInt32.ofNat_toNat

theorem WireId.ofReading_toJson (wire : WireId) :
    ofReading (.ofJson wire.toJson) = .ok wire := by
  have hnatural : Decoder.natural wordLimit (.ofJson wire.toJson) =
      .ok wire.toNat :=
    Decoder.natural_ofJson wire.toNat_lt
  rw [ofReading, Decoder.map, hnatural]
  exact congrArg Except.ok UInt64.ofNat_toNat

theorem WireId.listOfReading_toJson (wires : List WireId) :
    listOfReading (.ofJson (listToJson wires)) = .ok wires :=
  Decoder.list_ofJson fun wire _ => ofReading_toJson wire

theorem WireId.partiesOfReading_toJson (parties : List (List WireId)) :
    partiesOfReading (.ofJson (partiesToJson parties)) = .ok parties :=
  Decoder.list_ofJson fun wires _ => listOfReading_toJson wires

/-! ## Gates -/

namespace GateWiring

theorem reads_record :
    record.Reads ["gate_number", "input_wires", "output_wires"]
      fun fields wiring =>
        Gives fields "gate_number" GateNumber.ofReading wiring.number ∧
          Gives fields "input_wires" WireId.listOfReading wiring.inputs ∧
            Gives fields "output_wires" WireId.listOfReading
              wiring.outputs := by
  have hfields :=
    (Record.reads_required "gate_number" GateNumber.ofReading).and
      ((Record.reads_required "input_wires" WireId.listOfReading).and
        (Record.reads_required "output_wires" WireId.listOfReading)
        (by simp)) (by simp)
  exact hfields.map
    (g := fun wiring : GateWiring =>
      (wiring.number, wiring.inputs, wiring.outputs))
    (fun _ => rfl) fun _ => rfl

end GateWiring

namespace GateDescription

def names : List String :=
  ["gate_number", "input_wires", "output_wires", "gate_type", "truth_table"]

/-- The parts of a gate are the values of its fields; a function and a truth
table may be given or not. -/
structure GivenBy (description : GateDescription)
    (fields : List (String × Reading)) : Prop where
  number : Gives fields "gate_number" GateNumber.ofReading
    description.wiring.number
  inputs : Gives fields "input_wires" WireId.listOfReading
    description.wiring.inputs
  outputs : Gives fields "output_wires" WireId.listOfReading
    description.wiring.outputs
  function : MayGive fields "gate_type" GateFunction.ofReading
    description.function
  truthTable : MayGive fields "truth_table" (Decoder.list Decoder.bool)
    description.truthTable

/-- A gate is described by the fields of an object or by an array. -/
def ReadFrom (description : GateDescription) (reading : Reading) : Prop :=
  ∃ fields, Record.fieldsUnder names reading = .ok fields ∧
    description.GivenBy fields

theorem reads_record :
    record.Reads names fun fields description =>
      description.GivenBy fields := by
  have hfields := GateWiring.reads_record.and
    ((Record.reads_omissible "gate_type" GateFunction.ofReading).and
      (Record.reads_omissible "truth_table" (Decoder.list Decoder.bool))
      (by simp)) (by simp)
  have hrecord : record.Reads names _ := hfields.map
    (g := fun description : GateDescription =>
      (description.wiring, description.function, description.truthTable))
    (fun _ => rfl) fun _ => rfl
  refine ⟨hrecord.toHasNames, ?_⟩
  intro fields description
  rw [hrecord.collect_iff]
  constructor
  · rintro ⟨⟨hnumber, hinputs, houtputs⟩, hfunction, htable⟩
    exact ⟨hnumber, hinputs, houtputs, hfunction, htable⟩
  · rintro ⟨hnumber, hinputs, houtputs, hfunction, htable⟩
    exact ⟨⟨hnumber, hinputs, houtputs⟩, hfunction, htable⟩

theorem ofReading_eq_ok_iff
    {description : GateDescription} {reading : Reading} :
    ofReading reading = .ok description ↔ description.ReadFrom reading :=
  reads_record.decode_eq_ok_iff

theorem table_eq (description : GateDescription) :
    description.table = description.truthTable.getD
      (description.function.elim [] GateFunction.truthTable) := by
  unfold table
  cases description.truthTable with
  | some table => rfl
  | none => cases description.function <;> rfl

end GateDescription

namespace Gate

theorem ofReading_eq_ok_iff {gate : Gate} {reading : Reading} :
    ofReading reading = .ok gate ↔
      ∃ description : GateDescription, description.ReadFrom reading ∧
        description.build = .ok gate := by
  simp only [ofReading, Decoder.refine_eq_ok_iff, mapError_eq_ok_iff,
    GateDescription.ofReading_eq_ok_iff]

theorem build_self (gate : Gate) :
    build gate.number gate.inputs gate.outputs gate.truthTable = .ok gate := by
  have hvalues : true ∈ gate.truthTable ∧ false ∈ gate.truthTable :=
    ⟨gate.mem_truthTable true, gate.mem_truthTable false⟩
  rw [build, dif_neg gate.inputs_ne_nil, dif_neg gate.outputs_ne_nil,
    dif_pos gate.arity_lt, dif_pos gate.length_truthTable, dif_pos hvalues]

theorem ofReading_toJson (gate : Gate) :
    ofReading (.ofJson gate.toJson) = .ok gate := by
  have hlist : Decoder.list Decoder.bool (.ofJson (.ofBits gate.truthTable)) =
      .ok gate.truthTable :=
    Decoder.list_ofJson fun value _ => Decoder.bool_ofJson value
  have htable : (Decoder.list Decoder.bool).optional
      (.ofJson (.ofBits gate.truthTable)) = .ok (some gate.truthTable) := by
    change some <$> Decoder.list Decoder.bool _ = _
    rw [hlist]
    rfl
  let description : GateDescription :=
    ⟨gate.toGateWiring, none, some gate.truthTable⟩
  have hfields := nameFields_ofFields
    (gate.jsonFields ++ [("truth_table", .ofBits gate.truthTable)])
  have hgiven : description.ReadFrom (.ofJson gate.toJson) := by
    refine ⟨_, hfields, ?_⟩
    simp only [GateWiring.jsonFields]
    exact
      { number := ⟨_, by simp, GateNumber.ofReading_toJson gate.number⟩
        inputs := ⟨_, by simp, WireId.listOfReading_toJson gate.inputs⟩
        outputs := ⟨_, by simp, WireId.listOfReading_toJson gate.outputs⟩
        function := Or.inl ⟨by simp, rfl⟩
        truthTable := Or.inr ⟨_, by simp, htable⟩ }
  exact ofReading_eq_ok_iff.mpr ⟨description, hgiven, gate.build_self⟩

end Gate

/-! ## Circuits -/

namespace CircuitDescription

def names : List String :=
  ["party_inputs", "gates", "output_wires"]

theorem reads_record (gate : Decoder γ) :
    (record gate).Reads names fun fields description =>
      Gives fields "party_inputs" WireId.partiesOfReading
          description.partyInputs ∧
        Gives fields "gates" (Decoder.list gate) description.gates ∧
          Gives fields "output_wires" WireId.listOfReading
            description.outputs := by
  have hfields :=
    (Record.reads_required "party_inputs" WireId.partiesOfReading).and
      ((Record.reads_required "gates" (Decoder.list gate)).and
        (Record.reads_required "output_wires" WireId.listOfReading)
        (by simp)) (by simp)
  exact hfields.map
    (g := fun description : CircuitDescription γ =>
      (description.partyInputs, description.gates, description.outputs))
    (fun _ => rfl) fun _ => rfl

/-- The parts of a circuit are the values of its fields, its gates those that
the items of an array describe. -/
structure GivenBy (description : CircuitDescription GateDescription)
    (fields : List (String × Reading)) : Prop where
  partyInputs : Gives fields "party_inputs" WireId.partiesOfReading
    description.partyInputs
  gates : ∃ items, valuesOf "gates" fields = [.array items] ∧
    List.Forall₂ (fun item gate => GateDescription.ReadFrom gate item)
      items description.gates
  outputs : Gives fields "output_wires" WireId.listOfReading
    description.outputs

/-- A circuit is described by a text that holds nothing else. -/
def ReadFrom (description : CircuitDescription GateDescription)
    (text : String) : Prop :=
  (Json.Document.ofText text).ended ∧
    ∃ fields,
      Record.fieldsUnder names (Json.Document.ofText text).value =
          .ok fields ∧
        description.GivenBy fields

end CircuitDescription

namespace Circuit

variable {circuit : Circuit}

theorem ofReading_eq_ok_iff {reading : Reading} :
    ofReading reading = .ok circuit ↔
      ∃ fields,
        Record.fieldsUnder CircuitDescription.names reading = .ok fields ∧
        Gives fields "party_inputs" WireId.partiesOfReading
          circuit.partyInputs ∧
        Gives fields "gates" (Decoder.list Gate.ofReading) circuit.gates ∧
        Gives fields "output_wires" WireId.listOfReading circuit.outputs := by
  simp only [ofReading, Decoder.refine_eq_ok_iff, mapError_eq_ok_iff,
    CircuitDescription.build, build_eq_ok_iff, CircuitDescription.ofReading,
    (CircuitDescription.reads_record _).decode_eq_ok_iff]
  constructor
  · rintro ⟨description, hfields, hparties, hgates, houtputs⟩
    rw [hparties, hgates, houtputs]
    exact hfields
  · intro hfields
    exact ⟨⟨circuit.partyInputs, circuit.gates, circuit.outputs⟩, hfields,
      rfl, rfl, rfl⟩

theorem ofReading_toJson (circuit : Circuit) :
    ofReading (.ofJson circuit.toJson) = .ok circuit := by
  have hgates : Decoder.list Gate.ofReading
      (.ofJson (.list Gate.toJson circuit.gates)) = .ok circuit.gates :=
    Decoder.list_ofJson fun gate _ => Gate.ofReading_toJson gate
  refine ofReading_eq_ok_iff.mpr ⟨_, nameFields_ofFields _,
    ⟨_, ?_, WireId.partiesOfReading_toJson circuit.partyInputs⟩,
    ⟨_, ?_, hgates⟩, _, ?_, WireId.listOfReading_toJson circuit.outputs⟩
  · simp
  · simp
  · simp

theorem ofText_eq_ok_iff {text : String} :
    ofText text = .ok circuit ↔
      (Json.Document.ofText text).ended ∧
        ofReading (Json.Document.ofText text).value = .ok circuit := by
  rw [ofText, mapError_eq_ok_iff, Decoder.ofText, bind_eq_ok_iff]
  cases hended : (Json.Document.ofText text).ended with
  | true => simp [pure_eq_ok_iff]
  | false => simp [Decoder.malformed]

theorem ofText_toText (circuit : Circuit) :
    ofText circuit.toText = .ok circuit := by
  rw [ofText_eq_ok_iff, toText, Json.Document.ofText_render]
  exact ⟨rfl, ofReading_toJson circuit⟩

theorem gives_gates_iff
    {fields : List (String × Reading)} {gates : List Gate} :
    Gives fields "gates" (Decoder.list Gate.ofReading) gates ↔
      ∃ descriptions : List GateDescription,
        (∃ items, valuesOf "gates" fields = [.array items] ∧
          List.Forall₂ (fun item gate => GateDescription.ReadFrom gate item)
            items descriptions) ∧
        List.Forall₂ (fun description gate =>
          GateDescription.build description = .ok gate) descriptions gates := by
  simp only [Gives, Decoder.list_eq_ok_iff, Gate.ofReading_eq_ok_iff,
    forall₂_exists_iff]
  constructor
  · rintro ⟨_, hvalues, items, rfl, descriptions, hread, hbuild⟩
    exact ⟨descriptions, ⟨items, hvalues, hread⟩, hbuild⟩
  · rintro ⟨descriptions, ⟨items, hvalues, hread⟩, hbuild⟩
    exact ⟨_, hvalues, items, rfl, descriptions, hread, hbuild⟩

theorem ofText_eq_ok_iff_described {text : String} :
    ofText text = .ok circuit ↔
      ∃ description : CircuitDescription GateDescription,
        description.ReadFrom text ∧
          description.partyInputs = circuit.partyInputs ∧
          description.outputs = circuit.outputs ∧
          List.Forall₂ (fun description gate =>
              GateDescription.build description = .ok gate)
            description.gates circuit.gates := by
  rw [ofText_eq_ok_iff, ofReading_eq_ok_iff]
  constructor
  · rintro ⟨hended, fields, hfields, hparties, hgates, houtputs⟩
    obtain ⟨descriptions, hread, hbuild⟩ := gives_gates_iff.mp hgates
    exact ⟨⟨circuit.partyInputs, descriptions, circuit.outputs⟩,
      ⟨hended, fields, hfields, hparties, hread, houtputs⟩, rfl, rfl, hbuild⟩
  · rintro ⟨description, ⟨hended, fields, hfields, hgiven⟩, hparties,
      houtputs, hbuild⟩
    refine ⟨hended, fields, hfields, ?_, ?_, ?_⟩
    · rw [← hparties]
      exact hgiven.partyInputs
    · exact gives_gates_iff.mpr ⟨description.gates, hgiven.gates, hbuild⟩
    · rw [← houtputs]
      exact hgiven.outputs

/-- A circuit is read back from its text, and a text is read as a circuit
exactly if the gates that it describes can be built, from their truth tables
or else from their functions, and this circuit is built from them. -/
theorem ofText_inverts_toText_and_builds_description :
    (∀ circuit : Circuit, ofText circuit.toText = .ok circuit) ∧
      ∀ (text : String) (circuit : Circuit),
        ofText text = .ok circuit ↔
          ∃ description : CircuitDescription GateDescription,
            description.ReadFrom text ∧
            ∃ gates : List Gate,
              List.Forall₂ (fun (given : GateDescription) gate =>
                  Gate.build given.wiring.number given.wiring.inputs
                    given.wiring.outputs
                    (given.truthTable.getD
                      (given.function.elim [] GateFunction.truthTable)) =
                    .ok gate) description.gates gates ∧
                build description.partyInputs gates description.outputs =
                  .ok circuit := by
  refine ⟨ofText_toText, ?_⟩
  intro text circuit
  simp only [ofText_eq_ok_iff_described, build_eq_ok_iff,
    ← GateDescription.table_eq]
  apply exists_congr
  intro description
  apply and_congr_right'
  constructor
  · rintro ⟨hparties, houtputs, hbuild⟩
    exact ⟨circuit.gates, hbuild, hparties.symm, rfl, houtputs.symm⟩
  · rintro ⟨_, hbuild, hparties, rfl, houtputs⟩
    exact ⟨hparties.symm, houtputs.symm, hbuild⟩

end Circuit

end GarbledCircuits
