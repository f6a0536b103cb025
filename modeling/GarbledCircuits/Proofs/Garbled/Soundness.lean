import GarbledCircuits.Proofs.Garbled.Verification

/-!
# Soundness of verification

Whatever tables and translation table were received for a circuit: once they
are verified against opened keys, every choice of input bits is evaluated and
decoded to what the circuit computes.
-/

namespace GarbledCircuits

open Outcome

namespace GarbledCircuit

variable {circuit : Circuit} {scheme : Scheme} {garbled : GarbledCircuit}

theorem run_replaceTables_eq_ok_iff
    {tables : Tables} {next : GarbledCircuit} :
    (replaceTables tables).run garbled = .ok () next ↔
      tables.checkLayout garbled.topology.rowCounts garbled.cipherSize =
          .ok () ∧
        next = { garbled with tables := tables } := by
  cases hlayout : tables.checkLayout garbled.topology.rowCounts
    garbled.cipherSize with
  | ok _ =>
      simp [replaceTables, hlayout, CircuitError.ofTable, Except.mapError,
        MonadExcept.ofExcept, eq_comm]
  | error cause =>
      simp [replaceTables, hlayout, CircuitError.ofTable, Except.mapError,
        MonadExcept.ofExcept]

theorem run_replaceTranslation_eq_ok_iff
    {translation : Translation} {next : GarbledCircuit} :
    (replaceTranslation translation).run garbled = .ok () next ↔
      translation.length = garbled.topology.outputs.length ∧
        next = { garbled with translation := translation } := by
  by_cases hlength : translation.length = garbled.topology.outputs.length
  · simp [replaceTranslation, hlength, eq_comm]
  · simp [replaceTranslation, hlength]

theorem ofParts_eq_ok_iff
    {tables : Tables} {translation : Translation} :
    ofParts circuit scheme tables translation = .ok garbled ↔
      tables.checkLayout circuit.topology.rowCounts scheme.cipherSize =
          .ok () ∧
        translation.length = circuit.outputs.length ∧
        garbled = ⟨scheme.kind, scheme.cipherSize, circuit.topology, tables,
          translation⟩ := by
  simp only [ofParts, setTables, setTranslation, bind_eq_ok_iff,
    stateAfter_eq_ok_iff, exists_unit_iff, run_replaceTables_eq_ok_iff,
    run_replaceTranslation_eq_ok_iff]
  constructor
  · rintro ⟨_, ⟨hlayout, rfl⟩, hlength, rfl⟩
    exact ⟨hlayout, hlength, rfl⟩
  · rintro ⟨hlayout, hlength, rfl⟩
    exact ⟨_, ⟨hlayout, rfl⟩, hlength, rfl⟩

/-- A garbled circuit that was put together for a circuit, from tables and
bits or from bytes. -/
def RebuiltFor (garbled : GarbledCircuit) (circuit : Circuit)
    (scheme : Scheme) : Prop :=
  (∃ tables translation,
      ofParts circuit scheme tables translation = .ok garbled) ∨
    ∃ tables translation,
      ofBytes circuit scheme tables translation = .ok garbled

theorem RebuiltFor.exists_ofParts
    (hrebuilt : garbled.RebuiltFor circuit scheme) :
    ∃ tables translation,
      ofParts circuit scheme tables translation = .ok garbled := by
  rcases hrebuilt with hparts | ⟨tables, translation, hbytes⟩
  · exact hparts
  · simp only [ofBytes, bind_eq_ok_iff] at hbytes
    obtain ⟨_, _, _, _, hparts⟩ := hbytes
    exact ⟨_, _, hparts⟩

theorem RebuiltFor.topology_eq
    (hrebuilt : garbled.RebuiltFor circuit scheme) :
    garbled.topology = circuit.topology := by
  obtain ⟨tables, translation, hparts⟩ := hrebuilt.exists_ofParts
  obtain ⟨_, _, rfl⟩ := ofParts_eq_ok_iff.mp hparts
  rfl

end GarbledCircuit

theorem mapM_inputKey_eq_ok
    {secrets : Secrets} {wires : List WireId} {pair : WireId → KeyPair}
    (hpairs : ∀ wire ∈ wires, secrets.inputPairs[wire]? = some (pair wire))
    (value : WireId → Bool) :
    (wires.map fun wire => (wire, value wire)).mapM secrets.inputKey =
      .ok (wires.map fun wire => (wire, (pair wire).select (value wire))) := by
  rw [List.mapM_map]
  apply mapM_eq_ok_map
  intro wire hwire
  rw [Function.comp_apply, Secrets.inputKey,
    valueAt_eq_ok_iff.mpr (hpairs wire hwire)]
  rfl

/-- A verified circuit evaluates, on the keys that any input bits select, to
the keys that the computed bits select from the verified outputs, and these
decode to the computed bits. -/
theorem evaluate_of_verify
    {circuit : Circuit} {verifier evaluator : Executor} {scheme : Scheme}
    {garbled : GarbledCircuit} {secrets : Secrets} {outs : List KeyPair}
    (hsize : scheme.cipherSize = 32)
    (hrebuilt : garbled.RebuiltFor circuit scheme)
    (hverify : circuit.verify garbled verifier scheme secrets = .ok outs)
    {bits : List (List Bool)} (hfits : circuit.Fits bits) :
    ∃ entries values,
      (circuit.inputs.zip bits.flatten).mapM secrets.inputKey = .ok entries ∧
      circuit.compute bits = .ok values ∧
      outs.length = values.length ∧
      garbled.evaluate evaluator scheme (assign ∅ entries) =
        .ok (selectKeys outs values) ∧
      translate (selectKeys outs values) garbled.translation = .ok values ∧
      verifiedTranslate (selectKeys outs values) outs = .ok values := by
  obtain ⟨hgates, hbits, hopposed, _⟩ := Circuit.verify_eq_ok_iff.mp hverify
  obtain ⟨_, hcount, pair, hpairs, hrealized, houts⟩ :=
    (Circuit.verifyGates_eq_ok_iff hsize).mp hgates
  obtain ⟨value, hcarries, hcomputes⟩ := hfits.exists_computes
  have hentries := mapM_inputKey_eq_ok hpairs value
  rw [← hcarries.zip_eq] at hentries
  obtain ⟨values, hagrees⟩ := hrealized.agrees hsize hrebuilt.topology_eq
    hcount houts hopposed hbits hfits hcarries hcomputes
    (fun wire hwire => getElem?_assign_map
      (fun wire => (pair wire).select (value wire)) hwire)
  exact ⟨_, values, hentries, hagrees⟩

/-! ## A transparent inverter -/

/-- The inverter with the same pair on both wires. -/
def GarbledCircuit.inverter : GarbledCircuit where
  kind := .fixedKeyAes
  cipherSize := 32
  topology := Circuit.inverter.topology
  tables := [⟨List.replicate 15 0 ++ 1 :: List.replicate 48 0, 32⟩]
  translation := ⟨[false]⟩

def Secrets.inverter : Secrets where
  partyInputs := [[0]]
  inputPairs := assign ∅ [(0, .unit)]
  outputPairs := [.unit]
  translation := ⟨[false]⟩

theorem evaluate_of_verify_inverter :
    Scheme.transparent.cipherSize = 32 ∧
      GarbledCircuit.inverter.RebuiltFor .inverter .transparent ∧
      Circuit.inverter.verify .inverter (.pool .inOrder) .transparent
        .inverter = .ok [.unit] ∧
      Circuit.inverter.Fits [[true]] ∧
      ∃ entries values,
        (Circuit.inverter.inputs.zip [[true]].flatten).mapM
          Secrets.inverter.inputKey = .ok entries ∧
        Circuit.inverter.compute [[true]] = .ok values ∧
        [KeyPair.unit].length = values.length ∧
        GarbledCircuit.inverter.evaluate .sequential .transparent
          (assign ∅ entries) = .ok (selectKeys [.unit] values) ∧
        translate (selectKeys [.unit] values)
          GarbledCircuit.inverter.translation = .ok values ∧
        verifiedTranslate (selectKeys [.unit] values) [.unit] =
          .ok values := by
  have hrebuilt : GarbledCircuit.inverter.RebuiltFor .inverter .transparent :=
    Or.inl ⟨GarbledCircuit.inverter.tables,
      GarbledCircuit.inverter.translation, by decide +kernel⟩
  have hverify : Circuit.inverter.verify .inverter (.pool .inOrder)
      .transparent .inverter = .ok [.unit] := by decide +kernel
  have hfits : Circuit.inverter.Fits [[true]] := .cons rfl .nil
  exact ⟨rfl, hrebuilt, hverify, hfits,
    evaluate_of_verify rfl hrebuilt hverify hfits⟩

end GarbledCircuits
