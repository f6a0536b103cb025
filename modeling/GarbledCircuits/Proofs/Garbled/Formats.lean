import GarbledCircuits.Proofs.Garbled.Garbling
import GarbledCircuits.Proofs.Garbled.Soundness
import GarbledCircuits.Proofs.Table.Cutting

/-!
# Sending garbled circuits as bytes

A garbled circuit is sent as the bytes of its tables and of its translation
table.  Bytes are accepted exactly if their lengths are those that the circuit
calls for and the translation bytes are bits.  What is accepted is sent as the
same bytes again, and what was garbled is received as it was.
-/

namespace GarbledCircuits

open Outcome

namespace Circuit

variable {circuit : Circuit} {scheme : Scheme} {store : KeyStore}

theorem rowCounts_topology (circuit : Circuit) :
    circuit.topology.rowCounts = circuit.gates.map Gate.rowCount := by
  simp [Topology.rowCounts, topology, Gate.rows_eq_rowCount,
    Function.comp_def]

theorem flatLength_rowCounts (circuit : Circuit) (scheme : Scheme) :
    Tables.flatLength (circuit.gates.map Gate.rowCount) scheme.cipherSize =
      (circuit.gates.map fun gate =>
        2 ^ gate.arity * scheme.cipherSize).sum := by
  simp [Tables.flatLength, Gate.rowCount_eq, Function.comp_def]

theorem laid_of_mapM_garble
    {tables : Tables}
    (htables : circuit.gates.mapM (Gate.garble · scheme store) =
      .ok tables) :
    tables.Laid (circuit.gates.map Gate.rowCount) scheme.cipherSize := by
  rw [Tables.Laid, List.forall₂_map_right_iff]
  exact (mapM_eq_ok_iff.mp htables).flip.imp fun _ _ hgarble =>
    Gate.hasRows_of_garble hgarble

end Circuit

namespace GarbledCircuit

variable {circuit : Circuit} {scheme : Scheme} {garbled : GarbledCircuit}
  {tables translation : List UInt8}

/-- The parts have the sizes for a circuit, and all else is the circuit's. -/
structure FitsCircuit (garbled : GarbledCircuit) (circuit : Circuit)
    (scheme : Scheme) : Prop where
  tables : garbled.tables.Laid (circuit.gates.map Gate.rowCount)
    scheme.cipherSize
  translation : garbled.translation.length = circuit.outputs.length
  eq_parts : garbled = ⟨scheme.kind, scheme.cipherSize, circuit.topology,
    garbled.tables, garbled.translation⟩

theorem ofBytes_eq_ok_iff :
    ofBytes circuit scheme tables translation = .ok garbled ↔
      garbled.FitsCircuit circuit scheme ∧
        garbled.tables.toBytes = tables ∧ tables.length < wordLimit ∧
        garbled.translation.toBytes = translation := by
  simp only [ofBytes, bind_eq_ok_iff, CircuitError.ofTable,
    mapError_eq_ok_iff, Tables.ofBytes_eq_ok_iff, scheme.cipherSize_pos,
    true_and, Translation.ofBytes_eq_ok_iff, ofParts_eq_ok_iff]
  constructor
  · rintro ⟨parts, ⟨hlaid, htables, hlimit⟩, bits, hbits, _, hcount, rfl⟩
    exact ⟨⟨hlaid, hcount, rfl⟩, htables, hlimit, hbits⟩
  · rintro ⟨⟨hlaid, hcount, heq⟩, htables, hlimit, hbits⟩
    refine ⟨_, ⟨hlaid, htables, hlimit⟩, _, hbits, ?_, hcount, heq⟩
    rw [circuit.rowCounts_topology]
    exact hlaid.checkLayout scheme.cipherSize_pos

theorem exists_ofBytes_iff (hlimit : tables.length < wordLimit) :
    (∃ garbled, ofBytes circuit scheme tables translation = .ok garbled) ↔
      tables.length = Tables.flatLength (circuit.gates.map Gate.rowCount)
          scheme.cipherSize ∧
        translation.length = circuit.outputs.length ∧
        ∀ byte ∈ translation, byte = 0 ∨ byte = 1 := by
  rw [← Tables.exists_ofBytes_iff scheme.cipherSize_pos hlimit,
    ← Translation.exists_ofBytes_iff]
  simp only [ofBytes_eq_ok_iff, Translation.ofBytes_eq_ok_iff,
    Tables.ofBytes_eq_ok_iff, scheme.cipherSize_pos, true_and]
  constructor
  · rintro ⟨garbled, ⟨hlaid, hcount, _⟩, htables, _, rfl⟩
    refine ⟨⟨_, hlaid, htables, hlimit⟩, ?_, _, rfl⟩
    rw [Translation.toBytes, List.length_map]
    exact hcount
  · rintro ⟨⟨parts, hlaid, htables, _⟩, hcount, bits, rfl⟩
    rw [Translation.toBytes, List.length_map] at hcount
    exact ⟨⟨_, _, _, parts, bits⟩, ⟨hlaid, hcount, rfl⟩, htables, hlimit, rfl⟩

theorem fitsCircuit_of_garbleUnder
    {executor : Executor} {store : KeyStore} {secrets : Secrets}
    (hgarble : circuit.garbleUnder executor scheme store =
      .ok (garbled, secrets)) :
    garbled.FitsCircuit circuit scheme := by
  have hunder := Circuit.garbledUnder_of_garbleUnder hgarble
  refine ⟨Circuit.laid_of_mapM_garble hunder.tables, ?_, ?_⟩
  · rw [Translation.length, hunder.translation, List.length_map]
    exact (mapM_eq_ok_iff.mp hunder.outputPairs).length_eq.symm
  · simp only [Circuit.garbleUnder, bind_eq_ok_iff, pure_eq_ok_iff,
      Prod.mk.injEq] at hgarble
    obtain ⟨_, _, _, _, _, _, rfl, _⟩ := hgarble
    rfl

/-- Bytes are received exactly if they fit the circuit, they are sent again as
they were, and those of a garbling are received as that garbling. -/
theorem ofBytes_iff_fits_and_inverts_toBytes
    (circuit : Circuit) (scheme : Scheme) {tables translation : List UInt8}
    (hlimit : tables.length < wordLimit) :
    ((∃ garbled, ofBytes circuit scheme tables translation = .ok garbled) ↔
        tables.length = (circuit.gates.map fun gate =>
            2 ^ gate.arity * scheme.cipherSize).sum ∧
          translation.length = circuit.outputs.length ∧
          ∀ byte ∈ translation, byte = 0 ∨ byte = 1) ∧
      (∀ garbled, ofBytes circuit scheme tables translation = .ok garbled →
        garbled.tables.toBytes = tables ∧
          garbled.translation.toBytes = translation) ∧
      ∀ executor stream garbled secrets,
        (circuit.garble executor scheme stream).1 = .ok (garbled, secrets) →
        garbled.tables.toBytes = tables →
        garbled.translation.toBytes = translation →
          ofBytes circuit scheme tables translation = .ok garbled := by
  refine ⟨?_, ?_, ?_⟩
  · rw [← circuit.flatLength_rowCounts]
    exact exists_ofBytes_iff hlimit
  · intro garbled hbytes
    obtain ⟨_, htables, _, htranslation⟩ := ofBytes_eq_ok_iff.mp hbytes
    exact ⟨htables, htranslation⟩
  · intro executor stream garbled secrets hgarble htables htranslation
    obtain ⟨store, _, hunder⟩ := bind_eq_ok_iff.mp hgarble
    exact ofBytes_eq_ok_iff.mpr ⟨fitsCircuit_of_garbleUnder hunder, htables,
      hlimit, htranslation⟩

/-- The bytes of the inverter that is garbled over AES-128 from zeros. -/
theorem ofBytes_iff_fits_and_inverts_toBytes_inverter :
    ∃ garbled secrets,
      (Circuit.inverter.garble .sequential .fixedKeyAes
          ⟨fun _ => 0, 0⟩).1 = .ok (garbled, secrets) ∧
        garbled.tables.toBytes.length < wordLimit ∧
        garbled.tables.toBytes.length = (Circuit.inverter.gates.map fun gate =>
          2 ^ gate.arity * Scheme.fixedKeyAes.cipherSize).sum ∧
        ofBytes .inverter .fixedKeyAes garbled.tables.toBytes
          garbled.translation.toBytes = .ok garbled := by
  have hlength : (Circuit.inverter.garble .sequential .fixedKeyAes
      ⟨fun _ => 0, 0⟩).1.toOption.map
        (fun result => result.1.tables.toBytes.length) = some 64 := by
    decide +kernel
  cases hgarble : (Circuit.inverter.garble .sequential .fixedKeyAes
      ⟨fun _ => 0, 0⟩).1 with
  | error cause =>
      rw [hgarble] at hlength
      cases hlength
  | ok result =>
      rw [hgarble] at hlength
      have hbytes : result.1.tables.toBytes.length = 64 :=
        Option.some.inj hlength
      have hlimit : result.1.tables.toBytes.length < wordLimit := by
        rw [hbytes]
        decide
      obtain ⟨haccepted, _, hgarbled⟩ := ofBytes_iff_fits_and_inverts_toBytes
        .inverter .fixedKeyAes hlimit
      have hreceived := hgarbled _ _ result.1 result.2 hgarble rfl rfl
      exact ⟨result.1, result.2, rfl, hlimit, (haccepted.mp ⟨_, hreceived⟩).1,
        hreceived⟩

end GarbledCircuit

end GarbledCircuits
