import GarbledCircuits.Proofs.Garbled.Garbling
import GarbledCircuits.Proofs.Garbled.Issuing
import GarbledCircuits.Proofs.Garbled.Soundness

/-!
# Correctness of garbling

A circuit that was garbled from any stream of words is realized by its tables
under the issued pairs.  So it evaluates and decodes, on the keys of all
parties' bits together, to what the circuit computes.
-/

namespace GarbledCircuits

open Outcome

namespace Secrets

/-- The keys of all parties' input wires for the bits of all parties. -/
def allInputKeys (secrets : Secrets) (bits : List (List Bool)) :
    Except CircuitError ActiveKeys :=
  bits.zipIdx.foldlM (fun keys (own, party) => do
    let others ← secrets.inputKeys party own
    return keys ∪ others) ∅

variable {secrets : Secrets} {pair : WireId → KeyPair} {value : WireId → Bool}

theorem inputKeys_eq_ok
    {party : Nat} {wires : List WireId}
    (hwires : secrets.partyInputs[party]? = some wires)
    (hpairs : ∀ wire ∈ wires, secrets.inputPairs[wire]? = some (pair wire)) :
    secrets.inputKeys party (wires.map value) =
      .ok (assign ∅ (wires.map fun wire =>
        (wire, (pair wire).select (value wire)))) := by
  have hzip : wires.zip (wires.map value) =
      wires.map fun wire => (wire, value wire) := by
    rw [List.zip, List.zipWith_map_right, List.zipWith_self]
  have hentries := mapM_inputKey_eq_ok hpairs value
  unfold inputKeys
  rw [hwires]
  simp only [List.length_map, ne_eq, not_true_eq_false, if_false, hzip,
    hentries]
  rfl

theorem exists_allInputKeys_eq_ok
    (hpairs : ∀ wire ∈ secrets.partyInputs.flatten,
      secrets.inputPairs[wire]? = some (pair wire)) :
    ∃ keys, secrets.allInputKeys
        (secrets.partyInputs.map (List.map value)) = .ok keys ∧
      ∀ wire ∈ secrets.partyInputs.flatten,
        keys[wire]? = some ((pair wire).select (value wire)) := by
  have hkeys : ∃ keys, secrets.allInputKeys
        (secrets.partyInputs.map (List.map value)) = .ok keys ∧
      ∀ wire ∈ (secrets.partyInputs.take
          (secrets.partyInputs.map (List.map value)).zipIdx.length).flatten,
        keys[wire]? = some ((pair wire).select (value wire)) := by
    apply foldlM_progress (fun party (keys : ActiveKeys) =>
      ∀ wire ∈ (secrets.partyInputs.take party).flatten,
        keys[wire]? = some ((pair wire).select (value wire)))
    · simp
    · rintro party ⟨own, number⟩ keys hentry hkeys
      rw [List.getElem?_zipIdx, List.getElem?_map] at hentry
      obtain ⟨wires, hwires, hown, hnumber⟩ :
          ∃ wires, secrets.partyInputs[party]? = some wires ∧
            wires.map value = own ∧ party = number := by
        simpa using hentry
      subst hown hnumber
      have hmem : ∀ wire ∈ wires, wire ∈ secrets.partyInputs.flatten :=
        fun wire hwire => List.mem_flatten.mpr
          ⟨wires, List.mem_of_getElem? hwires, hwire⟩
      have hothers : secrets.inputKeys party (wires.map value) = _ :=
        inputKeys_eq_ok hwires fun wire hwire => hpairs wire (hmem wire hwire)
      refine ⟨_, bind_eq_ok_iff.mpr ⟨_, hothers, rfl⟩, ?_⟩
      intro wire hwire
      rw [Std.ExtTreeMap.getElem?_union]
      by_cases hin : wire ∈ wires
      · rw [getElem?_assign_map (fun wire =>
          (pair wire).select (value wire)) hin, Option.some_or]
      · rw [getElem?_assign_of_forall_ne]
        · rw [List.take_add_one, hwires, List.flatten_append,
            List.mem_append] at hwire
          rcases hwire with hbefore | hnow
          · simpa using hkeys wire hbefore
          · exact absurd (by simpa using hnow) hin
        · rintro entry hmap rfl
          obtain ⟨other, hother, rfl⟩ := List.mem_map.mp hmap
          exact hin hother
  simpa using hkeys

end Secrets

namespace Circuit

variable {circuit : Circuit} {garbler evaluator : Executor} {scheme : Scheme}

/-- What was garbled evaluates, on the keys of all parties' bits, to the keys
that the computed bits select from the output pairs, and these decode to the
computed bits. -/
theorem evaluate_of_garble
    (hsize : scheme.cipherSize = 32) {stream : WordStream}
    {garbled : GarbledCircuit} {secrets : Secrets}
    (hgarble : (circuit.garble garbler scheme stream).1 =
      .ok (garbled, secrets))
    {bits : List (List Bool)} (hfits : circuit.Fits bits) :
    ∃ keys values,
      secrets.allInputKeys bits = .ok keys ∧
      circuit.compute bits = .ok values ∧
      secrets.outputPairs.length = values.length ∧
      garbled.evaluate evaluator scheme keys =
        .ok (selectKeys secrets.outputPairs values) ∧
      translate (selectKeys secrets.outputPairs values)
        garbled.translation = .ok values ∧
      verifiedTranslate (selectKeys secrets.outputPairs values)
        secrets.outputPairs = .ok values := by
  obtain ⟨store, hissued, hgarbleUnder⟩ := exists_issueKeys_of_garble hgarble
  have hunder := garbledUnder_of_garbleUnder hgarbleUnder
  obtain ⟨hstore, _⟩ := issueKeys_eq_ok hissued
  have hshared : ∀ gate ∈ circuit.gates, ∀ wire ∈ gate.outputs,
      store.pairOf wire = store.pairOf gate.firstOutput := by
    intro gate hgate wire hwire
    obtain ⟨keys, hkeys⟩ := exists_keys_of_mem_gates hissued hgate
    have hfirst := hkeys gate.firstOutput gate.firstOutput_mem_outputs
    rw [KeyStore.pairOf, KeyStore.pairOf, hkeys wire hwire, hfirst]
  have hrealized :=
    realizedBy_of_mapM_garble hsize hstore hshared hunder.tables
  obtain ⟨value, hcarries, hcomputes⟩ := hfits.exists_computes
  have hpairs : ∀ wire ∈ secrets.partyInputs.flatten,
      secrets.inputPairs[wire]? = some (store.pairOf wire) := by
    rw [hunder.partyInputs]
    exact hunder.inputPairs
  obtain ⟨keys, hallKeys, hkeys⟩ := Secrets.exists_allInputKeys_eq_ok hpairs
  rw [hunder.partyInputs] at hallKeys hkeys
  obtain ⟨values, hagrees⟩ := hrealized.agrees hsize hunder.topology
    (mapM_eq_ok_iff.mp hunder.tables).length_eq.symm
    (KeyStore.map_pairOf_of_mapM_pair hunder.outputPairs)
    (hstore.opposed_of_mapM_pair hunder.outputPairs) hunder.translation hfits
    hcarries hcomputes hkeys
  refine ⟨keys, values, ?_, hagrees⟩
  rw [← hallKeys, ← hcarries]

/-- The inverter that is garbled over AES-128 from a stream of zeros. -/
theorem evaluate_of_garble_inverter :
    Scheme.fixedKeyAes.cipherSize = 32 ∧ inverter.Fits [[true]] ∧
      ∃ garbled secrets,
        (inverter.garble (.pool .inOrder) .fixedKeyAes
            ⟨fun _ => 0, 0⟩).1 = .ok (garbled, secrets) ∧
          ∃ keys values,
            secrets.allInputKeys [[true]] = .ok keys ∧
            inverter.compute [[true]] = .ok values ∧
            secrets.outputPairs.length = values.length ∧
            garbled.evaluate .sequential .fixedKeyAes keys =
              .ok (selectKeys secrets.outputPairs values) ∧
            translate (selectKeys secrets.outputPairs values)
              garbled.translation = .ok values ∧
            verifiedTranslate (selectKeys secrets.outputPairs values)
              secrets.outputPairs = .ok values := by
  have hfits : inverter.Fits [[true]] := .cons rfl .nil
  have hok : (inverter.garble (.pool .inOrder) .fixedKeyAes
      ⟨fun _ => 0, 0⟩).1.isOk = true := by
    decide +kernel
  obtain ⟨result, hgarble⟩ := exists_eq_ok_of_isOk hok
  exact ⟨rfl, hfits, result.1, result.2, hgarble,
    evaluate_of_garble rfl hgarble hfits⟩

end Circuit

end GarbledCircuits
