import GarbledCircuits.Proofs.Failure
import GarbledCircuits.Proofs.Garbled.Honesty
import GarbledCircuits.Proofs.Garbled.Issuing

/-!
# Completeness of garbling and verification

Garbling a circuit whose tables fit in memory can fail for one reason only: a
gate has more inputs than a tweak has words.  If the gates are garbled one by
one, the error is that of the first such gate by level and index.  What was
garbled is always verified, and verification finds the pairs that the garbler
kept.
-/

namespace GarbledCircuits

open Outcome

namespace Gate

/-- The gate has no words in a tweak for its number and all its inputs. -/
def ExceedsTweak (tweakSize : Nat) (gate : Gate) : Prop :=
  tweakSize < tweakWord * (gate.arity + 1)

instance (tweakSize : Nat) (gate : Gate) :
    Decidable (gate.ExceedsTweak tweakSize) :=
  inferInstanceAs (Decidable (_ < _))

/-- What garbling the gate goes wrong with. -/
def tweakFaults (tweakSize : Nat) (gate : Gate) : List (Stop GateError) :=
  if gate.ExceedsTweak tweakSize then
    [.failed (.arityExceedsTweak gate.number gate.arity tweakSize)]
  else []

variable {gate : Gate} {scheme : Scheme} {store : KeyStore}

theorem exceedsTweak_iff {tweakSize : Nat} :
    gate.ExceedsTweak tweakSize ↔ maxArity tweakSize < gate.arity := by
  rw [ExceedsTweak, ← not_le, ← gate.arity_le_maxArity_iff, not_le]

/-- Where all its wires have keys, a gate is garbled unless it does not fit
the tweak. -/
theorem garble_failsFirst
    (hsize : scheme.cipherSize = 32) (hstore : store.WellFormed)
    (hlimit : gate.rowCount * scheme.cipherSize < wordLimit)
    (hinputs : ∀ wire ∈ gate.inputs, wire ∈ store.wires)
    (houtput : gate.firstOutput ∈ store.wires) :
    FailsFirst (gate.tweakFaults scheme.tweakSize)
      (gate.garble scheme store) := by
  unfold tweakFaults
  split_ifs with hexceeds
  · -- The capacity is checked first, so no other failure comes before it.
    rw [FailsFirst.cons_iff, garble, garbleTweaked, checkCapacity,
      if_pos (exceedsTweak_iff.mp hexceeds)]
    rfl
  · rw [exceedsTweak_iff, not_lt] at hexceeds
    exact FailsFirst.nil_iff.mpr (exists_garble hsize hstore hexceeds hlimit
      (KeyStore.mapM_pair_eq_ok_of_forall_mem hinputs)
      (KeyStore.pair_eq_ok_of_mem houtput))

end Gate

namespace Circuit

variable {circuit : Circuit} {executor : Executor} {scheme : Scheme}
  {store : KeyStore} {stream : WordStream} {garbled : GarbledCircuit}
  {secrets : Secrets}

/-! ## When garbling fails -/

/-- What garbling goes wrong with, level by level. -/
def tweakFaults (circuit : Circuit) (tweakSize : Nat) :
    List (Stop GateError) :=
  (circuit.levels.flatMap (gatesAt circuit.gates)).flatMap fun entry =>
    entry.2.tweakFaults tweakSize

theorem head?_tweakFaults_eq_some_iff
    {tweakSize : Nat} {stop : Stop GateError} :
    (circuit.tweakFaults tweakSize).head? = some stop ↔
      ∃ level index gate,
        circuit.FirstOf (fun _ gate => gate.ExceedsTweak tweakSize) level
            index gate ∧
          stop =
            .failed (.arityExceedsTweak gate.number gate.arity tweakSize) :=
  head?_faults_eq_some_iff (p := fun _ gate => gate.ExceedsTweak tweakSize)

theorem tweakFaults_eq_nil_iff {tweakSize : Nat} :
    circuit.tweakFaults tweakSize = [] ↔
      ∀ gate ∈ circuit.gates, tweakWord * (gate.arity + 1) ≤ tweakSize := by
  have hnone : ∀ gate : Gate, gate.tweakFaults tweakSize = [] ↔
      tweakWord * (gate.arity + 1) ≤ tweakSize := by
    intro gate
    rw [← not_lt]
    unfold Gate.tweakFaults Gate.ExceedsTweak
    split_ifs with hexceeds <;> simp [hexceeds]
  rw [tweakFaults, List.flatMap_eq_nil_iff]
  simp only [hnone, Prod.forall, mem_flatMap_gatesAt]
  constructor
  · intro hgates gate hgate
    obtain ⟨index, hindex⟩ := List.getElem?_of_mem hgate
    exact hgates index gate hindex
  · intro hgates index gate hindex
    exact hgates gate (List.mem_of_getElem? hindex)

theorem garbleTables_failsFirst
    (hgates : ∀ gate ∈ circuit.gates,
      FailsFirst (gate.tweakFaults scheme.tweakSize)
        (gate.garble scheme store)) :
    FailsFirst (circuit.tweakFaults scheme.tweakSize)
      (circuit.garbleTables .sequential scheme store) := by
  have hentry : ∀ entry ∈ circuit.levels.flatMap (gatesAt circuit.gates),
      FailsFirst (entry.2.tweakFaults scheme.tweakSize)
        (garbleEntry scheme store entry) := by
    rintro ⟨index, gate⟩ hmem
    have hgate := List.mem_of_getElem? (mem_flatMap_gatesAt.mp hmem)
    exact (hgates gate hgate).map fun table => (index, table)
  have hlevel : ∀ level ∈ circuit.levels, ∀ slots,
      FailsFirst ((gatesAt circuit.gates level).flatMap fun entry =>
          entry.2.tweakFaults scheme.tweakSize)
        (circuit.garbleLevel .sequential scheme store slots level) := by
    intro level hmem slots
    refine (FailsFirst.mapM fun entry hin => ?_).map _
    exact hentry entry (List.mem_flatMap.mpr ⟨level, hmem, hin⟩)
  rw [tweakFaults, List.flatMap_assoc]
  refine FailsFirst.map (FailsFirst.foldlM (fun _ _ => True) trivial ?_) _
  intro _ level slots hat _
  exact ⟨hlevel level (List.mem_of_getElem? hat) slots, fun _ _ => trivial⟩

theorem garbleUnder_failsFirst
    (hgates : ∀ gate ∈ circuit.gates,
      FailsFirst (gate.tweakFaults scheme.tweakSize)
        (gate.garble scheme store))
    (hwires : ∀ wire ∈ circuit.wires, wire ∈ store.wires) :
    FailsFirst ((circuit.tweakFaults scheme.tweakSize).map (Stop.map .gate))
      (circuit.garbleUnder .sequential scheme store) := by
  rw [garbleUnder_eq hwires]
  exact ((garbleTables_failsFirst hgates).mapError _).map _

theorem garble_failsFirst
    (hsize : scheme.cipherSize = 32)
    (hlimit : ∀ gate ∈ circuit.gates,
      gate.rowCount * scheme.cipherSize < wordLimit) :
    FailsFirst ((circuit.tweakFaults scheme.tweakSize).map (Stop.map .gate))
      (circuit.garble .sequential scheme stream).1 := by
  obtain ⟨store, hissue⟩ := circuit.exists_issueKeys stream
  have hwires : ∀ wire ∈ circuit.wires, wire ∈ store.wires :=
    fun wire hwire => (mem_wires_of_issueKeys hissue).mpr hwire
  rw [garble_eq_garbleUnder hissue]
  refine garbleUnder_failsFirst ?_ hwires
  intro gate hgate
  refine Gate.garble_failsFirst hsize (issueKeys_eq_ok hissue).1
    (hlimit gate hgate) ?_ ?_
  · intro wire hwire
    exact hwires wire (mem_wires_of_mem_inputs hgate hwire)
  · exact hwires _ (mem_wires_of_mem_outputs hgate
      gate.firstOutput_mem_outputs)

/-! ## What was garbled is verified -/

theorem exists_honest_of_garble
    (hgarble : (circuit.garble executor scheme stream).1 =
      .ok (garbled, secrets)) :
    ∃ store,
      circuit.Honest scheme garbled secrets secrets.outputPairs store := by
  obtain ⟨store, hissue, hgarbleUnder⟩ := exists_issueKeys_of_garble hgarble
  have hunder := garbledUnder_of_garbleUnder hgarbleUnder
  refine ⟨store, fun wire => mem_wires_of_issueKeys hissue,
    (issueKeys_eq_ok hissue).1, ?_, ?_, hunder.tables, hunder.outputPairs, rfl,
    hunder.translation⟩
  · intro wire hwire
    have hregistered := (mem_wires_of_issueKeys hissue).mpr
      (mem_wires_iff.mpr (Or.inl hwire))
    exact ⟨_, hunder.inputPairs wire hwire,
      KeyStore.pair_eq_ok_of_mem hregistered⟩
  · intro gate hgate wire hwire
    obtain ⟨keys, hkeys⟩ := exists_keys_of_mem_gates hissue hgate
    have hfirst := hkeys gate.firstOutput gate.firstOutput_mem_outputs
    rw [KeyStore.pair_eq_ok_iff.mpr ⟨keys, hkeys wire hwire, rfl⟩,
      KeyStore.pair_eq_ok_iff.mpr ⟨keys, hfirst, rfl⟩]

theorem translation_eq_of_garble
    (hgarble : (circuit.garble executor scheme stream).1 =
      .ok (garbled, secrets)) :
    secrets.translation = garbled.translation := by
  obtain ⟨store, _, hunder⟩ := exists_issueKeys_of_garble hgarble
  simp only [garbleUnder, bind_eq_ok_iff, pure_eq_ok_iff, Prod.mk.injEq]
    at hunder
  obtain ⟨_, _, _, _, _, _, rfl, rfl⟩ := hunder
  rfl

/-- A circuit is garbled from every stream exactly if its gates fit the tweak,
and a sequential run fails at the first one that does not; what was garbled is
verified to the kept pairs, whose signal bits are the translation table. -/
theorem garble_succeeds_iff_and_verifies
    (hsize : scheme.cipherSize = 32)
    (hlimit : ∀ gate ∈ circuit.gates,
      gate.rowCount * scheme.cipherSize < wordLimit) (stream : WordStream) :
    (∀ executor, (∃ garbled secrets,
        (circuit.garble executor scheme stream).1 =
          .ok (garbled, secrets)) ↔
      ∀ gate ∈ circuit.gates,
        tweakWord * (gate.arity + 1) ≤ scheme.tweakSize) ∧
    (∀ stop, (circuit.garble .sequential scheme stream).1 = .error stop ↔
      ∃ level index gate,
        circuit.FirstOf (fun _ gate => gate.ExceedsTweak scheme.tweakSize)
            level index gate ∧
          stop = .failed (.gate (.arityExceedsTweak gate.number gate.arity
            scheme.tweakSize))) ∧
    ∀ executor verifier garbled secrets,
      (circuit.garble executor scheme stream).1 = .ok (garbled, secrets) →
      circuit.verify garbled verifier scheme secrets =
          .ok secrets.outputPairs ∧
        garbled.translation.bits =
          secrets.outputPairs.map KeyPair.signalBit ∧
        secrets.translation = garbled.translation := by
  have hfails : FailsFirst
      ((circuit.tweakFaults scheme.tweakSize).map (Stop.map .gate))
      (circuit.garble .sequential scheme stream).1 :=
    garble_failsFirst hsize hlimit
  refine ⟨?_, ?_, ?_⟩
  · intro executor
    have hsame : ∀ result,
        (circuit.garble executor scheme stream).1 = .ok result ↔
          (circuit.garble .sequential scheme stream).1 = .ok result :=
      fun _ => (circuit.garble_uniform scheme stream).eq_ok_iff ..
    simp only [hsame]
    rw [← tweakFaults_eq_nil_iff,
      ← List.map_eq_nil_iff (f := Stop.map CircuitError.gate),
      ← hfails.exists_ok_iff, Prod.exists]
  · intro stop
    rw [hfails stop, List.head?_map, Option.map_eq_some_iff]
    simp only [head?_tweakFaults_eq_some_iff]
    constructor
    · rintro ⟨_, ⟨level, index, gate, hfirst, rfl⟩, rfl⟩
      exact ⟨level, index, gate, hfirst, rfl⟩
    · rintro ⟨level, index, gate, hfirst, rfl⟩
      exact ⟨_, ⟨level, index, gate, hfirst, rfl⟩, rfl⟩
  · intro executor verifier garbled secrets hgarble
    obtain ⟨store, hhonest⟩ := exists_honest_of_garble hgarble
    obtain ⟨_, _, hunder⟩ := exists_issueKeys_of_garble hgarble
    exact ⟨hhonest.verified hsize (garbledUnder_of_garbleUnder hunder).topology,
      hhonest.translation, translation_eq_of_garble hgarble⟩

/-- The inverter over AES-128, from a stream of zeros. -/
theorem garble_succeeds_iff_and_verifies_inverter :
    Scheme.fixedKeyAes.cipherSize = 32 ∧
      (∀ gate ∈ inverter.gates,
        gate.rowCount * Scheme.fixedKeyAes.cipherSize < wordLimit) ∧
      ∃ garbled secrets,
        (inverter.garble (.pool .inOrder) .fixedKeyAes
            ⟨fun _ => 0, 0⟩).1 = .ok (garbled, secrets) ∧
          inverter.verify garbled .sequential .fixedKeyAes secrets =
            .ok secrets.outputPairs ∧
          garbled.translation.bits =
            secrets.outputPairs.map KeyPair.signalBit := by
  have hlimit : ∀ gate ∈ inverter.gates,
      gate.rowCount * Scheme.fixedKeyAes.cipherSize < wordLimit := by
    decide +kernel
  have hfits : ∀ gate ∈ inverter.gates,
      tweakWord * (gate.arity + 1) ≤ Scheme.fixedKeyAes.tweakSize := by
    decide +kernel
  obtain ⟨hsucceeds, _, hverifies⟩ := garble_succeeds_iff_and_verifies
    (rfl : Scheme.fixedKeyAes.cipherSize = 32) hlimit ⟨fun _ => 0, 0⟩
  obtain ⟨garbled, secrets, hgarble⟩ := (hsucceeds _).mpr hfits
  obtain ⟨hverify, hbits, _⟩ := hverifies _ _ garbled secrets hgarble
  exact ⟨rfl, hlimit, garbled, secrets, hgarble, hverify, hbits⟩

end Circuit

end GarbledCircuits
