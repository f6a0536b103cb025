import GarbledCircuits.Proofs.Gate.Verification

/-!
# Verification as exhaustive evaluation

To verify a gate is to evaluate it on all selections of its input keys: the
pair that verification finds is the one pair of which evaluation always gives
the key for the computed bit.  This holds for any bytes in the table and any
scheme.  Where a scheme hides payloads that are no wire keys, neither way ever
succeeds.
-/

namespace GarbledCircuits

open Outcome

/-! ## Rows that hold a wire key -/

section

variable {scheme : Scheme} {wiring : GateWiring} {plain : Gate} {table : Table}

theorem cipherSize_of_opened
    {gate : GateNumber} {keys : List WireKey} {masked : List Bool}
    {session : Session scheme} {row payload : List UInt8} {key : WireKey}
    (hsession : rowSession scheme gate keys masked = .ok session)
    (hdecrypt : session.decrypt row = .ok payload)
    (hkey : keyOfPayload gate payload = .ok key) : scheme.cipherSize = 32 := by
  obtain ⟨_, _, rfl⟩ := rowSession_eq_ok_iff.mp hsession
  obtain ⟨hlength, _⟩ := (Session.decrypt_eq_ok_iff rfl rfl).mp hdecrypt
  rw [keyOfPayload_eq_ok_iff] at hkey
  rw [← hkey, WireKey.length_toBytes] at hlength
  rw [Scheme.cipherSize, ← hlength]
  rfl

theorem GateWiring.cipherSize_of_evaluate
    {keys : List WireKey} {key : WireKey}
    (hevaluate : wiring.evaluate scheme table keys = .ok key) :
    scheme.cipherSize = 32 := by
  simp only [evaluate, bind_eq_ok_iff, GateError.ofCipher,
    mapError_eq_ok_iff] at hevaluate
  obtain ⟨_, _, _, _, _, _, session, hsession, hopen⟩ := hevaluate
  split at hopen
  next => simp [throw, throwThe, MonadExceptOf.throw] at hopen
  next =>
    simp only [bind_eq_ok_iff, mapError_eq_ok_iff] at hopen
    obtain ⟨payload, hdecrypt, hkey⟩ := hopen
    exact cipherSize_of_opened hsession hdecrypt hkey

theorem GateWiring.cipherSize_of_verifyRow
    {pairs : List KeyPair} {met next : MetKeys} {row : Nat}
    (hrun : wiring.verifyRow plain scheme table pairs met row = .ok next) :
    scheme.cipherSize = 32 := by
  simp only [verifyRow, bind_eq_ok_iff, GateError.ofCipher,
    mapError_eq_ok_iff] at hrun
  obtain ⟨session, hsession, hopen⟩ := hrun
  split at hopen
  next => simp [throw, throwThe, MonadExceptOf.throw] at hopen
  next =>
    simp only [bind_eq_ok_iff, mapError_eq_ok_iff] at hopen
    obtain ⟨payload, hdecrypt, key, hkey, _⟩ := hopen
    exact cipherSize_of_opened hsession hdecrypt hkey

theorem GateWiring.cipherSize_of_verify
    {pairs : List KeyPair} {pair : KeyPair}
    (hverify : wiring.verify plain scheme table pairs = .ok pair) :
    scheme.cipherSize = 32 := by
  simp only [verify, bind_eq_ok_iff] at hverify
  obtain ⟨_, _, _, _, _, _, _, _, _, _, met, hrun, _⟩ := hverify
  have hpos : 0 < plain.rowCount := by
    rw [plain.rowCount_eq]
    exact Nat.two_pow_pos _
  obtain ⟨count, hcount⟩ := Nat.exists_eq_add_one.mpr hpos
  rw [hcount, List.range_succ_eq_map, List.foldlM_cons, bind_eq_ok_iff]
    at hrun
  obtain ⟨_, hfirst, _⟩ := hrun
  exact cipherSize_of_verifyRow hfirst

end

/-! ## One selection and all selections -/

/-- What evaluates to the keys of a pair on all selections is realized with
that pair. -/
theorem Gate.realizedBy_of_forall_evaluate
    {gate : Gate} {scheme : Scheme} {table : Table} {inputs : List KeyPair}
    {output : KeyPair} (hsize : scheme.cipherSize = 32)
    (hopposed : ∀ input ∈ inputs, input.Opposed) (houtput : output.Opposed)
    (hevaluate : ∀ bits : List Bool, bits.length = gate.arity →
      gate.toGateWiring.evaluate scheme table (selectKeys inputs bits) =
        .ok (output.select (gate.truthBit (position bits)))) :
    gate.RealizedBy scheme table inputs output := by
  have hsome := hevaluate (List.replicate gate.arity false) (by simp)
  rw [GateWiring.evaluate_eq_ok_iff hsize] at hsome
  obtain ⟨_, _, hcapacity, hrows, hrowSize, _⟩ := hsome
  refine ⟨hopposed, houtput, hcapacity, ?_, hrowSize, ?_⟩
  · rw [hrows, gate.rows_eq_rowCount]
  · intro bits hbits
    have hrow := hevaluate bits hbits
    rw [GateWiring.evaluate_eq_ok_iff hsize] at hrow
    obtain ⟨_, _, _, _, _, hholds⟩ := hrow
    exact hholds

/-- A gate is verified to an opposed pair exactly if it is the plain gate, its
inputs are opposed pairs, and it evaluates, on every selection of input keys,
to the pair's key for the bit that the plain gate computes. -/
theorem GateWiring.verify_eq_ok_iff_forall_evaluate
    (wiring : GateWiring) (plain : Gate) (scheme : Scheme) (table : Table)
    (pairs : List KeyPair) (pair : KeyPair) :
    wiring.verify plain scheme table pairs = .ok pair ↔
      wiring.number = plain.number ∧ wiring.inputs = plain.inputs ∧
        wiring.outputs = plain.outputs ∧ pairs.length = plain.arity ∧
        (∀ input ∈ pairs, input.Opposed) ∧ pair.Opposed ∧
        ∀ bits : List Bool, bits.length = plain.arity →
          ∃ value, plain.compute bits = .ok value ∧
            wiring.evaluate scheme table (selectKeys pairs bits) =
              .ok (pair.select value) := by
  constructor
  · intro hverify
    have hsize := cipherSize_of_verify hverify
    obtain ⟨rfl, hlength, hrealized⟩ := (verify_eq_ok_iff hsize).mp hverify
    refine ⟨rfl, rfl, rfl, hlength, hrealized.inputs_opposed,
      hrealized.output_opposed, ?_⟩
    intro bits hbits
    exact ⟨_, Gate.compute_eq_ok_iff.mpr ⟨hbits, rfl⟩,
      hrealized.evaluate hsize hlength hbits⟩
  · intro hparts
    obtain ⟨hnumber, hinputs, houtputs, hlength, hopposed, houtput,
      hevaluate⟩ := hparts
    have hwiring : wiring = plain.toGateWiring := by
      cases wiring
      simp_all
    subst hwiring
    have hall : ∀ bits : List Bool, bits.length = plain.arity →
        plain.toGateWiring.evaluate scheme table (selectKeys pairs bits) =
          .ok (pair.select (plain.truthBit (position bits))) := by
      intro bits hbits
      obtain ⟨value, hcompute, hkey⟩ := hevaluate bits hbits
      obtain ⟨_, hvalue⟩ := Gate.compute_eq_ok_iff.mp hcompute
      rwa [hvalue]
    have hsize := cipherSize_of_evaluate
      (hall (List.replicate plain.arity false) (by simp))
    exact (verify_eq_ok_iff hsize).mpr ⟨rfl, hlength,
      Gate.realizedBy_of_forall_evaluate hsize hopposed houtput hall⟩

end GarbledCircuits
