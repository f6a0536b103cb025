import GarbledCircuits.Proofs.Failure
import GarbledCircuits.Proofs.Gate.Verification
import GarbledCircuits.Proofs.Table.Cutting

/-!
# Faults of untrusted tables

A table with the rows for its gate can hold any bytes.  Every row can be read,
so evaluation fails only where the addressed row does not open.  Verification
fails only with faults that no honest garbler causes, and if it does not fail,
the pair that it finds is opposed.
-/

namespace GarbledCircuits

open Outcome

/-- The gate fits the scheme, and the table has its rows, with any bytes. -/
structure Gate.Readable (gate : Gate) (scheme : Scheme) (table : Table) :
    Prop where
  capacity : gate.arity ≤ maxArity scheme.tweakSize
  hasRows : table.HasRows scheme.cipherSize gate.rowCount
  limit : gate.rowCount * scheme.cipherSize < wordLimit

namespace Session

variable {scheme : Scheme} {session : Session scheme} {key : MultiKey}
  {tweak row : List UInt8}

theorem decrypt_failsOnly
    (hkey : session.key = some key) (htweak : session.tweak = some tweak)
    (hrow : row.length = scheme.cipherSize) :
    FailsOnly (· = .integrityCheckFailed) (session.decrypt row) := by
  have hcheck := checkCipherSize_eq_ok_iff.mpr hrow
  simp only [decrypt, hcheck, pad_eq_ok hkey htweak, ok_bind]
  split_ifs with htag
  · exact FailsOnly.of_error rfl
  · exact FailsOnly.of_eq_ok rfl

end Session

/-- Where a key of either kind is met, only the keys can be at fault. -/
theorem MetKeys.pair_failsOnly
    {met : MetKeys} (hmet : ∀ value, ∃ key, met.get value = some key)
    (gate : GateNumber) :
    FailsOnly (fun cause => cause.fault = .cheatAttempt) (met.pair gate) := by
  obtain ⟨key0, hkey0⟩ := hmet false
  obtain ⟨key1, hkey1⟩ := hmet true
  have hfirst : met.key0 = some key0 := hkey0
  have hsecond : met.key1 = some key1 := hkey1
  unfold pair
  rw [hfirst, hsecond]
  simp only
  split_ifs with hequal hcollide
  · exact FailsOnly.of_error rfl
  · exact FailsOnly.of_error rfl
  · exact FailsOnly.of_eq_ok rfl

theorem exists_keyOfPayload
    {gate : GateNumber} {payload : List UInt8}
    (hlength : payload.length = WireKey.size) :
    ∃ key, keyOfPayload gate payload = .ok key :=
  ⟨WireKey.ofBytes payload,
    keyOfPayload_eq_ok_iff.mpr (WireKey.toBytes_ofBytes hlength)⟩

section

variable {scheme : Scheme} (hsize : scheme.cipherSize = 32)

include hsize

theorem rowSession_decrypt_failsOnly
    {gate : GateNumber} {keys : List WireKey} {masked : List Bool}
    {session : Session scheme}
    (hsession : rowSession scheme gate keys masked = .ok session)
    {row : List UInt8} (hrow : row.length = scheme.cipherSize) :
    FailsOnly (· = .integrityCheckFailed) (session.decrypt row) ∧
      ∀ payload, session.decrypt row = .ok payload →
        ∃ key, keyOfPayload gate payload = .ok key := by
  obtain ⟨_, _, rfl⟩ := rowSession_eq_ok_iff.mp hsession
  refine ⟨Session.decrypt_failsOnly rfl rfl hrow, ?_⟩
  intro payload hpayload
  obtain ⟨hlength, _⟩ := (Session.decrypt_eq_ok_iff rfl rfl).mp hpayload
  apply exists_keyOfPayload
  rw [hlength, payloadSize_eq hsize]

end

namespace Gate

variable {scheme : Scheme} {gate : Gate} {table : Table}

theorem Readable.checkShape_eq_ok
    (hreadable : gate.Readable scheme table) :
    checkShape gate.number table gate.rowCount scheme.cipherSize = .ok () :=
  checkShape_eq_ok_iff.mpr ⟨hreadable.hasRows.rows scheme.cipherSize_pos,
    hreadable.hasRows.rowSize⟩

theorem Readable.exists_row
    (hreadable : gate.Readable scheme table) {masked : List Bool}
    (hmasked : masked.length = gate.arity) :
    ∃ row, table.row (position masked) = some row ∧
      row.length = scheme.cipherSize := by
  apply hreadable.hasRows.exists_row hreadable.limit
  rw [rowCount_eq, ← hmasked]
  exact position_lt masked

theorem Readable.exists_rowSession
    (hreadable : gate.Readable scheme table) {keys : List WireKey}
    (hkeys : keys.length = gate.arity) (masked : List Bool) :
    ∃ session, rowSession scheme gate.number keys masked = .ok session := by
  have hpos := gate.arity_pos
  exact GarbledCircuits.exists_rowSession hkeys hpos hreadable.capacity
    gate.number masked

/-! ## Evaluation -/

theorem Readable.evaluate_failsOnly
    (hreadable : gate.Readable scheme table) (hsize : scheme.cipherSize = 32)
    {keys : List WireKey} (hkeys : keys.length = gate.arity) :
    FailsOnly (· = .cipher gate.number .integrityCheckFailed)
      (gate.toGateWiring.evaluate scheme table keys) := by
  have hcount : checkInputCount gate.number gate.arity keys.length =
      .ok () := checkInputCount_eq_ok_iff.mpr hkeys
  have hcapacity : checkCapacity gate.number gate.arity scheme.tweakSize =
      .ok () := checkCapacity_eq_ok_iff.mpr hreadable.capacity
  obtain ⟨session, hsession⟩ :=
    hreadable.exists_rowSession hkeys (signalBits keys)
  obtain ⟨row, hrow, hlength⟩ :=
    hreadable.exists_row ((length_signalBits keys).trans hkeys)
  obtain ⟨hdecrypt, hkey⟩ :=
    rowSession_decrypt_failsOnly hsize hsession hlength
  simp only [GateWiring.evaluate, hcount, hcapacity, gate.rows_eq_rowCount,
    hreadable.checkShape_eq_ok, GateError.ofCipher, hsession, hrow,
    mapError_ok, ok_bind]
  apply FailsOnly.bind
  · refine hdecrypt.mapError ?_
    rintro _ rfl
    rfl
  · intro payload hpayload
    obtain ⟨key, hopened⟩ := hkey payload (mapError_eq_ok_iff.mp hpayload)
    exact FailsOnly.of_eq_ok hopened

/-! ## Verification -/

section

variable {pairs : List KeyPair}

/-- A row that is opened in vain, or to another key than before, accuses the
garbler. -/
theorem Readable.verifyRow_failsOnly
    (hreadable : gate.Readable scheme table) (hsize : scheme.cipherSize = 32)
    (hpairs : pairs.length = gate.arity) (met : MetKeys) (row : Nat) :
    FailsOnly (fun cause => cause.fault = .cheatAttempt)
      (gate.toGateWiring.verifyRow gate scheme table pairs met row) := by
  have hkeys := length_selectKeys_rowBits hpairs row
  obtain ⟨session, hsession⟩ := hreadable.exists_rowSession hkeys
    (signalBits (selectKeys pairs (rowBits row gate.arity)))
  obtain ⟨bytes, hbytes, hlength⟩ :=
    hreadable.exists_row ((length_signalBits _).trans hkeys)
  obtain ⟨hdecrypt, hkey⟩ :=
    rowSession_decrypt_failsOnly hsize hsession hlength
  simp only [GateWiring.verifyRow, GateError.ofCipher, hsession, hbytes,
    mapError_ok, ok_bind]
  apply FailsOnly.bind
  · refine hdecrypt.mapError ?_
    rintro _ rfl
    rfl
  · intro payload hpayload
    obtain ⟨key, hopened⟩ := hkey payload (mapError_eq_ok_iff.mp hpayload)
    rw [hopened, ok_bind]
    split
    next => exact FailsOnly.of_eq_ok rfl
    next expected _ =>
      split_ifs with hother
      · exact FailsOnly.of_error rfl
      · exact FailsOnly.of_eq_ok rfl

theorem Readable.verify_failsOnly
    (hreadable : gate.Readable scheme table) (hsize : scheme.cipherSize = 32)
    (hpairs : pairs.length = gate.arity)
    (hopposed : ∀ pair ∈ pairs, pair.Opposed) :
    FailsOnly (fun cause => cause.fault = .cheatAttempt)
      (gate.toGateWiring.verify gate scheme table pairs) := by
  have hpos := gate.arity_pos
  rw [GateWiring.verify_eq_foldlM hpairs hopposed hreadable.capacity
    hreadable.checkShape_eq_ok]
  apply FailsOnly.bind
  · refine FailsOnly.foldlM (fun _ _ => True) trivial ?_
    intro _ row met _ _
    exact ⟨hreadable.verifyRow_failsOnly hsize hpairs met row,
      fun _ _ => trivial⟩
  · -- A gate takes both values, so a key was met for either.
    intro met hrun
    apply MetKeys.pair_failsOnly
    intro value
    obtain ⟨row, hrow, rfl⟩ := gate.exists_truthBit_eq value
    obtain ⟨key, hkey, _⟩ := GateWiring.rowHolds_of_foldlM_verifyRow hsize
      hpos hpairs hreadable.capacity hrun row hrow
    exact ⟨key, hkey⟩

end

end Gate

end GarbledCircuits
