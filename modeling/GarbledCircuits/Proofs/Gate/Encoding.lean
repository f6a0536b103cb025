import GarbledCircuits.Gate.Garbling
import GarbledCircuits.Proofs.Cipher.Codec
import GarbledCircuits.Proofs.Gate.Addressing
import Mathlib.Tactic

/-!
# What a table encodes

A table encodes an output pair under given input pairs when every row, at the
position of the signal bits of its keys, is the sealing of the output key for
its truth bit.  Evaluation of a gate is described by the one row it opens.
-/

namespace GarbledCircuits

open Outcome

/-- The row that holds a key under the given keys and their signal bits. -/
def sealedRow (scheme : Scheme) (gate : GateNumber) (keys : List WireKey)
    (payload : WireKey) : List UInt8 :=
  scheme.sealUnder ⟨scheme.join keys⟩
    (tweak gate (signalBits keys) scheme.tweakSize) payload.toBytes

/-- Every selection of input keys opens the output key for its truth bit. -/
def Gate.Encodes (gate : Gate) (scheme : Scheme) (table : Table)
    (inputs : List KeyPair) (output : KeyPair) : Prop :=
  ∀ bits : List Bool, bits.length = gate.arity →
    table.row (position (signalBits (selectKeys inputs bits))) =
      some (sealedRow scheme gate.number (selectKeys inputs bits)
        (output.select (gate.truthBit (position bits))))

theorem Gate.arity_pos (gate : Gate) : 0 < gate.arity :=
  List.length_pos_of_ne_nil gate.inputs_ne_nil

theorem Gate.compute_eq_ok_iff
    {gate : Gate} {bits : List Bool} {value : Bool} :
    gate.compute bits = .ok value ↔
      bits.length = gate.arity ∧ gate.truthBit (position bits) = value := by
  unfold compute
  split_ifs with hlength
  · simp [hlength]
  · simp [not_not.mp hlength]

/-! ## Keys of a row -/

@[simp] theorem length_selectKeys (pairs : List KeyPair) (bits : List Bool) :
    (selectKeys pairs bits).length = min pairs.length bits.length := by
  simp [selectKeys]

theorem length_selectKeys_rowBits
    {pairs : List KeyPair} {arity : Nat} (hlength : pairs.length = arity)
    (row : Nat) : (selectKeys pairs (rowBits row arity)).length = arity := by
  rw [length_selectKeys, length_rowBits, hlength, Nat.min_self]

@[simp] theorem length_signalBits (keys : List WireKey) :
    (signalBits keys).length = keys.length := by
  simp [signalBits]

/-- In opposed pairs the signal bits of the selected keys are the selecting
bits, masked by those of the pairs. -/
theorem signalBits_selectKeys
    {pairs : List KeyPair} (hopposed : ∀ pair ∈ pairs, pair.Opposed)
    (bits : List Bool) :
    signalBits (selectKeys pairs bits) =
      xorBits bits (pairs.map KeyPair.signalBit) := by
  induction pairs generalizing bits with
  | nil => simp [selectKeys, signalBits, xorBits]
  | cons pair pairs ih =>
      cases bits with
      | nil => simp [selectKeys, signalBits, xorBits]
      | cons bit bits =>
          have hrest := ih (fun other hother =>
            hopposed other (List.mem_cons_of_mem _ hother)) bits
          have hfirst := KeyPair.signalBit_select (hopposed pair (by simp)) bit
          simp only [selectKeys, signalBits, xorBits, List.zipWith_cons_cons,
            List.map_cons] at hrest ⊢
          rw [hrest, hfirst]

theorem selectKeys_map
    (pairs : α → KeyPair) (bits : α → Bool) (wires : List α) :
    selectKeys (wires.map pairs) (wires.map bits) =
      wires.map fun wire => (pairs wire).select (bits wire) := by
  simp [selectKeys, List.zipWith_map, List.zipWith_self]

/-! ## Sealing -/

theorem rowSession_eq_ok_iff
    {scheme : Scheme} {gate : GateNumber} {keys : List WireKey}
    {masked : List Bool} {session : Session scheme} :
    rowSession scheme gate keys masked = .ok session ↔
      keys ≠ [] ∧
        (tweak gate masked scheme.tweakSize).length = scheme.tweakSize ∧
        session = ⟨some ⟨scheme.join keys⟩,
          some (tweak gate masked scheme.tweakSize)⟩ :=
  Session.keyed_eq_ok_iff

theorem length_tweak_of_le_maxArity
    (gate : GateNumber) (masked : List Bool) {arity tweakSize : Nat}
    (hpos : 0 < arity) (hcapacity : arity ≤ maxArity tweakSize) :
    (tweak gate masked tweakSize).length = tweakSize := by
  apply length_tweak
  unfold maxArity tweakWord at hcapacity
  unfold tweakWord
  omega

theorem exists_rowSession
    {scheme : Scheme} {arity : Nat} {keys : List WireKey}
    (hkeys : keys.length = arity) (hpos : 0 < arity)
    (hcapacity : arity ≤ maxArity scheme.tweakSize) (gate : GateNumber)
    (masked : List Bool) :
    ∃ session, rowSession scheme gate keys masked = .ok session := by
  have hne : keys ≠ [] := by
    apply List.ne_nil_of_length_pos
    omega
  exact ⟨_, rowSession_eq_ok_iff.mpr ⟨hne,
    length_tweak_of_le_maxArity gate masked hpos hcapacity, rfl⟩⟩

/-- Sealing a payload, check by check. -/
theorem sealTweaked_eq
    {scheme : Scheme} {keys : List WireKey} {tweak : List UInt8}
    {payload : WireKey} :
    sealTweaked scheme keys tweak payload =
      if keys = [] then .error .emptyMultiKey
      else if tweak.length ≠ scheme.tweakSize then
        .error (.invalidTweak scheme.tweakSize tweak.length)
      else if scheme.payloadSize < WireKey.size then
        .error (.plaintextTooLong WireKey.size scheme.payloadSize)
      else
        .ok (scheme.sealUnder ⟨scheme.join keys⟩ tweak payload.toBytes) := by
  cases keys with
  | nil => rfl
  | cons first rest =>
      rw [if_neg (List.cons_ne_nil first rest)]
      by_cases hlength : tweak.length = scheme.tweakSize
      · have hsession := Session.keyed_eq_ok_iff.mpr
          ⟨List.cons_ne_nil first rest, hlength, rfl⟩
        rw [if_neg (not_not.mpr hlength), sealTweaked, hsession, ok_bind]
        by_cases hsize : scheme.payloadSize < WireKey.size
        · rw [if_pos hsize, Session.encrypt, Session.encryptSized,
            WireKey.length_toBytes, if_pos hsize]
          rfl
        · rw [if_neg hsize]
          apply (Session.encrypt_eq_ok_iff rfl rfl).mpr
          rw [WireKey.length_toBytes]
          exact ⟨not_lt.mp hsize, rfl⟩
      · rw [if_pos hlength]
        simp only [sealTweaked, Session.keyed, Scheme.multiKey,
          List.isEmpty_cons, Bool.false_eq_true, if_false, ok_bind,
          Session.setTweak, if_pos hlength]
        rfl

theorem sealRow_eq_ok_iff
    {scheme : Scheme} {gate : GateNumber} {keys : List WireKey}
    {payload : WireKey} {row : List UInt8} :
    sealRow scheme gate keys (signalBits keys) payload = .ok row ↔
      keys ≠ [] ∧
        (tweak gate (signalBits keys) scheme.tweakSize).length =
          scheme.tweakSize ∧
        WireKey.size ≤ scheme.payloadSize ∧
        sealedRow scheme gate keys payload = row := by
  rw [sealRow, sealTweaked_eq, sealedRow]
  split_ifs with hkeys htweak hsize
  · simp [hkeys]
  · simp [htweak]
  · simp [hsize.not_ge]
  · simp [hkeys, not_not.mp htweak, not_lt.mp hsize]

theorem keyOfPayload_eq_ok_iff
    {gate : GateNumber} {payload : List UInt8} {key : WireKey} :
    keyOfPayload gate payload = .ok key ↔ key.toBytes = payload := by
  unfold keyOfPayload
  constructor
  · intro hkey
    split at hkey
    next other hother =>
      cases hkey
      exact WireKey.toBytes_of_ofBytes? hother
    next => cases hkey
  · rintro rfl
    simp

section

variable {scheme : Scheme} (hsize : scheme.cipherSize = 32)

include hsize

theorem payloadSize_eq : scheme.payloadSize = WireKey.size := by
  unfold Scheme.cipherSize tagSize at hsize
  unfold WireKey.size
  omega

/-- The session of a row opens exactly the sealing of a key to that key. -/
theorem decrypt_toBytes_eq_ok_iff
    {gate : GateNumber} {keys : List WireKey} {key : WireKey}
    {row : List UInt8} {session : Session scheme}
    (hsession : rowSession scheme gate keys (signalBits keys) = .ok session) :
    session.decrypt row = .ok key.toBytes ↔
      sealedRow scheme gate keys key = row := by
  obtain ⟨_, _, rfl⟩ := rowSession_eq_ok_iff.mp hsession
  rw [Session.decrypt_eq_ok_iff rfl rfl, WireKey.length_toBytes,
    payloadSize_eq hsize]
  simp [sealedRow]

theorem sealedRow_injective
    {gate : GateNumber} {keys : List WireKey} {key other : WireKey}
    (hrow : sealedRow scheme gate keys key = sealedRow scheme gate keys other) :
    key = other := by
  let session : Session scheme := ⟨some ⟨scheme.join keys⟩,
    some (tweak gate (signalBits keys) scheme.tweakSize)⟩
  have hopen : ∀ key' : WireKey,
      session.decrypt (sealedRow scheme gate keys key') = .ok key'.toBytes := by
    intro key'
    rw [Session.decrypt_eq_ok_iff rfl rfl, WireKey.length_toBytes,
      payloadSize_eq hsize]
    exact ⟨rfl, rfl⟩
  have hkey := hopen key
  rw [hrow, hopen other, Except.ok.injEq] at hkey
  exact (WireKey.toBytes_injective hkey).symm

end

/-! ## Checks before a table is read -/

theorem checkCapacity_eq_ok_iff
    {gate : GateNumber} {arity tweakSize : Nat} :
    checkCapacity gate arity tweakSize = .ok () ↔
      arity ≤ maxArity tweakSize := by
  unfold checkCapacity
  split_ifs <;> simp <;> omega

/-- A gate fits a tweak with a word for its number and for every input. -/
theorem Gate.arity_le_maxArity_iff (gate : Gate) {tweakSize : Nat} :
    gate.arity ≤ maxArity tweakSize ↔
      tweakWord * (gate.arity + 1) ≤ tweakSize := by
  have hpos := gate.arity_pos
  unfold maxArity tweakWord
  omega

theorem checkInputCount_eq_ok_iff {gate : GateNumber} {expected actual : Nat} :
    checkInputCount gate expected actual = .ok () ↔ actual = expected := by
  unfold checkInputCount
  split_ifs <;> simp_all

theorem checkShape_eq_ok_iff
    {gate : GateNumber} {table : Table} {rows rowSize : Nat} :
    checkShape gate table rows rowSize = .ok () ↔
      table.rows = rows ∧ table.rowSize = rowSize := by
  unfold checkShape
  split_ifs with hshape
  · simp
    tauto
  · simp
    tauto

/-! ## Evaluation -/

/-- A gate evaluates to a key exactly if the addressed row holds that key. -/
theorem GateWiring.evaluate_eq_ok_iff
    {scheme : Scheme} (hsize : scheme.cipherSize = 32)
    {wiring : GateWiring} {table : Table} {keys : List WireKey}
    {key : WireKey} :
    wiring.evaluate scheme table keys = .ok key ↔
      keys ≠ [] ∧ keys.length = wiring.arity ∧
        wiring.arity ≤ maxArity scheme.tweakSize ∧
        table.rows = wiring.rows ∧ table.rowSize = scheme.cipherSize ∧
        table.row (position (signalBits keys)) =
          some (sealedRow scheme wiring.number keys key) := by
  simp only [GateWiring.evaluate, bind_eq_ok_iff, exists_unit_iff,
    checkInputCount_eq_ok_iff, checkCapacity_eq_ok_iff, checkShape_eq_ok_iff,
    GateError.ofCipher, mapError_eq_ok_iff]
  constructor
  · rintro ⟨hcount, hcapacity, ⟨hrows, hrowSize⟩, session, hsession, hopen⟩
    obtain ⟨hkeys, _⟩ := rowSession_eq_ok_iff.mp hsession
    refine ⟨hkeys, hcount, hcapacity, hrows, hrowSize, ?_⟩
    split at hopen
    next => simp [throw, throwThe, MonadExceptOf.throw] at hopen
    next row hrow =>
      obtain ⟨payload, hdecrypt, hpayload⟩ := bind_eq_ok_iff.mp hopen
      rw [mapError_eq_ok_iff] at hdecrypt
      rw [keyOfPayload_eq_ok_iff] at hpayload
      subst hpayload
      rw [hrow, (decrypt_toBytes_eq_ok_iff hsize hsession).mp hdecrypt]
  · rintro ⟨hkeys, hcount, hcapacity, hrows, hrowSize, hrow⟩
    have hpos : 0 < wiring.arity := by
      rw [← hcount]
      exact List.length_pos_of_ne_nil hkeys
    obtain ⟨session, hsession⟩ := exists_rowSession hcount hpos hcapacity
      wiring.number (signalBits keys)
    refine ⟨hcount, hcapacity, ⟨hrows, hrowSize⟩, session, hsession, ?_⟩
    rw [hrow]
    refine bind_eq_ok_iff.mpr ⟨key.toBytes, ?_, ?_⟩
    · rw [mapError_eq_ok_iff]
      exact (decrypt_toBytes_eq_ok_iff hsize hsession).mpr rfl
    · exact keyOfPayload_eq_ok_iff.mpr rfl

/-! ## A transparent inverter -/

/-- The scheme whose permutation keeps every block and whose tags are zero; it
hides nothing. -/
def Scheme.transparent : Scheme :=
  FixedKey.scheme (fun block => block) fun _ _ => Vector.replicate tagSize 0

def KeyPair.unit : KeyPair := ⟨⟨0⟩, ⟨1⟩⟩

def Gate.inverter : Gate where
  number := 0
  inputs := [0]
  outputs := [1]
  truthTable := [true, false]
  inputs_ne_nil := by decide
  outputs_ne_nil := by decide
  arity_lt := by decide
  length_truthTable := by decide
  mem_truthTable := by decide

def Gate.inverterFrom (number : GateNumber) (input output : WireId) : Gate where
  number := number
  inputs := [input]
  outputs := [output]
  truthTable := [true, false]
  inputs_ne_nil := List.cons_ne_nil _ _
  outputs_ne_nil := List.cons_ne_nil _ _
  arity_lt := by simp
  length_truthTable := rfl
  mem_truthTable := by decide

end GarbledCircuits
