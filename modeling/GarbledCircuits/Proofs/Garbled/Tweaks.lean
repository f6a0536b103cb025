import GarbledCircuits.Proofs.Failure
import GarbledCircuits.Proofs.Garbled.Honesty

/-!
# A tweak for every row

All words of a tweak have one width, so a tweak gives back its gate number and,
as long as every signal bit has a word, the signal bits of its row.  Gates have
different numbers.  Rows of one gate have different signal bits, whatever the
signal bits of the false keys are.
-/

namespace GarbledCircuits

open Outcome

/-! ## Reading a tweak back -/

theorem flatMap_encode_injective
    {bits other : List Bool} (hlength : bits.length = other.length)
    (hwords : (bits.flatMap fun bit => BigEndian.encode tweakWord bit.toNat) =
      other.flatMap fun bit => BigEndian.encode tweakWord bit.toNat) :
    bits = other := by
  induction bits generalizing other with
  | nil => exact (List.length_eq_zero_iff.mp hlength.symm).symm
  | cons bit bits ih =>
      cases other with
      | nil => simp at hlength
      | cons flag flags =>
          rw [List.flatMap_cons, List.flatMap_cons] at hwords
          obtain ⟨hfirst, hrest⟩ := List.append_inj hwords (by simp)
          have hlimit : ∀ bit : Bool, bit.toNat < 256 ^ tweakWord := by decide
          have hvalue := BigEndian.encode_injective (hlimit bit) (hlimit flag)
            hfirst
          have hbit : bit = flag := by
            revert hvalue
            cases bit <;> cases flag <;> decide
          rw [hbit, ih (by simpa using hlength) hrest]

variable {number other : UInt32} {masked rival : List Bool} {tweakSize : Nat}

theorem tweak_eq_append (number : UInt32) (masked : List Bool)
    (tweakSize : Nat) :
    tweak number masked tweakSize =
      BigEndian.encode tweakWord number.toNat ++
        (tweakBits masked tweakSize ++ List.replicate (tweakSize -
          (tweakWord + (tweakBits masked tweakSize).length)) 0) := by
  simp [tweak]

/-- A tweak gives back the number of its gate, with no regard to its bits. -/
theorem number_eq_of_tweak_eq
    (htweak : tweak number masked tweakSize = tweak other rival tweakSize) :
    number = other := by
  rw [tweak_eq_append, tweak_eq_append] at htweak
  obtain ⟨hnumber, _⟩ := List.append_inj htweak (by simp)
  exact UInt32.toNat_inj.mp
    (BigEndian.encode_injective number.toNat_lt other.toNat_lt hnumber)

/-- No bit is left out of a tweak that has a word for each. -/
theorem masked_eq_of_tweak_eq
    (hcapacity : masked.length ≤ maxArity tweakSize)
    (hlength : masked.length = rival.length)
    (htweak : tweak number masked tweakSize = tweak other rival tweakSize) :
    masked = rival := by
  have hwords : ∀ bits : List Bool, bits.length ≤ maxArity tweakSize →
      tweakBits bits tweakSize =
        bits.flatMap fun bit => BigEndian.encode tweakWord bit.toNat := by
    intro bits hbits
    rw [tweakBits, List.take_of_length_le hbits]
  have hsize : (tweakBits masked tweakSize).length =
      (tweakBits rival tweakSize).length := by
    rw [hwords masked hcapacity, hwords rival (hlength ▸ hcapacity)]
    simp [hlength]
  -- The parts before the zeros are as long in one tweak as in the other.
  rw [tweak_eq_append, tweak_eq_append] at htweak
  obtain ⟨_, htail⟩ := List.append_inj htweak (by simp)
  obtain ⟨hbits, _⟩ := List.append_inj htail hsize
  rw [hwords masked hcapacity, hwords rival (hlength ▸ hcapacity)] at hbits
  exact flatMap_encode_injective hlength hbits

/-! ## The tweaks of a gate -/

/-- The stored signal bit of a wire, and false for a wire without keys. -/
def KeyStore.signalBitOf (store : KeyStore) (wire : WireId) : Bool :=
  (store.wires[wire]?.map WireKeys.signalBit).getD false

theorem KeyStore.map_signalBitOf_of_mapM_get
    {store : KeyStore} {wires : List WireId} {entries : List WireKeys}
    (hentries : wires.mapM store.get = .ok entries) :
    wires.map store.signalBitOf = entries.map WireKeys.signalBit := by
  rw [← List.forall₂_eq_eq_eq, List.forall₂_map_left_iff,
    List.forall₂_map_right_iff]
  apply (mapM_eq_ok_iff.mp hentries).imp
  intro wire entry hentry
  simp [signalBitOf, get_eq_ok_iff.mp hentry]

namespace Gate

variable {gate : Gate} {scheme : Scheme} {store : KeyStore}

def rowTweak (gate : Gate) (tweakSize : Nat) (store : KeyStore) (row : Nat) :
    List UInt8 :=
  tweak gate.number
    (xorBits (rowBits row gate.arity) (gate.inputs.map store.signalBitOf))
    tweakSize

/-- The masked bits that garbling reads off the keys of the inputs are those of
the tweak of the row. -/
theorem tweak_maskedBits
    {inputs : List WireKeys}
    (hinputs : gate.inputs.mapM store.get = .ok inputs) (row tweakSize : Nat) :
    tweak gate.number (gate.maskedBits inputs row) tweakSize =
      gate.rowTweak tweakSize store row := by
  rw [rowTweak, KeyStore.map_signalBitOf_of_mapM_get hinputs]
  rfl

/-- The tweaks of its rows are the only ones that a gate is garbled under. -/
theorem garble_eq_garbleTweaked :
    gate.garble scheme store =
      gate.garbleTweaked scheme store fun _ =>
        gate.rowTweak scheme.tweakSize store := by
  unfold garble garbleTweaked
  cases hinputs : gate.inputs.mapM store.get with
  | error cause => rfl
  | ok inputs =>
      have htweaks : (fun row =>
            tweak gate.number (gate.maskedBits inputs row) scheme.tweakSize) =
          gate.rowTweak scheme.tweakSize store := by
        funext row
        exact tweak_maskedBits hinputs row scheme.tweakSize
      simp only [GateError.ofWire, mapError_ok, Stop.ofExcept, ok_bind, htweaks]

theorem rowTweak_injective
    (hfits : tweakWord * (gate.arity + 1) ≤ tweakSize) {row line : Nat}
    (hrow : row < gate.rowCount) (hline : line < gate.rowCount)
    (htweak : gate.rowTweak tweakSize store row =
      gate.rowTweak tweakSize store line) : row = line := by
  have hmask : (gate.inputs.map store.signalBitOf).length = gate.arity :=
    List.length_map ..
  have hlength : ∀ row, (xorBits (rowBits row gate.arity)
      (gate.inputs.map store.signalBitOf)).length = gate.arity := by
    intro row
    rw [length_xorBits, length_rowBits, hmask, Nat.min_self]
  have hmasked := masked_eq_of_tweak_eq
    ((hlength row).trans_le (gate.arity_le_maxArity_iff.mpr hfits))
    ((hlength row).trans (hlength line).symm) htweak
  rw [rowCount_eq] at hrow hline
  exact row_eq_of_masked_eq gate.arity_lt.le hmask hrow hline hmasked

end Gate

/-! ## The tweaks of a circuit -/

namespace Circuit

def tweaks (circuit : Circuit) (tweakSize : Nat) (store : KeyStore) :
    List (List UInt8) :=
  circuit.gates.flatMap fun gate =>
    (List.range gate.rowCount).map (gate.rowTweak tweakSize store)

theorem pairwise_number_ne (circuit : Circuit) :
    circuit.gates.Pairwise fun gate other => gate.number ≠ other.number := by
  have hnumbers := circuit.wired.nodup_numbers
  rw [List.map_map] at hnumbers
  exact List.pairwise_map.mp hnumbers

/-- Each row of each gate is sealed under a tweak of its own, if the tweaks
have room for all gates. -/
theorem garble_under_distinct_tweaks
    (circuit : Circuit) (store : KeyStore) {tweakSize : Nat}
    (hfits : ∀ gate ∈ circuit.gates,
      tweakWord * (gate.arity + 1) ≤ tweakSize) :
    (∀ gate ∈ circuit.gates, ∀ scheme : Scheme,
      scheme.tweakSize = tweakSize →
        gate.garble scheme store =
          gate.garbleTweaked scheme store fun _ =>
            gate.rowTweak tweakSize store) ∧
      (circuit.tweaks tweakSize store).Nodup := by
  constructor
  · intro gate _ scheme hsize
    rw [← hsize]
    exact Gate.garble_eq_garbleTweaked
  · rw [tweaks, List.nodup_flatMap]
    constructor
    · intro gate hgate
      apply List.Nodup.map_on _ List.nodup_range
      intro row hrow other hother
      exact Gate.rowTweak_injective (hfits gate hgate)
        (List.mem_range.mp hrow) (List.mem_range.mp hother)
    · apply circuit.pairwise_number_ne.imp
      intro gate other hnumbers tweak htweak hother
      obtain ⟨row, _, hrow⟩ := List.mem_map.mp htweak
      obtain ⟨line, _, hline⟩ := List.mem_map.mp hother
      exact hnumbers (number_eq_of_tweak_eq (hrow.trans hline.symm))

/-- The six rows of the fork, each garbled over AES-128. -/
theorem garble_under_distinct_tweaks_fork :
    (∀ gate ∈ fork.gates, tweakWord * (gate.arity + 1) ≤ 16) ∧
      (∀ gate ∈ fork.gates,
        gate.garble .fixedKeyAes (fork.storeOf fun _ => .unit) =
          gate.garbleTweaked .fixedKeyAes (fork.storeOf fun _ => .unit)
            fun _ => gate.rowTweak 16 (fork.storeOf fun _ => .unit)) ∧
      (fork.tweaks 16 (fork.storeOf fun _ => .unit)).Nodup := by
  have hfits : ∀ gate ∈ fork.gates, tweakWord * (gate.arity + 1) ≤ 16 := by
    decide
  obtain ⟨hgarbles, hdistinct⟩ := garble_under_distinct_tweaks fork
    (fork.storeOf fun _ => .unit) hfits
  exact ⟨hfits, fun gate hgate => hgarbles gate hgate _ rfl, hdistinct⟩

end Circuit

end GarbledCircuits
