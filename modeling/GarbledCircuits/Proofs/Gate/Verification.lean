import GarbledCircuits.Gate.Verify
import GarbledCircuits.Proofs.Gate.Encoding

/-!
# What a verified table encodes

A gate is verified exactly if its table encodes an opposed output pair under
the input pairs.  The rows are opened one after the other; the keys met so far
are compared with every later row of the same truth bit, and since both truth
bits occur, both output keys are met in the end.
-/

namespace GarbledCircuits

open Outcome

/-- A plain row is found sealed at the position of its keys and holds a
key. -/
def GateWiring.RowHolds (wiring : GateWiring) (scheme : Scheme)
    (table : Table) (pairs : List KeyPair) (row : Nat) (key : WireKey) :
    Prop :=
  table.row (position (signalBits
      (selectKeys pairs (rowBits row wiring.arity)))) =
    some (sealedRow scheme wiring.number
      (selectKeys pairs (rowBits row wiring.arity)) key)

namespace Gate

theorem exists_truthBit_eq (gate : Gate) (value : Bool) :
    ∃ row < gate.rowCount, gate.truthBit row = value := by
  obtain ⟨row, hrow, hvalue⟩ :=
    List.mem_iff_getElem.mp (gate.mem_truthTable value)
  refine ⟨row, hrow, ?_⟩
  rw [truthBit, List.getD_eq_getElem?_getD, List.getElem?_eq_getElem hrow,
    hvalue, Option.getD_some]

theorem firstOutput_mem_outputs (gate : Gate) :
    gate.firstOutput ∈ gate.outputs :=
  List.head_mem gate.outputs_ne_nil

theorem rowCount_eq (gate : Gate) : gate.rowCount = 2 ^ gate.arity :=
  gate.length_truthTable

theorem encodes_iff_forall_row
    {gate : Gate} {scheme : Scheme} {table : Table}
    {inputs : List KeyPair} {output : KeyPair} :
    gate.Encodes scheme table inputs output ↔
      ∀ row < gate.rowCount, gate.toGateWiring.RowHolds scheme table inputs
        row (output.select (gate.truthBit row)) := by
  have harity : gate.arity < 64 := gate.arity_lt
  rw [rowCount_eq]
  constructor
  · intro hencodes row hrow
    have hopen := hencodes (rowBits row gate.arity) (length_rowBits _ _)
    unfold GateWiring.RowHolds
    rwa [position_rowBits (by omega) hrow] at hopen
  · intro hrows bits hbits
    have hlt := position_lt bits
    rw [hbits] at hlt
    have hopen := hrows (position bits) hlt
    unfold GateWiring.RowHolds at hopen
    rwa [← hbits, rowBits_position (by omega)] at hopen

end Gate

/-- A table makes a gate under opposed pairs: it has the rows for the gate and
encodes the output pair. -/
structure Gate.RealizedBy (gate : Gate) (scheme : Scheme) (table : Table)
    (inputs : List KeyPair) (output : KeyPair) : Prop where
  inputs_opposed : ∀ input ∈ inputs, input.Opposed
  output_opposed : output.Opposed
  capacity : gate.arity ≤ maxArity scheme.tweakSize
  rows : table.rows = gate.rowCount
  rowSize : table.rowSize = scheme.cipherSize
  encodes : gate.Encodes scheme table inputs output

theorem Gate.RealizedBy.evaluate
    {gate : Gate} {scheme : Scheme} {table : Table} {inputs : List KeyPair}
    {output : KeyPair} (hsize : scheme.cipherSize = 32)
    (hrealized : gate.RealizedBy scheme table inputs output)
    (hinputs : inputs.length = gate.arity) {bits : List Bool}
    (hbits : bits.length = gate.arity) :
    gate.toGateWiring.evaluate scheme table (selectKeys inputs bits) =
      .ok (output.select (gate.truthBit (position bits))) := by
  have hpos := gate.arity_pos
  rw [GateWiring.evaluate_eq_ok_iff hsize]
  refine ⟨?_, ?_, hrealized.capacity, ?_, hrealized.rowSize,
    hrealized.encodes bits hbits⟩
  · apply List.ne_nil_of_length_pos
    rw [length_selectKeys]
    omega
  · rw [length_selectKeys]
    omega
  · rw [hrealized.rows, gate.rows_eq_rowCount]

/-! ## Keys met so far -/

namespace MetKeys

theorem get_set (met : MetKeys) (value other : Bool) (key : WireKey) :
    (met.set value key).get other =
      if other = value then some key else met.get other := by
  cases value <;> cases other <;> simp [get, set]

theorem pair_eq_ok_iff {met : MetKeys} {gate : GateNumber} {pair : KeyPair} :
    met.pair gate = .ok pair ↔
      pair.Opposed ∧ ∀ value, met.get value = some (pair.select value) := by
  obtain ⟨key0, key1⟩ := pair
  have hget : (∀ value, met.get value =
      some ((⟨key0, key1⟩ : KeyPair).select value)) ↔
        met.key0 = some key0 ∧ met.key1 = some key1 := by
    simp [Bool.forall_bool, get]
  rw [hget]
  unfold pair KeyPair.Opposed
  constructor
  · intro hpair
    split at hpair
    next first second hfirst hsecond =>
      split_ifs at hpair with hequal hcollide
      cases hpair
      exact ⟨hcollide, hfirst, hsecond⟩
    next => cases hpair
  · rintro ⟨hopposed, hfirst, hsecond⟩
    have hne : key0 ≠ key1 := by
      intro hequal
      exact hopposed (by rw [hequal])
    rw [hfirst, hsecond]
    simp only [if_neg hne, if_neg hopposed]

/-- No key but those of a pair has been met, and those of the first rows
have. -/
structure Agrees (met : MetKeys) (plain : Gate) (pair : KeyPair)
    (index : Nat) : Prop where
  unmet_or_eq : ∀ value, met.get value = none ∨
    met.get value = some (pair.select value)
  met : ∀ row < index, met.get (plain.truthBit row) =
    some (pair.select (plain.truthBit row))

theorem agrees_empty {plain : Gate} {pair : KeyPair} :
    ({} : MetKeys).Agrees plain pair 0 :=
  ⟨by simp [MetKeys.get], by simp⟩

theorem Agrees.afterMet
    {met : MetKeys} {plain : Gate} {pair : KeyPair} {index : Nat}
    (hagrees : met.Agrees plain pair index)
    (hmet : met.get (plain.truthBit index) =
      some (pair.select (plain.truthBit index))) :
    met.Agrees plain pair (index + 1) := by
  refine ⟨hagrees.unmet_or_eq, ?_⟩
  intro row hrow
  rcases Nat.lt_succ_iff_lt_or_eq.mp hrow with hlt | rfl
  · exact hagrees.met row hlt
  · exact hmet

theorem Agrees.afterSet
    {met : MetKeys} {plain : Gate} {pair : KeyPair} {index : Nat}
    (hagrees : met.Agrees plain pair index) :
    (met.set (plain.truthBit index)
      (pair.select (plain.truthBit index))).Agrees plain pair
        (index + 1) := by
  refine Agrees.afterMet ⟨?_, ?_⟩ (by rw [get_set, if_pos rfl])
  · intro value
    rw [get_set]
    split_ifs with hvalue
    · exact Or.inr (by rw [hvalue])
    · exact hagrees.unmet_or_eq value
  · intro row hrow
    rw [get_set]
    split_ifs with hvalue
    · rw [hvalue]
    · exact hagrees.met row hrow

end MetKeys

namespace GateWiring

theorem checkMatches_eq_ok_iff {wiring : GateWiring} {plain : Gate} :
    wiring.checkMatches plain = .ok () ↔ wiring = plain.toGateWiring := by
  unfold checkMatches
  rw [GateWiring.mk.injEq]
  split_ifs <;> simp_all

theorem eq_of_verify
    {wiring : GateWiring} {plain : Gate} {scheme : Scheme} {table : Table}
    {pairs : List KeyPair} {pair : KeyPair}
    (hverify : wiring.verify plain scheme table pairs = .ok pair) :
    wiring = plain.toGateWiring := by
  obtain ⟨_, hmatches, _⟩ := bind_eq_ok_iff.mp hverify
  exact checkMatches_eq_ok_iff.mp hmatches

theorem checkOpposed_eq_ok_iff
    {wiring : GateWiring} {pairs : List KeyPair}
    (hlength : pairs.length = wiring.arity) :
    wiring.checkOpposed pairs = .ok () ↔ ∀ pair ∈ pairs, pair.Opposed := by
  have hsnd : (wiring.inputs.zip pairs).map Prod.snd = pairs :=
    List.map_snd_zip (by rw [hlength, arity])
  unfold checkOpposed
  constructor
  · intro hcheck pair hpair
    split at hcheck
    next => cases hcheck
    next hnone =>
      rw [← hsnd] at hpair
      obtain ⟨entry, hentry, rfl⟩ := List.mem_map.mp hpair
      simpa using List.find?_eq_none.mp hnone entry hentry
  · intro hopposed
    split
    next wire pair hsome =>
      have hentry := List.mem_of_find?_eq_some hsome
      have hpair : pair ∈ pairs := by
        rw [← hsnd]
        exact List.mem_map_of_mem hentry
      have hbad : ¬pair.Opposed := by simpa using List.find?_some hsome
      exact absurd (hopposed pair hpair) hbad
    next => rfl

/-- Past the checks, the rows are opened and a pair is made of their keys. -/
theorem verify_eq_foldlM
    {plain : Gate} {scheme : Scheme} {table : Table} {pairs : List KeyPair}
    (hlength : pairs.length = plain.arity)
    (hinputs : ∀ pair ∈ pairs, pair.Opposed)
    (hcapacity : plain.arity ≤ maxArity scheme.tweakSize)
    (hshape : checkShape plain.number table plain.rowCount
      scheme.cipherSize = .ok ()) :
    plain.toGateWiring.verify plain scheme table pairs =
      (List.range plain.rowCount).foldlM
          (plain.toGateWiring.verifyRow plain scheme table pairs) {} >>=
        fun met => met.pair plain.number := by
  have hmatches : plain.toGateWiring.checkMatches plain = .ok () :=
    checkMatches_eq_ok_iff.mpr rfl
  have hcount : checkInputCount plain.number plain.arity pairs.length =
      .ok () := checkInputCount_eq_ok_iff.mpr hlength
  have hcheck : plain.toGateWiring.checkOpposed pairs = .ok () :=
    (checkOpposed_eq_ok_iff hlength).mpr hinputs
  have hfits : checkCapacity plain.number plain.arity scheme.tweakSize =
      .ok () := checkCapacity_eq_ok_iff.mpr hcapacity
  simp only [verify, hmatches, hcount, hcheck, hfits, hshape, ok_bind]

section

variable {scheme : Scheme} (hsize : scheme.cipherSize = 32)
  {wiring : GateWiring} {plain : Gate} {table : Table} {pairs : List KeyPair}

include hsize

/-- One row adds its key to the keys met, or agrees with the one met before. -/
theorem verifyRow_eq_ok_iff
    (hpos : 0 < wiring.arity) (hlength : pairs.length = wiring.arity)
    (hcapacity : wiring.arity ≤ maxArity scheme.tweakSize)
    {met next : MetKeys} {row : Nat} :
    wiring.verifyRow plain scheme table pairs met row = .ok next ↔
      ∃ key, wiring.RowHolds scheme table pairs row key ∧
        (met.get (plain.truthBit row) = none ∧
            next = met.set (plain.truthBit row) key ∨
          met.get (plain.truthBit row) = some key ∧ next = met) := by
  obtain ⟨session, hsession⟩ := exists_rowSession
    (length_selectKeys_rowBits hlength row) hpos hcapacity wiring.number
    (signalBits (selectKeys pairs (rowBits row wiring.arity)))
  simp only [verifyRow, GateError.ofCipher, bind_eq_ok_iff,
    mapError_eq_ok_iff, hsession, Except.ok.injEq, exists_eq_left']
  constructor
  · intro hrun
    split at hrun
    next => simp [throw, throwThe, MonadExceptOf.throw] at hrun
    next sealedBytes hrow =>
      simp only [bind_eq_ok_iff, mapError_eq_ok_iff] at hrun
      obtain ⟨payload, hdecrypt, key, hpayload, hcompare⟩ := hrun
      rw [keyOfPayload_eq_ok_iff] at hpayload
      subst hpayload
      refine ⟨key, ?_, ?_⟩
      · unfold RowHolds
        rw [hrow, (decrypt_toBytes_eq_ok_iff hsize hsession).mp hdecrypt]
      · split at hcompare
        next hnone =>
          exact Or.inl ⟨hnone, (pure_eq_ok_iff.mp hcompare).symm⟩
        next expected hsome =>
          rw [ite_throw_eq_ok_iff, not_not, pure_eq_ok_iff] at hcompare
          obtain ⟨rfl, rfl⟩ := hcompare
          exact Or.inr ⟨hsome, rfl⟩
  · rintro ⟨key, hrow, hmet⟩
    unfold RowHolds at hrow
    rw [hrow]
    simp only [bind_eq_ok_iff, mapError_eq_ok_iff]
    refine ⟨key.toBytes,
      (decrypt_toBytes_eq_ok_iff hsize hsession).mpr rfl, key,
      keyOfPayload_eq_ok_iff.mpr rfl, ?_⟩
    rcases hmet with ⟨hnone, rfl⟩ | ⟨hsome, rfl⟩
    · rw [hnone]
      rfl
    · rw [hsome]
      simp [pure, Except.pure]

/-- After all rows are opened, every row holds the key met for its truth
bit. -/
theorem rowHolds_of_foldlM_verifyRow
    (hpos : 0 < wiring.arity) (hlength : pairs.length = wiring.arity)
    (hcapacity : wiring.arity ≤ maxArity scheme.tweakSize)
    {count : Nat} {met : MetKeys}
    (hrun : (List.range count).foldlM
      (wiring.verifyRow plain scheme table pairs) {} = .ok met) :
    ∀ row < count, ∃ key, met.get (plain.truthBit row) = some key ∧
      wiring.RowHolds scheme table pairs row key := by
  apply foldlM_range_invariant (fun index (met : MetKeys) =>
    ∀ row < index, ∃ key, met.get (plain.truthBit row) = some key ∧
      wiring.RowHolds scheme table pairs row key) (by simp) ?_ hrun
  · intro index _ before after hbefore hstep
    obtain ⟨key, hrow, hmet⟩ :=
      (verifyRow_eq_ok_iff hsize hpos hlength hcapacity).mp hstep
    intro other hother
    rcases Nat.lt_succ_iff_lt_or_eq.mp hother with hlt | rfl
    · obtain ⟨known, hknown, hopen⟩ := hbefore other hlt
      refine ⟨known, ?_, hopen⟩
      rcases hmet with ⟨hnone, rfl⟩ | ⟨_, rfl⟩
      · have hvalue : plain.truthBit other ≠ plain.truthBit index := by
          intro heq
          rw [heq, hnone] at hknown
          cases hknown
        rw [MetKeys.get_set, if_neg hvalue, hknown]
      · exact hknown
    · refine ⟨key, ?_, hrow⟩
      rcases hmet with ⟨_, rfl⟩ | ⟨hsome, rfl⟩
      · rw [MetKeys.get_set, if_pos rfl]
      · exact hsome

/-- A row that holds the key of a pair is met, and no other key with it. -/
theorem exists_verifyRow_of_rowHolds
    (hpos : 0 < wiring.arity) (hlength : pairs.length = wiring.arity)
    (hcapacity : wiring.arity ≤ maxArity scheme.tweakSize)
    {met : MetKeys} {pair : KeyPair} {row : Nat}
    (hmet : met.Agrees plain pair row)
    (hrow : wiring.RowHolds scheme table pairs row
      (pair.select (plain.truthBit row))) :
    ∃ next, wiring.verifyRow plain scheme table pairs met row = .ok next ∧
      next.Agrees plain pair (row + 1) := by
  rcases hmet.unmet_or_eq (plain.truthBit row) with hnone | hsome
  · exact ⟨_, (verifyRow_eq_ok_iff hsize hpos hlength hcapacity).mpr
      ⟨_, hrow, Or.inl ⟨hnone, rfl⟩⟩, hmet.afterSet⟩
  · exact ⟨met, (verifyRow_eq_ok_iff hsize hpos hlength hcapacity).mpr
      ⟨_, hrow, Or.inr ⟨hsome, rfl⟩⟩, hmet.afterMet hsome⟩

theorem foldlM_verifyRow_of_rowHolds
    (hpos : 0 < wiring.arity) (hlength : pairs.length = wiring.arity)
    (hcapacity : wiring.arity ≤ maxArity scheme.tweakSize)
    {count : Nat} {pair : KeyPair}
    (hrows : ∀ row < count, wiring.RowHolds scheme table pairs row
      (pair.select (plain.truthBit row))) :
    ∃ met, (List.range count).foldlM
        (wiring.verifyRow plain scheme table pairs) {} = .ok met ∧
      met.Agrees plain pair count := by
  apply foldlM_range_progress (fun index (met : MetKeys) =>
    met.Agrees plain pair index)
  · exact MetKeys.agrees_empty
  · intro index hindex met hmet
    exact exists_verifyRow_of_rowHolds hsize hpos hlength hcapacity hmet
      (hrows index hindex)

/-- A gate is verified to a pair exactly if its table realizes the plain gate
with that pair. -/
theorem verify_eq_ok_iff {pair : KeyPair} :
    wiring.verify plain scheme table pairs = .ok pair ↔
      wiring = plain.toGateWiring ∧ pairs.length = plain.arity ∧
        plain.RealizedBy scheme table pairs pair := by
  simp only [verify, bind_eq_ok_iff, exists_unit_iff, checkMatches_eq_ok_iff,
    checkInputCount_eq_ok_iff, checkCapacity_eq_ok_iff, checkShape_eq_ok_iff,
    MetKeys.pair_eq_ok_iff]
  have hpos := plain.arity_pos
  constructor
  · rintro ⟨rfl, hlength, hcheck, hcapacity, ⟨hrows, hrowSize⟩, met, hrun,
      hopposed, hmet⟩
    refine ⟨rfl, hlength, (checkOpposed_eq_ok_iff hlength).mp hcheck,
      hopposed, hcapacity, hrows, hrowSize, ?_⟩
    rw [Gate.encodes_iff_forall_row]
    intro row hrow
    obtain ⟨key, hkey, hopen⟩ :=
      rowHolds_of_foldlM_verifyRow hsize hpos hlength hcapacity hrun row hrow
    rw [hmet, Option.some.injEq] at hkey
    rw [hkey]
    exact hopen
  · rintro ⟨rfl, hlength, hinputs, hopposed, hcapacity, hrows, hrowSize,
      hencodes⟩
    obtain ⟨met, hrun, hmet⟩ := foldlM_verifyRow_of_rowHolds hsize hpos hlength
      hcapacity (Gate.encodes_iff_forall_row.mp hencodes)
    refine ⟨rfl, hlength, (checkOpposed_eq_ok_iff hlength).mpr hinputs,
      hcapacity, ⟨hrows, hrowSize⟩, met, hrun, hopposed, ?_⟩
    intro value
    obtain ⟨row, hrow, rfl⟩ := plain.exists_truthBit_eq value
    exact hmet.met row hrow

end

end GateWiring

end GarbledCircuits
