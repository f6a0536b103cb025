import GarbledCircuits.Gate.Garbling
import GarbledCircuits.Proofs.Gate.Verification
import GarbledCircuits.Proofs.Table.Cutting
import GarbledCircuits.Proofs.Wire.Store

/-!
# What a garbled table encodes

Garbling a gate over a well-formed store gives the one table of its size that
encodes the pair of the first output under the pairs of the inputs.  Plain
rows and positions correspond one to one, so every row is written once.
-/

namespace GarbledCircuits

open Outcome

theorem length_of_sealTweaked
    {scheme : Scheme} {keys : List WireKey} {tweak : List UInt8}
    {payload : WireKey} {row : List UInt8}
    (hseal : sealTweaked scheme keys tweak payload = .ok row) :
    row.length = scheme.cipherSize := by
  obtain ⟨session, hsession, hencrypt⟩ := bind_eq_ok_iff.mp hseal
  obtain ⟨_, _, rfl⟩ := Session.keyed_eq_ok_iff.mp hsession
  obtain ⟨_, rfl⟩ := (Session.encrypt_eq_ok_iff rfl rfl).mp hencrypt
  exact Scheme.length_sealUnder ..

namespace Gate

variable {scheme : Scheme} {gate : Gate} {table : Table}
  {inputs : List KeyPair} {output : KeyPair}

/-- The bits that select the keys whose signal bits spell a position. -/
def plainBits (gate : Gate) (inputs : List KeyPair) (position : Nat) :
    List Bool :=
  xorBits (rowBits position gate.arity) (inputs.map KeyPair.signalBit)

theorem length_plainBits (hlength : inputs.length = gate.arity) (index : Nat) :
    (gate.plainBits inputs index).length = gate.arity := by
  simp [plainBits, hlength]

theorem position_signalBits_plainBits
    (hopposed : ∀ input ∈ inputs, input.Opposed)
    (hlength : inputs.length = gate.arity)
    {index : Nat} (hindex : index < gate.rowCount) :
    position (signalBits
      (selectKeys inputs (gate.plainBits inputs index))) = index := by
  have harity : gate.arity < 64 := gate.arity_lt
  rw [signalBits_selectKeys hopposed, plainBits,
    xorBits_xorBits (by simp [hlength]), position_rowBits (by omega)]
  rwa [rowCount_eq] at hindex

theorem selection_injective
    (hopposed : ∀ input ∈ inputs, input.Opposed)
    (hlength : inputs.length = gate.arity)
    {bits other : List Bool} (hbits : bits.length = gate.arity)
    (hother : other.length = gate.arity)
    (hposition : position (signalBits (selectKeys inputs bits)) =
      position (signalBits (selectKeys inputs other))) : bits = other := by
  have harity : gate.arity < 64 := gate.arity_lt
  rw [signalBits_selectKeys hopposed, signalBits_selectKeys hopposed]
    at hposition
  have hmasked := position_injective (by simp; omega) (by simp; omega)
    hposition
  exact eq_of_xorBits_eq (by simp [hbits, hlength])
    (by simp [hother, hlength]) hmasked

/-- A table is determined by what it encodes. -/
theorem Encodes.table_eq
    {other : Table}
    (htable : gate.Encodes scheme table inputs output)
    (hother : gate.Encodes scheme other inputs output)
    (hopposed : ∀ input ∈ inputs, input.Opposed)
    (hlength : inputs.length = gate.arity)
    (hrowSize : table.rowSize = scheme.cipherSize)
    (hbytes : table.bytes.length = gate.rowCount * scheme.cipherSize)
    (hotherSize : other.rowSize = scheme.cipherSize)
    (hotherBytes : other.bytes.length = gate.rowCount * scheme.cipherSize) :
    table = other := by
  rw [← hrowSize] at hbytes
  rw [← hotherSize] at hotherBytes
  apply Table.eq_of_forall_row (by rw [hrowSize, hotherSize]) hbytes
    hotherBytes
  intro index hindex
  have hbits := length_plainBits hlength index
  have hrow := htable _ hbits
  have hotherRow := hother _ hbits
  rw [position_signalBits_plainBits hopposed hlength hindex] at hrow hotherRow
  exact ⟨_, hrow, hotherRow⟩

theorem Encodes.output_eq
    (hsize : scheme.cipherSize = 32) {other : KeyPair}
    (houtput : gate.Encodes scheme table inputs output)
    (hother : gate.Encodes scheme table inputs other) : output = other := by
  have hselect : ∀ value, output.select value = other.select value := by
    intro value
    obtain ⟨row, hrow, rfl⟩ := gate.exists_truthBit_eq value
    have houtputRow := encodes_iff_forall_row.mp houtput row hrow
    have hotherRow := encodes_iff_forall_row.mp hother row hrow
    unfold GateWiring.RowHolds at houtputRow hotherRow
    rw [houtputRow, Option.some.injEq] at hotherRow
    exact sealedRow_injective hsize hotherRow
  have hkey0 := hselect false
  have hkey1 := hselect true
  cases output
  cases other
  simp_all

def placedRow (gate : Gate) (scheme : Scheme) (inputs : List KeyPair)
    (output : KeyPair) (row : Nat) : Nat × List UInt8 :=
  let keys := selectKeys inputs (rowBits row gate.arity)
  (position (signalBits keys),
    sealedRow scheme gate.number keys (output.select (gate.truthBit row)))

theorem length_place_placedRow :
    (Table.place gate.rowCount scheme.cipherSize
      ((List.range gate.rowCount).map
        (gate.placedRow scheme inputs output))).bytes.length =
      gate.rowCount * scheme.cipherSize := by
  apply Table.length_place
  intro entry hentry
  obtain ⟨row, _, rfl⟩ := List.mem_map.mp hentry
  exact Scheme.length_sealUnder ..

/-- The keys that bits select have the masked bits for signal bits. -/
theorem signalBits_selectKeys_eq_masked
    {entries : List WireKeys}
    (hentries : ∀ entry ∈ entries,
      entry.pair.Opposed ∧ entry.signalBit = entry.pair.signalBit)
    (bits : List Bool) :
    signalBits (selectKeys (entries.map WireKeys.pair) bits) =
      xorBits bits (entries.map WireKeys.signalBit) := by
  have hopposed : ∀ pair ∈ entries.map WireKeys.pair, pair.Opposed := by
    intro pair hpair
    obtain ⟨entry, hentry, rfl⟩ := List.mem_map.mp hpair
    exact (hentries entry hentry).1
  have hmask : entries.map WireKeys.signalBit =
      (entries.map WireKeys.pair).map KeyPair.signalBit := by
    rw [List.map_map]
    apply List.map_congr_left
    intro entry hentry
    exact (hentries entry hentry).2
  rw [signalBits_selectKeys hopposed, hmask]

theorem garbleRow_eq_ok
    (hsize : scheme.cipherSize = 32) {entries : List WireKeys}
    (hentries : ∀ entry ∈ entries,
      entry.pair.Opposed ∧ entry.signalBit = entry.pair.signalBit)
    (hlength : entries.length = gate.arity)
    (hcapacity : gate.arity ≤ maxArity scheme.tweakSize) (row : Nat) :
    gate.garbleRow scheme entries output
        (fun row => tweak gate.number (gate.maskedBits entries row)
          scheme.tweakSize) row =
      .ok (gate.placedRow scheme (entries.map WireKeys.pair) output row) := by
  have hpos := gate.arity_pos
  have hkeys : selectKeys (entries.map WireKeys.pair)
      (rowBits row gate.arity) ≠ [] := by
    apply List.ne_nil_of_length_pos
    simp only [length_selectKeys, length_rowBits, List.length_map]
    omega
  have hseal := sealRow_eq_ok_iff.mpr ⟨hkeys,
    length_tweak_of_le_maxArity gate.number _ hpos hcapacity,
    (payloadSize_eq hsize).ge,
    (rfl : sealedRow scheme gate.number _
      (output.select (gate.truthBit row)) = _)⟩
  rw [sealRow] at hseal
  rw [garbleRow, maskedBits, ← signalBits_selectKeys_eq_masked hentries,
    GateError.ofCipher, hseal]
  rfl

section

variable (hsize : scheme.cipherSize = 32)
  (hopposed : ∀ input ∈ inputs, input.Opposed)
  (hlength : inputs.length = gate.arity)
  (hlimit : gate.rowCount * scheme.cipherSize < wordLimit)

include hopposed hlength hlimit

theorem encodes_place :
    gate.Encodes scheme
      (Table.place gate.rowCount scheme.cipherSize
        ((List.range gate.rowCount).map
          (gate.placedRow scheme inputs output))) inputs output := by
  have harity : gate.arity < 64 := gate.arity_lt
  rw [encodes_iff_forall_row]
  intro row hrow
  have hposition : position (signalBits
      (selectKeys inputs (rowBits row gate.arity))) < gate.rowCount := by
    have hlt := position_lt (signalBits
      (selectKeys inputs (rowBits row gate.arity)))
    rwa [length_signalBits, length_selectKeys, length_rowBits, hlength,
      Nat.min_self, ← rowCount_eq] at hlt
  apply Table.row_place ?_ hlimit hposition
  · exact List.mem_map.mpr ⟨row, List.mem_range.mpr hrow, rfl⟩
  · intro entry hentry hindex
    obtain ⟨other, hother, rfl⟩ := List.mem_map.mp hentry
    have hbits := selection_injective hopposed hlength
      (length_rowBits other gate.arity) (length_rowBits row gate.arity) hindex
    rw [rowCount_eq] at hrow
    rw [List.mem_range, rowCount_eq] at hother
    have heq : other = row := by
      rw [← position_rowBits (by omega) hother, hbits,
        position_rowBits (by omega) hrow]
    rw [heq]
    rfl
  · intro entry hentry
    obtain ⟨other, _, rfl⟩ := List.mem_map.mp hentry
    exact Scheme.length_sealUnder ..

end

theorem overfills_eq_false_iff :
    gate.overfills scheme = false ↔
      gate.rowCount * scheme.cipherSize < wordLimit := by
  simp [overfills]

/-- Garbling under tweaks, check by check. -/
theorem garbleTweaked_eq_ok_iff
    {store : KeyStore} {rowTweak : List WireKeys → Nat → List UInt8} :
    gate.garbleTweaked scheme store rowTweak = .ok table ↔
      gate.arity ≤ maxArity scheme.tweakSize ∧
        ∃ entries, gate.inputs.mapM store.get = .ok entries ∧
          ∃ output, store.pair gate.firstOutput = .ok output ∧
            gate.rowCount * scheme.cipherSize < wordLimit ∧
            ∃ rows, (List.range gate.rowCount).mapM
                (gate.garbleRow scheme entries output (rowTweak entries)) =
                  .ok rows ∧
              Table.place gate.rowCount scheme.cipherSize rows = table := by
  simp only [garbleTweaked, bind_eq_ok_iff, exists_unit_iff,
    Stop.ofExcept_eq_ok_iff, checkCapacity_eq_ok_iff, GateError.ofWire,
    mapError_eq_ok_iff, ite_throw_eq_ok_iff, Bool.not_eq_true,
    overfills_eq_false_iff, pure_eq_ok_iff]

section

variable (hsize : scheme.cipherSize = 32) {store : KeyStore}
  (hstore : store.WellFormed) {entries : List WireKeys}
  (hentries : gate.inputs.mapM store.get = .ok entries)

include hstore hentries

theorem opposed_of_mapM_get :
    (∀ input ∈ entries.map WireKeys.pair, input.Opposed) ∧
      (entries.map WireKeys.pair).length = gate.arity := by
  constructor
  · intro input hinput
    obtain ⟨entry, hentry, rfl⟩ := List.mem_map.mp hinput
    exact (hstore.of_mapM_get hentries entry hentry).1
  · rw [List.length_map]
    exact (mapM_eq_ok_iff.mp hentries).length_eq.symm

include hsize in
/-- Under the tweaks of the gate every row is sealed and has its place. -/
theorem mapM_garbleRow_eq_ok
    (hcapacity : gate.arity ≤ maxArity scheme.tweakSize) :
    (List.range gate.rowCount).mapM
        (gate.garbleRow scheme entries output fun row =>
          tweak gate.number (gate.maskedBits entries row)
            scheme.tweakSize) =
      .ok ((List.range gate.rowCount).map (gate.placedRow scheme
        (entries.map WireKeys.pair) output)) := by
  apply mapM_eq_ok_map
  intro row _
  exact garbleRow_eq_ok hsize (hstore.of_mapM_get hentries)
    (mapM_eq_ok_iff.mp hentries).length_eq.symm hcapacity row

end

/-- A gate is garbled to a table exactly if the table has the size for its
rows and encodes the registered pairs. -/
theorem garble_eq_ok_iff
    (hsize : scheme.cipherSize = 32) {store : KeyStore}
    (hstore : store.WellFormed) :
    gate.garble scheme store = .ok table ↔
      gate.arity ≤ maxArity scheme.tweakSize ∧
        gate.rowCount * scheme.cipherSize < wordLimit ∧
        table.rowSize = scheme.cipherSize ∧
        table.bytes.length = gate.rowCount * scheme.cipherSize ∧
        ∃ inputs output, gate.inputs.mapM store.pair = .ok inputs ∧
          store.pair gate.firstOutput = .ok output ∧
          gate.Encodes scheme table inputs output := by
  rw [garble, garbleTweaked_eq_ok_iff]
  simp only [KeyStore.mapM_pair_eq_ok_iff]
  constructor
  · rintro ⟨hcapacity, entries, hentries, output, houtput, hlimit, rows, hrun,
      rfl⟩
    obtain ⟨hopposed, hlength⟩ := opposed_of_mapM_get hstore hentries
    rw [mapM_garbleRow_eq_ok hsize hstore hentries hcapacity,
      Except.ok.injEq] at hrun
    subst hrun
    exact ⟨hcapacity, hlimit, Table.rowSize_place .., length_place_placedRow,
      _, output, ⟨entries, hentries, rfl⟩, houtput,
      encodes_place hopposed hlength hlimit⟩
  · rintro ⟨hcapacity, hlimit, hrowSize, hbytes, _, output,
      ⟨entries, hentries, rfl⟩, houtput, hencodes⟩
    obtain ⟨hopposed, hlength⟩ := opposed_of_mapM_get hstore hentries
    refine ⟨hcapacity, entries, hentries, output, houtput, hlimit, _,
      mapM_garbleRow_eq_ok hsize hstore hentries hcapacity, ?_⟩
    exact Encodes.table_eq (encodes_place hopposed hlength hlimit) hencodes
      hopposed hlength (Table.rowSize_place ..) length_place_placedRow hrowSize
      hbytes

section

variable {store : KeyStore}

theorem length_of_garbleRow
    {inputs : List WireKeys} {output : KeyPair}
    {rowTweak : Nat → List UInt8} {row : Nat} {placed : Nat × List UInt8}
    (hrow : gate.garbleRow scheme inputs output rowTweak row = .ok placed) :
    placed.2.length = scheme.cipherSize := by
  obtain ⟨sealedBytes, hseal, hplaced⟩ := bind_eq_ok_iff.mp hrow
  rw [GateError.ofCipher, mapError_eq_ok_iff] at hseal
  rw [← pure_eq_ok_iff.mp hplaced]
  exact length_of_sealTweaked hseal

/-- A garbled table has a row for every row of the truth table, whatever the
scheme. -/
theorem hasRows_of_garble (hgarble : gate.garble scheme store = .ok table) :
    table.HasRows scheme.cipherSize gate.rowCount := by
  obtain ⟨_, _, _, _, _, _, rows, hrows, rfl⟩ :=
    garbleTweaked_eq_ok_iff.mp hgarble
  refine ⟨Table.rowSize_place, Table.length_place ?_⟩
  intro entry hentry
  obtain ⟨row, _, hrow⟩ := exists_of_mem_result_of_mapM hrows hentry
  exact length_of_garbleRow hrow

/-- Where its wires have keys, a gate that fits the tweak is garbled. -/
theorem exists_garble
    (hsize : scheme.cipherSize = 32) (hstore : store.WellFormed)
    (hcapacity : gate.arity ≤ maxArity scheme.tweakSize)
    (hlimit : gate.rowCount * scheme.cipherSize < wordLimit)
    (hinputs : gate.inputs.mapM store.pair = .ok inputs)
    (houtput : store.pair gate.firstOutput = .ok output) :
    ∃ table, gate.garble scheme store = .ok table := by
  have hlength : inputs.length = gate.arity :=
    (mapM_eq_ok_iff.mp hinputs).length_eq.symm
  have hopposed := hstore.opposed_of_mapM_pair hinputs
  exact ⟨_, (garble_eq_ok_iff hsize hstore).mpr ⟨hcapacity, hlimit,
    Table.rowSize_place, length_place_placedRow, inputs, output, hinputs,
    houtput, encodes_place hopposed hlength hlimit⟩⟩

theorem garble_realizedBy
    (hsize : scheme.cipherSize = 32) (hstore : store.WellFormed)
    (hgarble : gate.garble scheme store = .ok table) :
    gate.RealizedBy scheme table (gate.inputs.map store.pairOf)
      (store.pairOf gate.firstOutput) := by
  obtain ⟨hcapacity, _, hrowSize, _, inputs, output, hinputs, houtput,
    hencodes⟩ := (garble_eq_ok_iff hsize hstore).mp hgarble
  have hrows := (hasRows_of_garble hgarble).rows scheme.cipherSize_pos
  rw [KeyStore.map_pairOf_of_mapM_pair hinputs,
    KeyStore.pairOf_eq_of_pair houtput]
  exact ⟨hstore.opposed_of_mapM_pair hinputs, hstore.opposed houtput,
    hcapacity, hrows, hrowSize, hencodes⟩

end

end Gate

end GarbledCircuits
