import GarbledCircuits.Garbled.Garble
import GarbledCircuits.Proofs.Circuit.Order
import GarbledCircuits.Proofs.Garbled.Evaluation
import GarbledCircuits.Proofs.Gate.Garbling

/-!
# Garbled tables of a circuit

The gates are garbled level by level, and the tables are put at the indices of
their gates.  As the levels hold every gate, this gives the tables in the order
of the gates, just as if the gates were garbled in that order.  They realize the
circuit under the pairs of the store.
-/

namespace GarbledCircuits

open Outcome

namespace Circuit

variable {circuit : Circuit} {executor : Executor} {scheme : Scheme}
  {store : KeyStore}

theorem garbleEntry_eq_ok_iff
    {entry : Nat × Gate} {result : Nat × Table} :
    garbleEntry scheme store entry = .ok result ↔
      entry.2.garble scheme store = .ok result.2 ∧ entry.1 = result.1 := by
  simp only [garbleEntry, bind_eq_ok_iff, pure_eq_ok_iff]
  constructor
  · rintro ⟨table, htable, rfl⟩
    exact ⟨htable, rfl⟩
  · rintro ⟨htable, hindex⟩
    exact ⟨result.2, htable, by rw [hindex]⟩

/-- The levels put, one after the other, the tables of all their gates. -/
theorem foldlM_garbleLevel_eq_ok_iff
    {levels : Levels} {slots final : List (Option Table)} :
    levels.foldlM (circuit.garbleLevel executor scheme store) slots =
        .ok final ↔
      ∃ entries,
        (levels.flatMap (gatesAt circuit.gates)).mapM
            (garbleEntry scheme store) = .ok entries ∧
          (entries.map fun entry => (entry.1, some entry.2)).foldl
            (fun slots (index, slot) => slots.set index slot) slots =
              final := by
  simp only [List.foldl_map]
  induction levels generalizing slots with
  | nil => simp [pure_eq_ok_iff]
  | cons level rest ih =>
      have hlevel : ∀ {next : List (Option Table)},
          circuit.garbleLevel executor scheme store slots level = .ok next ↔
            ∃ entries, (gatesAt circuit.gates level).mapM
                (garbleEntry scheme store) = .ok entries ∧
              entries.foldl (fun slots entry =>
                slots.set entry.1 (some entry.2)) slots = next := by
        intro next
        unfold garbleLevel
        simp only [bind_eq_ok_iff, Executor.mapLevel_eq_ok_iff, pure_eq_ok_iff]
      simp only [List.foldlM_cons, bind_eq_ok_iff, hlevel, ih,
        List.flatMap_cons, List.mapM_append, pure_eq_ok_iff]
      constructor
      · rintro ⟨_, ⟨first, hfirst, rfl⟩, others, hothers, rfl⟩
        exact ⟨_, ⟨first, hfirst, others, hothers, rfl⟩,
          by rw [List.foldl_append]⟩
      · rintro ⟨_, ⟨first, hfirst, others, hothers, rfl⟩, rfl⟩
        exact ⟨_, ⟨first, hfirst, rfl⟩, others, hothers,
          by rw [List.foldl_append]⟩

/-- An executor decides no more than which failure of a level is reported. -/
theorem garbleTables_uniform (circuit : Circuit) (scheme : Scheme)
    (store : KeyStore) : Executor.Uniform fun executor =>
      circuit.garbleTables executor scheme store := by
  have hlevel : ∀ slots level, Executor.Uniform fun executor =>
      circuit.garbleLevel executor scheme store slots level := by
    intro slots level
    apply (Executor.Uniform.mapLevel _ _).bind
    intro tables
    exact Executor.Uniform.const _
  apply (Executor.Uniform.foldlM hlevel _ _).bind
  intro slots
  exact Executor.Uniform.const _

theorem garble_uniform
    (circuit : Circuit) (scheme : Scheme) (stream : WordStream) :
    Executor.Uniform fun executor =>
      (circuit.garble executor scheme stream).1 := by
  apply (Executor.Uniform.const _).bind
  intro store
  apply ((circuit.garbleTables_uniform scheme store).mapError _).bind
  intro tables
  exact Executor.Uniform.const _

theorem mem_entries_iff
    {entries : List (Nat × Table)}
    (hentries : (circuit.levels.flatMap (gatesAt circuit.gates)).mapM
      (garbleEntry scheme store) = .ok entries)
    {index : Nat} {table : Table} :
    (index, table) ∈ entries ↔
      ∃ gate, circuit.gates[index]? = some gate ∧
        gate.garble scheme store = .ok table := by
  constructor
  · intro hentry
    obtain ⟨⟨other, gate⟩, hgate, hresult⟩ :=
      exists_of_mem_result_of_mapM hentries hentry
    obtain ⟨hgarble, hindex⟩ := garbleEntry_eq_ok_iff.mp hresult
    have hsame : other = index := hindex
    subst hsame
    exact ⟨gate, mem_flatMap_gatesAt.mp hgate, hgarble⟩
  · rintro ⟨gate, hgate, hgarble⟩
    obtain ⟨result, hresult, hmem⟩ :=
      exists_of_mem_of_mapM hentries (mem_flatMap_gatesAt.mpr hgate)
    have hentry : garbleEntry scheme store (index, gate) =
        .ok (index, table) := garbleEntry_eq_ok_iff.mpr ⟨hgarble, rfl⟩
    rw [hentry, Except.ok.injEq] at hresult
    rw [hresult]
    exact (List.of_mem_zip hmem).2

/-- Slots that are filled with the table of every gate hold all tables. -/
theorem foldl_set_eq_map
    {entries : List (Nat × Table)} {tables : Tables}
    (hentries : (circuit.levels.flatMap (gatesAt circuit.gates)).mapM
      (garbleEntry scheme store) = .ok entries)
    (htables : circuit.gates.mapM (Gate.garble · scheme store) = .ok tables) :
    (entries.map fun entry => (entry.1, some entry.2)).foldl
        (fun slots (index, slot) => slots.set index slot)
        (List.replicate circuit.gates.length none) =
      tables.map some := by
  have hlength : circuit.gates.length = tables.length :=
    (mapM_eq_ok_iff.mp htables).length_eq
  apply List.ext_getElem
  · rw [length_foldl_set, List.length_replicate, List.length_map, hlength]
  · intro index hslot hindex
    rw [List.length_map] at hindex
    have hgate := List.getElem?_eq_getElem (hlength ▸ hindex)
    have hgarble : circuit.gates[index].garble scheme store =
        .ok tables[index] :=
      (mapM_eq_ok_iff.mp htables).get (hlength ▸ hindex) hindex
    rw [← Option.some.injEq, ← List.getElem?_eq_getElem hslot,
      List.getElem_map]
    apply getElem?_foldl_set_of_mem
    · exact List.mem_map.mpr ⟨(index, tables[index]),
        (mem_entries_iff hentries).mpr ⟨_, hgate, hgarble⟩, rfl⟩
    · intro entry hentry hsame
      obtain ⟨⟨other, table⟩, hmem, rfl⟩ := List.mem_map.mp hentry
      have hother : other = index := hsame
      subst hother
      obtain ⟨gate, hin, hresult⟩ := (mem_entries_iff hentries).mp hmem
      rw [hgate, Option.some.injEq] at hin
      subst hin
      rw [hgarble, Except.ok.injEq] at hresult
      rw [hresult]
    · rw [List.length_replicate, hlength]
      exact hindex

/-- The tables of a circuit are those of its gates, in their order. -/
theorem garbleTables_eq_ok_iff {tables : Tables} :
    circuit.garbleTables executor scheme store = .ok tables ↔
      circuit.gates.mapM (Gate.garble · scheme store) = .ok tables := by
  simp only [garbleTables, bind_eq_ok_iff, foldlM_garbleLevel_eq_ok_iff,
    pure_eq_ok_iff]
  have hgathered : ∀ tables : Tables, (tables.map some).filterMap id =
      tables := by
    intro tables
    simp [List.filterMap_map]
  constructor
  · rintro ⟨_, ⟨entries, hentries, rfl⟩, rfl⟩
    have hgates : ∀ gate ∈ circuit.gates,
        ∃ table, gate.garble scheme store = .ok table := by
      intro gate hgate
      obtain ⟨index, hindex⟩ := List.getElem?_of_mem hgate
      obtain ⟨result, hresult, _⟩ :=
        exists_of_mem_of_mapM hentries (mem_flatMap_gatesAt.mpr hindex)
      exact ⟨result.2, (garbleEntry_eq_ok_iff.mp hresult).1⟩
    obtain ⟨tables, htables⟩ := exists_mapM_eq_ok hgates
    rw [foldl_set_eq_map hentries htables, hgathered]
    exact htables
  · intro htables
    have hall : ∀ entry ∈ circuit.levels.flatMap (gatesAt circuit.gates),
        ∃ result, garbleEntry scheme store entry = .ok result := by
      rintro ⟨index, gate⟩ hentry
      obtain ⟨table, htable, _⟩ := exists_of_mem_of_mapM htables
        (List.mem_of_getElem? (mem_flatMap_gatesAt.mp hentry))
      exact ⟨(index, table), garbleEntry_eq_ok_iff.mpr ⟨htable, rfl⟩⟩
    obtain ⟨entries, hentries⟩ := exists_mapM_eq_ok hall
    refine ⟨_, ⟨entries, hentries, rfl⟩, ?_⟩
    rw [foldl_set_eq_map hentries htables, hgathered]

/-- Tables that were garbled under a store realize the circuit under its
pairs, if the outputs of a gate share theirs. -/
theorem realizedBy_of_mapM_garble
    (hsize : scheme.cipherSize = 32) (hstore : store.WellFormed)
    (hshared : ∀ gate ∈ circuit.gates, ∀ wire ∈ gate.outputs,
      store.pairOf wire = store.pairOf gate.firstOutput)
    {tables : Tables}
    (htables : circuit.gates.mapM (Gate.garble · scheme store) =
      .ok tables) : circuit.RealizedBy scheme tables store.pairOf := by
  intro index gate table hgate htable wire hwire
  obtain ⟨hindex, rfl⟩ := List.getElem?_eq_some_iff.mp hgate
  obtain ⟨hlt, rfl⟩ := List.getElem?_eq_some_iff.mp htable
  have hgarble := (mapM_eq_ok_iff.mp htables).get hindex hlt
  rw [hshared _ (List.getElem_mem hindex) wire hwire]
  exact Gate.garble_realizedBy hsize hstore hgarble

/-- What is published and what is kept belong to the pairs of a store. -/
structure GarbledUnder (circuit : Circuit) (scheme : Scheme)
    (store : KeyStore) (garbled : GarbledCircuit) (secrets : Secrets) :
    Prop where
  topology : garbled.topology = circuit.topology
  tables : circuit.gates.mapM (Gate.garble · scheme store) =
    .ok garbled.tables
  outputPairs : circuit.outputs.mapM store.pair = .ok secrets.outputPairs
  translation : garbled.translation.bits =
    secrets.outputPairs.map KeyPair.signalBit
  partyInputs : secrets.partyInputs = circuit.partyInputs
  inputPairs : ∀ wire ∈ circuit.inputs,
    secrets.inputPairs[wire]? = some (store.pairOf wire)

theorem garbledUnder_of_garbleUnder
    {garbled : GarbledCircuit} {secrets : Secrets}
    (hgarble : circuit.garbleUnder executor scheme store =
      .ok (garbled, secrets)) :
    circuit.GarbledUnder scheme store garbled secrets := by
  simp only [garbleUnder, bind_eq_ok_iff, Stop.ofExcept_eq_ok_iff,
    CircuitError.ofWire, mapError_eq_ok_iff, garbleTables_eq_ok_iff,
    pure_eq_ok_iff, Prod.mk.injEq] at hgarble
  obtain ⟨tables, htables, outputPairs, houtputs, entries, hentries, rfl,
    rfl⟩ := hgarble
  have hpair : ∀ wire ∈ circuit.inputs, (do
      let pair ← store.pair wire
      return (wire, pair)) = (.ok (wire, store.pairOf wire) :
        Except WireError (WireId × KeyPair)) := by
    intro wire hwire
    obtain ⟨entry, hentry, _⟩ := exists_of_mem_of_mapM hentries hwire
    obtain ⟨pair, hpair, _⟩ := bind_eq_ok_iff.mp hentry
    rw [hpair, KeyStore.pairOf_eq_of_pair hpair]
    rfl
  rw [mapM_eq_ok_map hpair, Except.ok.injEq] at hentries
  subst hentries
  exact ⟨rfl, htables, houtputs, rfl, rfl,
    fun wire hwire => getElem?_assign_map store.pairOf hwire⟩

/-- What is published and what is kept, for tables under a store. -/
def garblingOf (circuit : Circuit) (scheme : Scheme) (store : KeyStore)
    (tables : Tables) : GarbledCircuit × Secrets :=
  let outputPairs := circuit.outputs.map store.pairOf
  let translation : Translation := ⟨outputPairs.map KeyPair.signalBit⟩
  let inputPairs := circuit.inputs.map fun wire => (wire, store.pairOf wire)
  (⟨scheme.kind, scheme.cipherSize, circuit.topology, tables, translation⟩,
    ⟨circuit.partyInputs, assign ∅ inputPairs, outputPairs, translation⟩)

/-- Where all wires have keys, only the tables can go wrong. -/
theorem garbleUnder_eq (hwires : ∀ wire ∈ circuit.wires, wire ∈ store.wires) :
    circuit.garbleUnder executor scheme store =
      circuit.garblingOf scheme store <$>
        (circuit.garbleTables executor scheme store).mapError
          (Stop.map .gate) := by
  have houtputs : circuit.outputs.mapM store.pair =
      .ok (circuit.outputs.map store.pairOf) := by
    apply KeyStore.mapM_pair_eq_ok_of_forall_mem
    intro wire hwire
    exact hwires wire (circuit.outputs_mem_wires wire hwire)
  have hinputs : (circuit.inputs.mapM fun wire => do
        let pair ← store.pair wire
        return (wire, pair)) =
      (.ok (circuit.inputs.map fun wire => (wire, store.pairOf wire)) :
        Except WireError _) := by
    apply mapM_eq_ok_map
    intro wire hwire
    rw [KeyStore.pair_eq_ok_of_mem
      (hwires wire (mem_wires_iff.mpr (Or.inl hwire)))]
    rfl
  rw [garbleUnder, houtputs, hinputs]
  cases circuit.garbleTables executor scheme store with
  | error cause => rfl
  | ok tables => rfl

end Circuit

end GarbledCircuits
