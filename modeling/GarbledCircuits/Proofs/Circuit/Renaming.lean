import GarbledCircuits.Proofs.Circuit.Computation
import GarbledCircuits.Proofs.Circuit.Violations
import Mathlib.Data.FinEnum

/-!
# Renaming wires

The numbers of wires are names: giving all wires other names, no two the same,
changes neither what is accepted as a circuit nor its levels nor what it
computes.  A map over wires is renamed with them, and every step that reads or
writes the map commutes with renaming.
-/

namespace GarbledCircuits

open Outcome

variable (f : WireId ↪ WireId)

/-- There are as many old names as new ones, so every wire has an old one. -/
theorem exists_old_name (wire : WireId) : ∃ old, f old = wire := by
  have hsurjective : Function.Surjective f :=
    Finite.injective_iff_surjective.mp f.injective
  exact hsurjective wire

variable {f} in
theorem map_of_renamed
    {value renamed : WireId → α}
    (hvalue : ∀ wire, renamed (f wire) = value wire) (wires : List WireId) :
    (wires.map f).map renamed = wires.map value := by
  rw [List.map_map]
  exact List.map_congr_left fun wire _ => hvalue wire

/-! ## Maps over wires -/

namespace WireMap

/-- The same values, under the new names of the wires. -/
def rename (values : WireMap α) : WireMap α :=
  assign ∅ (values.toList.map fun entry => (f entry.1, entry.2))

variable {f} {values : WireMap α}

@[simp] theorem getElem?_rename (values : WireMap α) (wire : WireId) :
    (rename f values)[f wire]? = values[wire]? := by
  have hnames : ((values.toList.map fun entry =>
      (f entry.1, entry.2)).map Prod.fst).Nodup := by
    have hkeys : values.keys.Nodup := Std.ExtTreeMap.nodup_keys
    rw [List.map_map]
    rw [← Std.ExtTreeMap.map_fst_toList_eq_keys] at hkeys
    have hrenamed := hkeys.map f.injective
    rwa [List.map_map] at hrenamed
  cases hvalue : values[wire]? with
  | some value =>
      apply getElem?_assign_of_nodup hnames
      exact List.mem_map.mpr ⟨(wire, value),
        Std.ExtTreeMap.mem_toList_iff_getElem?_eq_some.mpr hvalue, rfl⟩
  | none =>
      have hne : ∀ entry ∈ values.toList.map fun entry =>
          (f entry.1, entry.2), entry.1 ≠ f wire := by
        intro entry hentry hsame
        obtain ⟨⟨other, value⟩, hmem, rfl⟩ := List.mem_map.mp hentry
        have hother : other = wire := f.injective hsame
        rw [Std.ExtTreeMap.mem_toList_iff_getElem?_eq_some, hother, hvalue]
          at hmem
        cases hmem
      rw [rename, getElem?_assign_of_forall_ne hne]
      simp

@[simp] theorem mem_rename {wire : WireId} :
    f wire ∈ rename f values ↔ wire ∈ values := by
  simp only [mem_iff_exists_getElem?, getElem?_rename]

theorem ext_of_renamed
    {other : WireMap α}
    (hvalues : ∀ wire, values[f wire]? = other[f wire]?) : values = other := by
  apply Std.ExtTreeMap.ext_getElem?
  intro wire
  obtain ⟨old, rfl⟩ := exists_old_name f wire
  exact hvalues old

theorem rename_empty : rename f (∅ : WireMap α) = ∅ := by
  apply ext_of_renamed
  intro wire
  rw [getElem?_rename, Std.ExtTreeMap.getElem?_empty,
    Std.ExtTreeMap.getElem?_empty]

theorem rename_insert (wire : WireId) (value : α) :
    rename f (values.insert wire value) =
      (rename f values).insert (f wire) value := by
  apply ext_of_renamed
  intro other
  rw [getElem?_rename, getElem?_insert_wire, getElem?_insert_wire,
    getElem?_rename]
  simp only [f.injective.eq_iff]

theorem rename_assignAll (wires : List WireId) (value : α) :
    rename f (assignAll values wires value) =
      assignAll (rename f values) (wires.map f) value := by
  induction wires generalizing values with
  | nil => rfl
  | cons wire rest ih =>
      have hrest := @ih (values.insert wire value)
      rw [rename_insert] at hrest
      exact hrest

theorem rename_assign (entries : List (WireId × α)) :
    rename f (assign values entries) =
      assign (rename f values)
        (entries.map fun entry => (f entry.1, entry.2)) := by
  induction entries generalizing values with
  | nil => rfl
  | cons entry rest ih =>
      have hrest := @ih (values.insert entry.1 entry.2)
      rw [rename_insert] at hrest
      exact hrest

end WireMap

/-! ## Gates and their scan -/

def GateWiring.rename (wiring : GateWiring) : GateWiring where
  number := wiring.number
  inputs := wiring.inputs.map f
  outputs := wiring.outputs.map f

def Gate.rename (gate : Gate) : Gate where
  toGateWiring := gate.toGateWiring.rename f
  truthTable := gate.truthTable
  inputs_ne_nil := by
    simpa [GateWiring.rename] using gate.inputs_ne_nil
  outputs_ne_nil := by
    simpa [GateWiring.rename] using gate.outputs_ne_nil
  arity_lt := by
    simpa [GateWiring.rename] using gate.arity_lt
  length_truthTable := by
    simpa [GateWiring.rename] using gate.length_truthTable
  mem_truthTable := gate.mem_truthTable

variable {f}

@[simp] theorem GateWiring.arity_rename (wiring : GateWiring) :
    (wiring.rename f).arity = wiring.arity := by
  simp [arity, rename]

namespace Scan

def rename (f : WireId ↪ WireId) (scan : Scan) : Scan :=
  { scan with depth := WireMap.rename f scan.depth }

theorem depthOf_rename (scan : Scan) (wire : WireId) :
    (scan.rename f).depthOf (f wire) = scan.depthOf wire := by
  rw [depthOf, depthOf, rename, WireMap.getElem?_rename]

theorem deepest_rename (scan : Scan) (wiring : GateWiring) :
    (wiring.rename f).deepest (scan.rename f).depthOf =
      wiring.deepest scan.depthOf := by
  rw [GateWiring.deepest, GateWiring.deepest, GateWiring.rename,
    List.foldl_map]
  simp only [depthOf_rename]

theorem gate_rename
    {scan next : Scan} {index : Nat} {wiring : GateWiring}
    (hgate : scan.gate index wiring = .ok next) :
    (scan.rename f).gate index (wiring.rename f) = .ok (next.rename f) := by
  obtain ⟨hnumber, hinputs, hnodup, houtputs, rfl⟩ :=
    gate_eq_ok_iff.mp hgate
  rw [gate_eq_ok_iff, deepest_rename]
  refine ⟨hnumber, ?_, hnodup.map f.injective, ?_, ?_⟩
  · intro wire hwire
    obtain ⟨old, hold, rfl⟩ := List.mem_map.mp hwire
    exact WireMap.mem_rename.mpr (hinputs old hold)
  · intro wire hwire
    obtain ⟨old, hold, rfl⟩ := List.mem_map.mp hwire
    exact fun hmem => houtputs old hold (WireMap.mem_rename.mp hmem)
  · simp only [rename, WireMap.rename_assignAll, GateWiring.rename]

theorem gates_rename
    {scan next : Scan} {index : Nat} {gates : List GateWiring}
    (hgates : scan.gates index gates = .ok next) :
    (scan.rename f).gates index (gates.map (GateWiring.rename f)) =
      .ok (next.rename f) := by
  induction gates generalizing scan index with
  | nil =>
      cases hgates
      rfl
  | cons wiring rest ih =>
      obtain ⟨after, hgate, hrest⟩ := bind_eq_ok_iff.mp hgates
      exact bind_eq_ok_iff.mpr ⟨_, gate_rename hgate, ih hrest⟩

end Scan

/-- A renamed circuit is wired up with the same levels. -/
theorem schedule_rename
    {partyInputs : List (List WireId)} {gates : List GateWiring}
    {outputs : List WireId} {levels : Levels}
    (hschedule : schedule partyInputs gates outputs = .ok levels) :
    schedule (partyInputs.map (List.map f)) (gates.map (GateWiring.rename f))
      (outputs.map f) = .ok levels := by
  rw [schedule_eq_ok_iff] at hschedule ⊢
  obtain ⟨hnodup, scan, hgates, houtputs, hlevels⟩ := hschedule
  have hstart : Scan.rename f ⟨assignAll ∅ partyInputs.flatten 0, ∅, []⟩ =
      ⟨assignAll ∅ (partyInputs.flatten.map f) 0, ∅, []⟩ := by
    rw [Scan.rename, WireMap.rename_assignAll, WireMap.rename_empty]
  have hrenamed := Scan.gates_rename (f := f) hgates
  rw [hstart] at hrenamed
  rw [← List.map_flatten]
  refine ⟨hnodup.map f.injective, _, hrenamed, ?_, hlevels⟩
  intro wire hwire
  obtain ⟨old, hold, rfl⟩ := List.mem_map.mp hwire
  exact WireMap.mem_rename.mpr (houtputs old hold)

/-! ## Circuits -/

namespace Circuit

def rename (f : WireId ↪ WireId) (circuit : Circuit) : Circuit where
  partyInputs := circuit.partyInputs.map (List.map f)
  gates := circuit.gates.map (Gate.rename f)
  outputs := circuit.outputs.map f
  levels := circuit.levels
  scheduled := by
    have hrenamed := schedule_rename (f := f) circuit.scheduled
    rw [List.map_map] at hrenamed ⊢
    exact hrenamed

variable {circuit : Circuit} {bits : List (List Bool)}

@[simp] theorem inputs_rename (circuit : Circuit) :
    (circuit.rename f).inputs = circuit.inputs.map f := by
  rw [inputs, inputs, List.map_flatten]
  rfl

/-! ### Computing -/

section

variable {value renamed : WireId → Bool}
  (hvalue : ∀ wire, renamed (f wire) = value wire)

include hvalue

theorem Carries.rename (hcarries : circuit.Carries value bits) :
    (circuit.rename f).Carries renamed bits := by
  rw [← hcarries, Carries, Circuit.rename, List.map_map]
  exact List.map_congr_left fun wires _ => map_of_renamed hvalue wires

theorem Computes.rename (hcomputes : circuit.Computes value) :
    (circuit.rename f).Computes renamed := by
  intro gate hgate wire hwire
  obtain ⟨gate, hold, rfl⟩ := List.mem_map.mp hgate
  obtain ⟨wire, holdWire, rfl⟩ := List.mem_map.mp hwire
  have hinputs : (gate.rename f).inputs.map renamed =
      gate.inputs.map value :=
    map_of_renamed hvalue gate.inputs
  rw [hvalue, hcomputes gate hold wire holdWire, hinputs]
  rfl

end

end Circuit

end GarbledCircuits
