import GarbledCircuits.Proofs.Circuit.Faults
import GarbledCircuits.Proofs.Circuit.Runs
import GarbledCircuits.Proofs.Gate.Encoding

/-!
# What a circuit computes

On one bit for each input wire a circuit always computes.  Its output bits are
those of the one assignment of bits to wires that agrees with the inputs and
with the truth table of every gate.
-/

namespace GarbledCircuits

open Outcome

namespace Circuit

/-- There is a list of bits for every party, with a bit for every wire. -/
def Fits (circuit : Circuit) (bits : List (List Bool)) : Prop :=
  List.Forall₂ (fun wires own => wires.length = List.length own)
    circuit.partyInputs bits

def wires (circuit : Circuit) : List WireId :=
  drivenWires circuit.inputs (circuit.gates.map Gate.toGateWiring)

/-- The wires carry bits that agree with all gates. -/
def Computes (circuit : Circuit) (value : WireId → Bool) : Prop :=
  ∀ gate ∈ circuit.gates, ∀ wire ∈ gate.outputs,
    value wire = gate.truthBit (position (gate.inputs.map value))

/-- The circuit inputs carry the bits of the parties. -/
def Carries (circuit : Circuit) (value : WireId → Bool)
    (bits : List (List Bool)) : Prop :=
  circuit.partyInputs.map (List.map value) = bits

theorem exists_scheduled (circuit : Circuit) :
    ∃ depth, Scheduled circuit.inputs (circuit.gates.map Gate.toGateWiring)
      circuit.outputs circuit.levels depth :=
  exists_scheduled_of_schedule circuit.scheduled

theorem wired (circuit : Circuit) :
    Wired circuit.inputs (circuit.gates.map Gate.toGateWiring) := by
  obtain ⟨depth, hscheduled⟩ := circuit.exists_scheduled
  exact hscheduled.wired

theorem outputs_mem_wires (circuit : Circuit) :
    ∀ wire ∈ circuit.outputs, wire ∈ circuit.wires := by
  obtain ⟨depth, hscheduled⟩ := circuit.exists_scheduled
  exact hscheduled.outputs_driven

theorem nodup_inputs (circuit : Circuit) : circuit.inputs.Nodup := by
  have hnodup := circuit.wired.nodup_driven
  rw [drivenWires] at hnodup
  exact hnodup.of_append_left

variable {circuit : Circuit} {bits : List (List Bool)}

theorem mem_wires_iff {wire : WireId} :
    wire ∈ circuit.wires ↔ wire ∈ circuit.inputs ∨
      ∃ gate ∈ circuit.gates, wire ∈ gate.outputs := by
  simp [wires, mem_drivenWires]

theorem mem_wires_of_mem_inputs
    {gate : Gate} (hgate : gate ∈ circuit.gates) {wire : WireId}
    (hwire : wire ∈ gate.inputs) : wire ∈ circuit.wires :=
  circuit.wired.mem_driven_of_mem_inputs (List.mem_map_of_mem hgate) hwire

theorem mem_wires_of_mem_outputs
    {gate : Gate} (hgate : gate ∈ circuit.gates) {wire : WireId}
    (hwire : wire ∈ gate.outputs) : wire ∈ circuit.wires :=
  mem_wires_iff.mpr (Or.inr ⟨gate, hgate, hwire⟩)

theorem Fits.length_flatten (hfits : circuit.Fits bits) :
    circuit.inputs.length = bits.flatten.length := by
  rw [Circuit.inputs, List.length_flatten, List.length_flatten]
  congr 1
  rw [← List.forall₂_eq_eq_eq, List.forall₂_map_left_iff,
    List.forall₂_map_right_iff]
  exact hfits

theorem Fits.exists_mem_zip
    (hfits : circuit.Fits bits) {wire : WireId}
    (hwire : wire ∈ circuit.inputs) :
    ∃ bit, (wire, bit) ∈ circuit.inputs.zip bits.flatten := by
  obtain ⟨index, hindex, rfl⟩ := List.mem_iff_getElem.mp hwire
  have hlength := hfits.length_flatten
  refine ⟨bits.flatten[index], ?_⟩
  rw [List.mem_iff_getElem]
  exact ⟨index, by rw [List.length_zip]; omega, by simp⟩

theorem assignInputs_eq_ok
    {parties : List (List WireId)} {bits : List (List Bool)}
    (hfits : List.Forall₂ (fun wires own => wires.length = List.length own)
      parties bits) (party : Nat) (values : WireMap Bool) :
    assignInputs party values parties bits =
      .ok (assign values (parties.flatten.zip bits.flatten)) := by
  induction hfits generalizing party values with
  | nil => rfl
  | cons hlength _ ih =>
      rw [assignInputs, if_neg (not_not.mpr hlength), ih, List.flatten_cons,
        List.flatten_cons, List.zip_append hlength, assign_append]

def runCompute : Gate × List Bool → Except CircuitError Bool
  | (gate, bits) => CircuitError.ofGate (gate.compute bits)

theorem computeGate_eq_runLevel (values : WireMap Bool) (gate : Gate) :
    computeGate values gate =
      runLevel .sequential Gate.toGateWiring runCompute values [gate] := by
  simp [runLevel, Executor.mapLevel, computeGate, runCompute]

theorem runCompute_eq_ok_iff {gate : Gate} {bits : List Bool} {value : Bool} :
    runCompute (gate, bits) = .ok value ↔
      bits.length = gate.arity ∧ gate.truthBit (position bits) = value := by
  rw [runCompute, CircuitError.ofGate, mapError_eq_ok_iff,
    Gate.compute_eq_ok_iff]

theorem computes_iff_solves {value : WireId → Bool} :
    circuit.Computes value ↔
      ∀ gates ∈ circuit.gates.map fun gate => [gate], ∀ gate ∈ gates,
        Solves Gate.toGateWiring runCompute value gate := by
  simp only [Computes, Solves, List.forall_mem_map, List.forall_mem_singleton,
    runCompute_eq_ok_iff, List.length_map, GateWiring.arity, true_and]
  constructor
  · intro hcomputes gate hgate wire hwire
    exact (hcomputes gate hgate wire hwire).symm
  · intro hsolves gate hgate wire hwire
    exact (hsolves gate hgate wire hwire).symm

/-- The run that computes a circuit, from the bits of its inputs. -/
theorem compute_eq_run (hfits : circuit.Fits bits) :
    circuit.compute bits =
      ((circuit.gates.map fun gate => [gate]).foldlM
          (runLevel .sequential Gate.toGateWiring runCompute)
          (assign ∅ (circuit.inputs.zip bits.flatten)) >>= fun final =>
        circuit.outputs.mapM (valueAt final)) := by
  have hcount : bits.length = circuit.partyInputs.length :=
    hfits.length_eq.symm
  rw [compute, if_neg (not_not.mpr hcount), List.foldlM_map]
  simp only [← computeGate_eq_runLevel]
  rw [assignInputs_eq_ok hfits]
  rfl

theorem getElem?_inputBits
    (hfits : circuit.Fits bits) {wire : WireId} {bit : Bool}
    (hentry : (wire, bit) ∈ circuit.inputs.zip bits.flatten) :
    (assign ∅ (circuit.inputs.zip bits.flatten))[wire]? = some bit := by
  apply getElem?_assign_of_nodup _ hentry
  rw [List.map_fst_zip hfits.length_flatten.le]
  exact circuit.nodup_inputs

theorem map_map_eq_of_forall_mem_zip
    {parties : List (List WireId)} {bits : List (List Bool)}
    (hfits : List.Forall₂ (fun wires own => wires.length = List.length own)
      parties bits) {value : WireId → Bool}
    (hentries : ∀ entry ∈ parties.flatten.zip bits.flatten,
      value entry.1 = entry.2) : parties.map (List.map value) = bits := by
  induction hfits with
  | nil => rfl
  | @cons wires own _ _ hlength _ ih =>
      rw [List.flatten_cons, List.flatten_cons, List.zip_append hlength]
        at hentries
      have hown : wires.map value = own := by
        rw [← List.forall₂_eq_eq_eq, List.forall₂_map_left_iff,
          List.forall₂_iff_zip]
        refine ⟨hlength, ?_⟩
        intro wire bit hentry
        exact hentries (wire, bit) (List.mem_append_left _ hentry)
      have hrest := ih fun entry hentry =>
        hentries entry (List.mem_append_right _ hentry)
      rw [List.map_cons, hown, hrest]

theorem Carries.zip_eq
    {value : WireId → Bool} (hcarries : circuit.Carries value bits) :
    circuit.inputs.zip bits.flatten =
      circuit.inputs.map fun wire => (wire, value wire) := by
  subst hcarries
  rw [← List.map_flatten, ← Circuit.inputs, List.zip,
    List.zipWith_map_right, List.zipWith_self]

theorem carries_iff (hfits : circuit.Fits bits) {value : WireId → Bool} :
    circuit.Carries value bits ↔ ∀ wire ∈ circuit.inputs,
      (assign ∅ (circuit.inputs.zip bits.flatten))[wire]? =
        some (value wire) := by
  constructor
  · intro hcarries wire hwire
    rw [hcarries.zip_eq]
    exact getElem?_assign_map value hwire
  · intro hvalues
    apply map_map_eq_of_forall_mem_zip hfits
    rintro ⟨wire, bit⟩ hentry
    have hvalue := hvalues wire (List.of_mem_zip hentry).1
    rw [getElem?_inputBits hfits hentry, Option.some.injEq] at hvalue
    exact hvalue.symm

theorem inputs_available {wire : WireId} :
    wire ∈ drivenWires circuit.inputs
        ((circuit.gates.map Gate.toGateWiring).take 0) ↔
      wire ∈ circuit.inputs := by
  simp [drivenWires]

theorem mem_inputBits
    (hfits : circuit.Fits bits) {wire : WireId}
    (hwire : wire ∈ circuit.inputs) :
    wire ∈ assign ∅ (circuit.inputs.zip bits.flatten) := by
  obtain ⟨bit, hentry⟩ := hfits.exists_mem_zip hwire
  exact mem_of_getElem? (getElem?_inputBits hfits hentry)

theorem outputs_available {wire : WireId} (hwire : wire ∈ circuit.outputs) :
    wire ∈ drivenWires circuit.inputs
      ((circuit.gates.map Gate.toGateWiring).take
        (circuit.gates.map fun gate => [gate]).length) := by
  rw [List.take_of_length_le (by simp)]
  exact circuit.outputs_mem_wires wire hwire

/-- A circuit computes exactly the bits that its wires carry when they agree
with all gates. -/
theorem compute_eq_ok_iff (hfits : circuit.Fits bits) {results : List Bool} :
    circuit.compute bits = .ok results ↔
      ∃ value, circuit.Carries value bits ∧ circuit.Computes value ∧
        circuit.outputs.map value = results := by
  rw [compute_eq_run hfits, circuit.wired.layered.run_eq_ok_iff]
  · simp only [inputs_available, carries_iff hfits, computes_iff_solves]
  · intro wire hwire
    exact mem_inputBits hfits (inputs_available.mp hwire)
  · simp only [List.forall_mem_map, List.forall_mem_singleton]
    intro gate _
    exact gate.outputs_ne_nil
  · intro wire hwire
    exact outputs_available hwire

theorem exists_compute_eq_ok (hfits : circuit.Fits bits) :
    ∃ results, circuit.compute bits = .ok results := by
  have hstart : HoldsOn
      (fun wire => wire ∈ drivenWires circuit.inputs
        ((circuit.gates.map Gate.toGateWiring).take 0))
      (fun _ => True) (assign ∅ (circuit.inputs.zip bits.flatten)) := by
    intro wire hwire
    have hmem := mem_inputBits hfits (inputs_available.mp hwire)
    obtain ⟨value, hvalue⟩ := mem_iff_exists_getElem?.mp hmem
    exact ⟨value, hvalue, trivial⟩
  have hfails : FailsOnly (fun _ => False) (circuit.compute bits) := by
    rw [compute_eq_run hfits]
    refine circuit.wired.layered.run_failsOnly hstart ?_ ?_
    · simp only [List.forall_mem_map, List.forall_mem_singleton]
      intro gate _ inputs hlength _
      have hrun := runCompute_eq_ok_iff.mpr ⟨hlength, rfl⟩
      exact ⟨FailsOnly.of_eq_ok hrun, fun _ _ => trivial⟩
    · intro wire hwire
      exact outputs_available hwire
  rcases hfails.exists_ok_or_error with hcompute | ⟨_, _, hfalse⟩
  · exact hcompute
  · exact hfalse.elim

theorem Fits.exists_computes (hfits : circuit.Fits bits) :
    ∃ value, circuit.Carries value bits ∧ circuit.Computes value := by
  obtain ⟨results, hcompute⟩ := exists_compute_eq_ok hfits
  obtain ⟨value, hcarries, hcomputes, _⟩ :=
    (compute_eq_ok_iff hfits).mp hcompute
  exact ⟨value, hcarries, hcomputes⟩

/-! ## Bits that do not fit -/

/-- Whether bits are refused, and how, lies in their count alone. -/
theorem assignInputs_alike
    {parties others : List (List WireId)}
    (hlengths : List.Forall₂ (fun wires own => wires.length = List.length own)
      parties others)
    (bits : List (List Bool)) (party : Nat) (values start : WireMap Bool) :
    Alike (fun _ _ => True) (assignInputs party values parties bits)
      (assignInputs party start others bits) := by
  induction hlengths generalizing party values start bits with
  | nil => exact .ok trivial
  | cons hlength _ ih =>
      cases bits with
      | nil => exact .ok trivial
      | cons own rest =>
          rw [assignInputs, assignInputs, ← hlength]
          split_ifs
          · exact .error _
          · exact ih ..

theorem fits_of_assignInputs
    {parties : List (List WireId)} {party : Nat} {values final : WireMap Bool}
    (hcount : bits.length = parties.length)
    (hassign : assignInputs party values parties bits = .ok final) :
    List.Forall₂ (fun wires own => wires.length = List.length own) parties
      bits := by
  induction parties generalizing party values bits with
  | nil =>
      rw [List.length_nil, List.length_eq_zero_iff] at hcount
      exact hcount ▸ .nil
  | cons wires parties ih =>
      cases bits with
      | nil => cases hcount
      | cons own rest =>
          rw [assignInputs] at hassign
          split_ifs at hassign with hlength
          exact .cons (not_not.mp hlength)
            (ih (Nat.succ.inj hcount) hassign)

/-- Bits that do not fit are refused for their counts, whatever the gates. -/
theorem compute_eq_of_not_fits
    {other : Circuit}
    (hlengths : List.Forall₂ (fun wires own => wires.length = List.length own)
      circuit.partyInputs other.partyInputs)
    (hfits : ¬circuit.Fits bits) :
    circuit.compute bits = other.compute bits := by
  rw [compute, compute, ← hlengths.length_eq]
  by_cases hcount : bits.length = circuit.partyInputs.length
  · rw [if_neg (not_not.mpr hcount), if_neg (not_not.mpr hcount)]
    have halike := assignInputs_alike hlengths bits 0 ∅ ∅
    cases hassign : assignInputs 0 ∅ circuit.partyInputs bits with
    | ok values =>
        exact absurd (fits_of_assignInputs hcount hassign) hfits
    | error cause =>
        rw [halike.eq_error_iff.mp hassign]
        rfl
  · rw [if_pos hcount, if_pos hcount]
    rfl

end Circuit

/-- One party's bit, inverted. -/
def Circuit.inverter : Circuit where
  partyInputs := [[0]]
  gates := [Gate.inverter]
  outputs := [1]
  levels := [[0]]
  scheduled := by decide +kernel

example : Circuit.inverter.compute [[true]] = .ok [false] := by
  decide +kernel

/-- A bit, inverted twice and once.  The last gate stands on the first level. -/
def Circuit.fork : Circuit where
  partyInputs := [[0]]
  gates := [.inverterFrom 0 0 1, .inverterFrom 1 1 2, .inverterFrom 2 0 3]
  outputs := [2, 3]
  levels := [[0, 2], [1]]
  scheduled := by decide +kernel

end GarbledCircuits
