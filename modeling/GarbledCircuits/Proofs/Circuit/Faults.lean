import GarbledCircuits.Proofs.Circuit.Layering
import GarbledCircuits.Proofs.Failure

/-!
# How a run over levels fails

A level looks up only wires that are available before it, so no lookup fails,
and a run fails only as its gates do.  What holds of the values at the start
and is kept by every gate holds of all values along the run.
-/

namespace GarbledCircuits

open Outcome

variable {γ : Type} {executor : Executor} {wiring : γ → GateWiring}
  {run : γ × List α → Except CircuitError α} {good : α → Prop}
  {allowed : CircuitError → Prop}

/-- On good values a gate gives a good value or fails as it may. -/
def Keeps (wiring : γ → GateWiring) (run : γ × List α → Except CircuitError α)
    (good : α → Prop) (allowed : CircuitError → Prop) (gate : γ) : Prop :=
  ∀ inputs : List α, inputs.length = (wiring gate).inputs.length →
    (∀ input ∈ inputs, good input) →
    FailsOnly allowed (run (gate, inputs)) ∧
      ∀ output, run (gate, inputs) = .ok output → good output

def HoldsOn (wires : WireId → Prop) (good : α → Prop) (values : WireMap α) :
    Prop :=
  ∀ wire, wires wire → ∃ value, values[wire]? = some value ∧ good value

theorem HoldsOn.mapM_valueAt
    {available : WireId → Prop} {values : WireMap α}
    (hvalues : HoldsOn available good values) {wires : List WireId}
    (hwires : ∀ wire ∈ wires, available wire) :
    ∃ results, wires.mapM (valueAt values) = .ok results ∧
      ∀ result ∈ results, good result := by
  have hlookup : ∀ wire ∈ wires, ∃ value, valueAt values wire = .ok value := by
    intro wire hwire
    obtain ⟨value, hvalue, _⟩ := hvalues wire (hwires wire hwire)
    exact ⟨value, valueAt_eq_ok_iff.mpr hvalue⟩
  obtain ⟨results, hresults⟩ := exists_mapM_eq_ok hlookup
  refine ⟨results, hresults, ?_⟩
  intro result hresult
  obtain ⟨wire, hwire, hread⟩ := exists_of_mem_result_of_mapM hresults hresult
  obtain ⟨value, hvalue, hgood⟩ := hvalues wire (hwires wire hwire)
  rw [valueAt_eq_ok_iff, hvalue, Option.some.injEq] at hread
  rwa [← hread]

namespace Layered

variable {levels : List (List γ)} {available : Nat → WireId → Prop}
  {values : WireMap α}

section

variable {level : Nat} {gates : List γ}

theorem runGate_keeps
    (hlayered : Layered wiring levels available)
    (hgates : levels[level]? = some gates)
    (hvalues : HoldsOn (available level) good values) {gate : γ}
    (hgate : gate ∈ gates) (hkeeps : Keeps wiring run good allowed gate) :
    FailsOnly allowed (runGate wiring run values gate) ∧
      ∀ output, runGate wiring run values gate = .ok output →
        good output := by
  obtain ⟨inputs, hinputs, hgood⟩ :=
    hvalues.mapM_valueAt (hlayered.reads level gates hgates gate hgate)
  have hlength : inputs.length = (wiring gate).inputs.length :=
    (mapM_eq_ok_iff.mp hinputs).length_eq.symm
  rw [runGate, hinputs, ok_bind]
  exact hkeeps inputs hlength hgood

theorem runLevel_failsOnly
    (hlayered : Layered wiring levels available)
    (hgates : levels[level]? = some gates)
    (hvalues : HoldsOn (available level) good values)
    (hkeeps : ∀ gate ∈ gates, Keeps wiring run good allowed gate) :
    FailsOnly allowed (runLevel executor wiring run values gates) := by
  have hlookup : ∀ gate ∈ gates,
      ∃ inputs, (wiring gate).inputs.mapM (valueAt values) = .ok inputs := by
    intro gate hgate
    obtain ⟨inputs, hinputs, _⟩ :=
      hvalues.mapM_valueAt (hlayered.reads level gates hgates gate hgate)
    exact ⟨inputs, hinputs⟩
  obtain ⟨inputs, hinputs⟩ := exists_mapM_eq_ok hlookup
  rw [runLevel, hinputs, ok_bind, Executor.mapLevel_zip_eq hinputs]
  apply FailsOnly.bind
  · apply Executor.mapLevel_failsOnly
    intro gate hgate
    exact (hlayered.runGate_keeps hgates hvalues hgate (hkeeps gate hgate)).1
  · intro outputs _
    exact FailsOnly.of_eq_ok rfl

theorem holdsOn_of_runLevel
    (hlayered : Layered wiring levels available)
    (hgates : levels[level]? = some gates)
    (hvalues : HoldsOn (available level) good values)
    (hkeeps : ∀ gate ∈ gates, Keeps wiring run good allowed gate)
    {after : WireMap α}
    (hrun : runLevel executor wiring run values gates = .ok after) :
    HoldsOn (available (level + 1)) good after := by
  intro wire hwire
  rcases (hlayered.next level gates hgates wire).mp hwire with
    hbefore | ⟨gate, hgate, hdriven⟩
  · rw [hlayered.getElem?_runLevel hgates hrun hbefore]
    exact hvalues wire hbefore
  · obtain ⟨output, houtput, hafter⟩ := exists_getElem?_runLevel hrun
      (hlayered.disjoint level gates hgates) hgate
    have hkept :=
      (hlayered.runGate_keeps hgates hvalues hgate (hkeeps gate hgate)).2
    exact ⟨output, hafter wire hdriven, hkept output houtput⟩

end

theorem run_failsOnly
    (hlayered : Layered wiring levels available)
    (hvalues : HoldsOn (available 0) good values)
    (hkeeps : ∀ gates ∈ levels, ∀ gate ∈ gates,
      Keeps wiring run good allowed gate)
    {outputs : List WireId}
    (houtputs : ∀ wire ∈ outputs, available levels.length wire) :
    FailsOnly allowed
      (levels.foldlM (runLevel executor wiring run) values >>= fun final =>
        outputs.mapM (valueAt final)) := by
  -- The values are good on all wires that are available before a level.
  have hlevel : ∀ level gates state, levels[level]? = some gates →
      HoldsOn (available level) good state →
      FailsOnly allowed (runLevel executor wiring run state gates) ∧
        ∀ next, runLevel executor wiring run state gates = .ok next →
          HoldsOn (available (level + 1)) good next := by
    intro level gates state hgates hstate
    have hgate := hkeeps gates (List.mem_of_getElem? hgates)
    exact ⟨hlayered.runLevel_failsOnly hgates hstate hgate,
      fun next hrun => hlayered.holdsOn_of_runLevel hgates hstate hgate hrun⟩
  apply FailsOnly.bind
  · exact FailsOnly.foldlM
      (fun level => HoldsOn (available level) good) hvalues hlevel
  · intro final hrun
    have hfinal : HoldsOn (available levels.length) good final := by
      apply foldlM_invariant (fun level => HoldsOn (available level) good)
        hvalues ?_ hrun
      intro level gates state next hgates hstate
      exact (hlevel level gates state hgates hstate).2 next
    obtain ⟨results, hresults, _⟩ := hfinal.mapM_valueAt houtputs
    exact FailsOnly.of_eq_ok hresults

end Layered

/-- A run over the levels of a circuit fails only as its gates do. -/
theorem Scheduled.run_failsOnly
    {inputs : List WireId} {gates : List γ} {outputs : List WireId}
    {levels : Levels} {depth : WireId → Nat}
    (hscheduled : Scheduled inputs (gates.map wiring) outputs levels depth)
    {run : (Nat × γ) × List α → Except CircuitError α} {values : WireMap α}
    (hvalues : HoldsOn (· ∈ inputs) good values)
    (hkeeps : ∀ (index : Nat) (gate : γ), gates[index]? = some gate →
      Keeps (fun entry : Nat × γ => wiring entry.2) run good allowed
        (index, gate)) :
    FailsOnly allowed
      (levels.foldlM (fun values level => runLevel executor
          (fun entry : Nat × γ => wiring entry.2) run values
          (gatesAt gates level)) values >>= fun final =>
        outputs.mapM (valueAt final)) := by
  have hstart : HoldsOn
      (Scheduled.available inputs (gates.map wiring) depth 0) good values := by
    intro wire hwire
    exact hvalues wire (hscheduled.available_zero_iff.mp hwire)
  rw [← List.foldlM_map]
  refine hscheduled.layered.run_failsOnly hstart
    (hscheduled.forall_gatesAt_iff.mpr hkeeps) ?_
  intro wire hwire
  rw [List.length_map, hscheduled.available_length_iff]
  exact hscheduled.outputs_driven wire hwire

end GarbledCircuits
