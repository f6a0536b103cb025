import GarbledCircuits.Proofs.Circuit.Runs

/-!
# Runs with other gates

A run goes through while, at the values that it ends in, some of its gates
would do something else.  Replaced by these, the gates are run on the same
values as before until the first one that fails, so the run with the other
gates fails at that one, level by level, if the gates are run one by one.
-/

namespace GarbledCircuits

open Outcome

variable {γ : Type} {executor : Executor} {wiring : γ → GateWiring}
  {run other : γ × List α → Except CircuitError α}
  {fault : γ → List CircuitError}

/-- If nothing that a level reads is missing, it fails at the first of its
gates that does. -/
theorem runLevel_failsFirst
    {values : WireMap α} {gates : List γ}
    (hreads : ∀ gate ∈ gates, ∃ inputs,
      (wiring gate).inputs.mapM (valueAt values) = .ok inputs)
    (hgates : ∀ gate ∈ gates,
      FailsFirst (fault gate) (runGate wiring run values gate)) :
    FailsFirst (gates.flatMap fault)
      (runLevel .sequential wiring run values gates) := by
  obtain ⟨inputs, hinputs⟩ := exists_mapM_eq_ok hreads
  rw [runLevel, hinputs, ok_bind, Executor.mapLevel, mapM_zip_eq hinputs]
  exact (FailsFirst.mapM hgates).map _

namespace Layered

variable {levels : List (List γ)} {available : Nat → WireId → Prop}
  {start final : WireMap α}

/-- A level of the other gates on values that are those of the end on all
settled wires. -/
theorem runLevel_failsFirst
    (hlayered : Layered wiring levels available)
    (hcompletes : Completes wiring run levels.flatten start final)
    (hfails : ∀ gate ∈ levels.flatten,
      FailsFirst (fault gate) (runGate wiring other final gate))
    {level : Nat} {gates : List γ} (hgates : levels[level]? = some gates)
    {values : WireMap α}
    (hvalues : ∀ wire, Settled wiring levels level wire →
      values[wire]? = final[wire]?) :
    FailsFirst (gates.flatMap fault)
      (runLevel .sequential wiring other values gates) := by
  have hin : ∀ gate ∈ gates, gate ∈ levels.flatten := fun gate hgate =>
    List.mem_flatten.mpr ⟨gates, List.mem_of_getElem? hgates, hgate⟩
  apply GarbledCircuits.runLevel_failsFirst
  · intro gate hgate
    obtain ⟨output, houtput, _⟩ := hcompletes.runs gate (hin gate hgate)
    rw [← hlayered.runGate_of_settled hgates hvalues hgate] at houtput
    obtain ⟨inputs, hinputs, _⟩ := bind_eq_ok_iff.mp houtput
    exact ⟨inputs, hinputs⟩
  · intro gate hgate
    rw [hlayered.runGate_of_settled hgates hvalues hgate]
    exact hfails gate (hin gate hgate)

/-- If the gates without a fault do what they did, the run fails at the first
gate that has one. -/
theorem foldlM_failsFirst
    (hlayered : Layered wiring levels available)
    (hcompletes : Completes wiring run levels.flatten start final)
    (hfails : ∀ gate ∈ levels.flatten,
      FailsFirst (fault gate) (runGate wiring other final gate))
    (hsame : ∀ gate ∈ levels.flatten, fault gate = [] →
      runGate wiring other final gate = runGate wiring run final gate) :
    FailsFirst (levels.flatten.flatMap fault)
      (levels.foldlM (runLevel .sequential wiring other) start) := by
  rw [← List.flatMap_id, List.flatMap_assoc]
  -- As long as no gate has failed, the values are those of the end on all
  -- settled wires.
  apply FailsFirst.foldlM (fun level (values : WireMap α) =>
    ∀ wire, Settled wiring levels level wire → values[wire]? = final[wire]?)
  · intro wire hwire
    exact (hcompletes.kept wire hwire).symm
  · intro level gates values hgates hvalues
    have hlevel := hlayered.runLevel_failsFirst hcompletes hfails hgates
      hvalues
    refine ⟨hlevel, ?_⟩
    intro after hafter
    have hnone := List.flatMap_eq_nil_iff.mp
      (hlevel.exists_ok_iff.mp ⟨after, hafter⟩)
    have hruns : ∀ gate ∈ gates, ∃ output,
        runGate wiring other final gate = .ok output ∧
          ∀ wire ∈ (wiring gate).outputs, final[wire]? = some output := by
      intro gate hgate
      have hin := List.mem_flatten.mpr
        ⟨gates, List.mem_of_getElem? hgates, hgate⟩
      rw [hsame gate hin (hnone gate hgate)]
      exact hcompletes.runs gate hin
    obtain ⟨last, hlast, hlater⟩ :=
      hlayered.exists_runLevel_of_settled hgates hruns hvalues
    rw [hafter, Except.ok.injEq] at hlast
    rwa [hlast]

/-- Gates that do what they did at the end do so along the whole run, and on
any executor. -/
theorem foldlM_congr
    (hlayered : Layered wiring levels available)
    (hrun : levels.foldlM (runLevel executor wiring run) start = .ok final)
    (hsame : ∀ gate ∈ levels.flatten,
      runGate wiring other final gate = runGate wiring run final gate)
    (executor : Executor) :
    levels.foldlM (runLevel executor wiring other) start = .ok final := by
  have hcompletes := hlayered.foldlM_eq_ok_iff.mp hrun
  refine hlayered.foldlM_eq_ok_iff.mpr ⟨hcompletes.kept, ?_⟩
  intro gate hgate
  rw [hsame gate hgate]
  exact hcompletes.runs gate hgate

end Layered

end GarbledCircuits
