import GarbledCircuits.Proofs.Circuit.Executor
import GarbledCircuits.Proofs.Circuit.Wiring

/-!
# Running gates level by level

Computing, evaluating and verifying a circuit are one kind of run.  Where wires
become available level by level, the run follows any assignment that every gate
agrees with, whatever executor runs the levels, and there is at most one such
assignment for given values at the start.
-/

namespace GarbledCircuits

open Outcome

variable {γ : Type} {executor : Executor} {wiring : γ → GateWiring}
  {run : γ × List α → Except CircuitError α}

/-- Under an assignment, a gate gives each of its outputs the assigned value. -/
def Solves (wiring : γ → GateWiring)
    (run : γ × List α → Except CircuitError α) (v : WireId → α)
    (gate : γ) : Prop :=
  ∀ wire ∈ (wiring gate).outputs,
    run (gate, (wiring gate).inputs.map v) = .ok (v wire)

/-- The wires of gates become available level by level: a level reads what is
available before it and drives, each once, the wires that are new after it. -/
structure Layered (wiring : γ → GateWiring) (levels : List (List γ))
    (available : Nat → WireId → Prop) : Prop where
  reads : ∀ (level : Nat) (gates : List γ), levels[level]? = some gates →
    ∀ gate ∈ gates, ∀ wire ∈ (wiring gate).inputs, available level wire
  fresh : ∀ (level : Nat) (gates : List γ), levels[level]? = some gates →
    ∀ gate ∈ gates, ∀ wire ∈ (wiring gate).outputs, ¬available level wire
  disjoint : ∀ (level : Nat) (gates : List γ), levels[level]? = some gates →
    ∀ gate ∈ gates, ∀ other ∈ gates, ∀ wire ∈ (wiring gate).outputs,
      wire ∈ (wiring other).outputs → gate = other
  next : ∀ (level : Nat) (gates : List γ), levels[level]? = some gates →
    ∀ wire, available (level + 1) wire ↔
      available level wire ∨ ∃ gate ∈ gates, wire ∈ (wiring gate).outputs

/-! ## One level -/

section

variable {values after : WireMap α} {gates : List γ}

def runGate (wiring : γ → GateWiring)
    (run : γ × List α → Except CircuitError α) (values : WireMap α)
    (gate : γ) : Except CircuitError α :=
  (wiring gate).inputs.mapM (valueAt values) >>= fun inputs =>
    run (gate, inputs)

theorem runLevel_eq_ok_iff :
    runLevel executor wiring run values gates = .ok after ↔
      ∃ outputs, gates.mapM (runGate wiring run values) = .ok outputs ∧
        (gates.zip outputs).foldl (fun values entry =>
          assignAll values (wiring entry.1).outputs entry.2) values =
            after := by
  unfold runGate
  simp only [runLevel, bind_eq_ok_iff, pure_eq_ok_iff,
    Executor.mapLevel_eq_ok_iff, ← mapM_zip_eq_ok_iff]
  constructor
  · rintro ⟨inputs, hinputs, outputs, houtputs, hafter⟩
    exact ⟨outputs, ⟨inputs, hinputs, houtputs⟩, hafter⟩
  · rintro ⟨outputs, ⟨inputs, hinputs, houtputs⟩, hafter⟩
    exact ⟨inputs, hinputs, outputs, houtputs, hafter⟩

theorem runLevel_progress
    (hgates : ∀ gate ∈ gates, ∃ output,
      runGate wiring run values gate = .ok output) :
    ∃ after, runLevel executor wiring run values gates = .ok after := by
  obtain ⟨outputs, houtputs⟩ := exists_mapM_eq_ok hgates
  exact ⟨_, runLevel_eq_ok_iff.mpr ⟨outputs, houtputs, rfl⟩⟩

theorem getElem?_runLevel_of_forall_notMem
    (hrun : runLevel executor wiring run values gates = .ok after)
    {wire : WireId} (hwire : ∀ gate ∈ gates, wire ∉ (wiring gate).outputs) :
    after[wire]? = values[wire]? := by
  obtain ⟨outputs, _, rfl⟩ := runLevel_eq_ok_iff.mp hrun
  apply getElem?_foldl_assignAll_of_forall_notMem
  intro entry hentry
  exact hwire entry.1 (List.of_mem_zip hentry).1

/-- The outputs of a gate of the level get what it is run to. -/
theorem exists_getElem?_runLevel
    (hrun : runLevel executor wiring run values gates = .ok after)
    (hdisjoint : ∀ gate ∈ gates, ∀ other ∈ gates,
      ∀ wire ∈ (wiring gate).outputs, wire ∈ (wiring other).outputs →
        gate = other)
    {gate : γ} (hgate : gate ∈ gates) :
    ∃ output, runGate wiring run values gate = .ok output ∧
      ∀ wire ∈ (wiring gate).outputs, after[wire]? = some output := by
  obtain ⟨outputs, houtputs, rfl⟩ := runLevel_eq_ok_iff.mp hrun
  obtain ⟨output, houtput, hmem⟩ := exists_of_mem_of_mapM houtputs hgate
  refine ⟨output, houtput, ?_⟩
  intro wire hwire
  apply getElem?_foldl_assignAll_of_mem
  · exact ⟨(gate, output), hmem, hwire⟩
  · rintro ⟨other, result⟩ hentry hother
    have hsame := hdisjoint gate hgate other (List.of_mem_zip hentry).1 wire
      hwire hother
    subst hsame
    have hresult := List.forall₂_zip (mapM_eq_ok_iff.mp houtputs) hentry
    rw [houtput, Except.ok.injEq] at hresult
    exact hresult.symm

end

/-! ## All levels -/

namespace Layered

variable {levels : List (List γ)} {available : Nat → WireId → Prop}
  {values final : WireMap α}

theorem available_succ
    (hlayered : Layered wiring levels available) {level : Nat}
    (hlevel : level < levels.length) {wire : WireId}
    (hwire : available level wire) : available (level + 1) wire := by
  have hgates := List.getElem?_eq_getElem hlevel
  exact (hlayered.next level _ hgates wire).mpr (Or.inl hwire)

theorem getElem?_runLevel
    (hlayered : Layered wiring levels available) {level : Nat}
    {gates : List γ} (hgates : levels[level]? = some gates)
    {values after : WireMap α}
    (hrun : runLevel executor wiring run values gates = .ok after)
    {wire : WireId} (hwire : available level wire) :
    after[wire]? = values[wire]? := by
  apply getElem?_runLevel_of_forall_notMem hrun
  intro gate hgate hmem
  exact hlayered.fresh level gates hgates gate hgate wire hmem hwire

/-- A run follows any assignment that its gates agree with. -/
theorem foldlM_of_solves
    (hlayered : Layered wiring levels available) {v : WireId → α}
    (hvalues : ∀ wire, available 0 wire → values[wire]? = some (v wire))
    (houtputs : ∀ gates ∈ levels, ∀ gate ∈ gates,
      (wiring gate).outputs ≠ [])
    (hsolves : ∀ gates ∈ levels, ∀ gate ∈ gates,
      Solves wiring run v gate) :
    ∃ final, levels.foldlM (runLevel executor wiring run) values = .ok final ∧
      ∀ wire, available levels.length wire →
        final[wire]? = some (v wire) := by
  apply foldlM_progress (fun level (values : WireMap α) =>
    ∀ wire, available level wire → values[wire]? = some (v wire)) hvalues
  intro level gates values hgates hvalues
  have hmem := List.mem_of_getElem? hgates
  have hgate : ∀ gate ∈ gates, ∀ wire ∈ (wiring gate).outputs,
      runGate wiring run values gate = .ok (v wire) := by
    intro gate hgate wire hwire
    refine bind_eq_ok_iff.mpr ⟨_, mapM_valueAt_eq_ok ?_,
      hsolves gates hmem gate hgate wire hwire⟩
    intro input hinput
    exact hvalues input (hlayered.reads level gates hgates gate hgate input
      hinput)
  have hprogress : ∃ after,
      runLevel executor wiring run values gates = .ok after := by
    apply runLevel_progress
    intro gate hin
    obtain ⟨wire, hwire⟩ :=
      List.exists_mem_of_ne_nil _ (houtputs gates hmem gate hin)
    exact ⟨v wire, hgate gate hin wire hwire⟩
  obtain ⟨after, hrun⟩ := hprogress
  refine ⟨after, hrun, ?_⟩
  intro wire hwire
  rcases (hlayered.next level gates hgates wire).mp hwire with
    hold | ⟨gate, hin, hdriven⟩
  · rw [hlayered.getElem?_runLevel hgates hrun hold]
    exact hvalues wire hold
  · obtain ⟨output, houtput, hafter⟩ := exists_getElem?_runLevel hrun
      (hlayered.disjoint level gates hgates) hin
    rw [hgate gate hin wire hdriven, Except.ok.injEq] at houtput
    rw [houtput]
    exact hafter wire hdriven

theorem available_of_le
    (hlayered : Layered wiring levels available) {earlier level : Nat}
    (hle : earlier ≤ level) (hlevel : level ≤ levels.length) {wire : WireId}
    (hwire : available earlier wire) : available level wire := by
  induction level, hle using Nat.le_induction with
  | base => exact hwire
  | succ level _ ih =>
      exact hlayered.available_succ (by omega) (ih (by omega))

theorem available_after
    (hlayered : Layered wiring levels available) {level : Nat}
    {gates : List γ} (hgates : levels[level]? = some gates)
    {gate : γ} (hgate : gate ∈ gates) {wire : WireId}
    (hwire : wire ∈ (wiring gate).inputs ∨ wire ∈ (wiring gate).outputs) :
    available (level + 1) wire := by
  rw [hlayered.next level gates hgates]
  rcases hwire with hinput | houtput
  · exact Or.inl (hlayered.reads level gates hgates gate hgate wire hinput)
  · exact Or.inr ⟨gate, hgate, houtput⟩

theorem solves_unique
    (hlayered : Layered wiring levels available) {v other : WireId → α}
    (hstart : ∀ wire, available 0 wire → v wire = other wire)
    (hv : ∀ gates ∈ levels, ∀ gate ∈ gates, Solves wiring run v gate)
    (hother : ∀ gates ∈ levels, ∀ gate ∈ gates,
      Solves wiring run other gate) :
    ∀ wire, available levels.length wire → v wire = other wire := by
  have hlevels : ∀ level ≤ levels.length, ∀ wire, available level wire →
      v wire = other wire := by
    intro level
    induction level with
    | zero =>
        intro _
        exact hstart
    | succ level ih =>
        intro hlevel wire hwire
        have hgates := List.getElem?_eq_getElem (Nat.lt_of_succ_le hlevel)
        rcases (hlayered.next level _ hgates wire).mp hwire with
          hbefore | ⟨gate, hgate, hdriven⟩
        · exact ih (by omega) wire hbefore
        · have hmem := List.mem_of_getElem? hgates
          have hsame : (wiring gate).inputs.map v =
              (wiring gate).inputs.map other := by
            apply List.map_congr_left
            intro input hinput
            exact ih (by omega) input
              (hlayered.reads level _ hgates gate hgate input hinput)
          have hvalue := hv _ hmem gate hgate wire hdriven
          rw [hsame, hother _ hmem gate hgate wire hdriven,
            Except.ok.injEq] at hvalue
          exact hvalue.symm
  exact hlevels levels.length le_rfl

end Layered

end GarbledCircuits
