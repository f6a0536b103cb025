import GarbledCircuits.Proofs.Circuit.Layering
import GarbledCircuits.Proofs.Failure

/-!
# What a run over levels depends on

A run that goes through ends in values on which every gate, run once more,
gives what its outputs already have, and which are those of the start where no
gate drives a wire.  Nothing else is said about the values at its end, so the
layering of the gates is of no matter.  Of the values at its start, a run uses
those of the wires that are available then and no others.
-/

namespace GarbledCircuits

open Outcome

variable {γ : Type} {executor : Executor} {wiring : γ → GateWiring}
  {run : γ × List α → Except CircuitError α}

/-- Some values are what gates leave behind that were run from a start. -/
structure Completes (wiring : γ → GateWiring)
    (run : γ × List α → Except CircuitError α) (gates : List γ)
    (start final : WireMap α) : Prop where
  kept : ∀ wire, (∀ gate ∈ gates, wire ∉ (wiring gate).outputs) →
    final[wire]? = start[wire]?
  runs : ∀ gate ∈ gates, ∃ output,
    runGate wiring run final gate = .ok output ∧
      ∀ wire ∈ (wiring gate).outputs, final[wire]? = some output

/-- No gate drives the wire from a level on. -/
def Settled (wiring : γ → GateWiring) (levels : List (List γ)) (level : Nat)
    (wire : WireId) : Prop :=
  ∀ gate ∈ (levels.drop level).flatten, wire ∉ (wiring gate).outputs

theorem completes_congr
    {gates others : List γ} (hsame : ∀ gate, gate ∈ gates ↔ gate ∈ others)
    {start final : WireMap α} :
    Completes wiring run gates start final ↔
      Completes wiring run others start final := by
  constructor
  · intro hcompletes
    exact ⟨by simpa only [hsame] using hcompletes.kept,
      by simpa only [hsame] using hcompletes.runs⟩
  · intro hcompletes
    exact ⟨by simpa only [hsame] using hcompletes.kept,
      by simpa only [hsame] using hcompletes.runs⟩

theorem Completes.solves
    [Inhabited α] {gates : List γ} {start final : WireMap α}
    (hcompletes : Completes wiring run gates start final) {gate : γ}
    (hgate : gate ∈ gates) : Solves wiring run (valueOf final) gate := by
  obtain ⟨output, houtput, houtputs⟩ := hcompletes.runs gate hgate
  obtain ⟨inputs, hinputs, hresult⟩ := bind_eq_ok_iff.mp houtput
  intro wire hwire
  rw [map_valueOf_of_mapM_valueAt hinputs, hresult, valueOf,
    houtputs wire hwire, Option.getD_some]

theorem mapM_valueAt_congr
    {wires : List WireId} {values other : WireMap α}
    (hsame : ∀ wire ∈ wires, values[wire]? = other[wire]?) :
    wires.mapM (valueAt values) = wires.mapM (valueAt other) := by
  apply mapM_congr
  intro wire hwire
  unfold valueAt
  rw [hsame wire hwire]

theorem runGate_congr
    {gate : γ} {values other : WireMap α}
    (hsame : ∀ wire ∈ (wiring gate).inputs, values[wire]? = other[wire]?) :
    runGate wiring run values gate = runGate wiring run other gate := by
  unfold runGate
  rw [mapM_valueAt_congr hsame]

namespace Layered

variable {levels : List (List γ)} {available : Nat → WireId → Prop}
  {level : Nat} {gates : List γ} {values other after start final : WireMap α}

/-! ## Where a run ends -/

theorem flatten_take_succ
    (hgates : levels[level]? = some gates) :
    (levels.take (level + 1)).flatten =
      (levels.take level).flatten ++ gates := by
  rw [List.take_add_one, hgates, List.flatten_append, Option.toList_some,
    List.flatten_singleton]

theorem exists_level_of_mem_take
    {gate : γ} (hgate : gate ∈ (levels.take level).flatten) :
    ∃ earlier < level, ∃ gates, levels[earlier]? = some gates ∧
      gate ∈ gates := by
  obtain ⟨gates, hgates, hin⟩ := List.mem_flatten.mp hgate
  obtain ⟨earlier, hearlier⟩ := List.getElem?_of_mem hgates
  rw [List.getElem?_take] at hearlier
  split_ifs at hearlier with hlt
  exact ⟨earlier, hlt, gates, hearlier, hin⟩

theorem exists_level_of_mem_drop
    {gate : γ} (hgate : gate ∈ (levels.drop level).flatten) :
    ∃ later, level ≤ later ∧ ∃ gates, levels[later]? = some gates ∧
      gate ∈ gates := by
  obtain ⟨gates, hgates, hin⟩ := List.mem_flatten.mp hgate
  obtain ⟨index, hindex⟩ := List.getElem?_of_mem hgates
  rw [List.getElem?_drop] at hindex
  exact ⟨level + index, Nat.le_add_right .., gates, hindex, hin⟩

/-- A level leaves alone what the gates before it read and drive. -/
theorem getElem?_runLevel_of_mem_take
    (hlayered : Layered wiring levels available)
    (hgates : levels[level]? = some gates)
    (hrun : runLevel executor wiring run values gates = .ok after) {gate : γ}
    (hgate : gate ∈ (levels.take level).flatten) {wire : WireId}
    (hwire : wire ∈ (wiring gate).inputs ∨ wire ∈ (wiring gate).outputs) :
    after[wire]? = values[wire]? := by
  obtain ⟨hlevel, _⟩ := List.getElem?_eq_some_iff.mp hgates
  obtain ⟨earlier, hlt, others, hothers, hin⟩ :=
    exists_level_of_mem_take hgate
  apply hlayered.getElem?_runLevel hgates hrun
  exact hlayered.available_of_le hlt hlevel.le
    (hlayered.available_after hothers hin hwire)

theorem completes_afterLevel
    (hlayered : Layered wiring levels available)
    (hgates : levels[level]? = some gates)
    (hcompletes : Completes wiring run (levels.take level).flatten start
      values)
    (hrun : runLevel executor wiring run values gates = .ok after) :
    Completes wiring run (levels.take (level + 1)).flatten start after := by
  rw [flatten_take_succ hgates]
  constructor
  · intro wire hwire
    rw [List.forall_mem_append] at hwire
    rw [getElem?_runLevel_of_forall_notMem hrun hwire.2]
    exact hcompletes.kept wire hwire.1
  · intro gate hgate
    by_cases hearlier : gate ∈ (levels.take level).flatten
    · obtain ⟨output, houtput, houtputs⟩ := hcompletes.runs gate hearlier
      have hkept : ∀ wire, (wire ∈ (wiring gate).inputs ∨
          wire ∈ (wiring gate).outputs) → after[wire]? = values[wire]? :=
        fun wire hwire =>
          hlayered.getElem?_runLevel_of_mem_take hgates hrun hearlier hwire
      refine ⟨output, ?_, ?_⟩
      · rw [runGate_congr fun wire hwire => hkept wire (Or.inl hwire)]
        exact houtput
      · intro wire hwire
        rw [hkept wire (Or.inr hwire)]
        exact houtputs wire hwire
    · have hin := (List.mem_append.mp hgate).resolve_left hearlier
      obtain ⟨output, houtput, houtputs⟩ := exists_getElem?_runLevel hrun
        (hlayered.disjoint level gates hgates) hin
      refine ⟨output, ?_, houtputs⟩
      rw [← houtput]
      apply runGate_congr
      intro wire hwire
      apply hlayered.getElem?_runLevel hgates hrun
      exact hlayered.reads level gates hgates gate hin wire hwire

theorem settled_of_available
    (hlayered : Layered wiring levels available) {wire : WireId}
    (hwire : available level wire) : Settled wiring levels level wire := by
  intro gate hgate hdriven
  obtain ⟨later, hle, gates, hgates, hin⟩ := exists_level_of_mem_drop hgate
  obtain ⟨hlt, _⟩ := List.getElem?_eq_some_iff.mp hgates
  exact hlayered.fresh later gates hgates gate hin wire hdriven
    (hlayered.available_of_le hle hlt.le hwire)

/-- A gate reads only wires that are settled before its level. -/
theorem runGate_of_settled
    (hlayered : Layered wiring levels available)
    (hgates : levels[level]? = some gates)
    (hvalues : ∀ wire, Settled wiring levels level wire →
      values[wire]? = final[wire]?)
    {gate : γ} (hgate : gate ∈ gates) :
    runGate wiring run values gate = runGate wiring run final gate := by
  apply runGate_congr
  intro wire hwire
  apply hvalues wire
  exact hlayered.settled_of_available
    (hlayered.reads level gates hgates gate hgate wire hwire)

theorem exists_runLevel_of_settled
    (hlayered : Layered wiring levels available)
    (hgates : levels[level]? = some gates)
    (hruns : ∀ gate ∈ gates, ∃ output,
      runGate wiring run final gate = .ok output ∧
        ∀ wire ∈ (wiring gate).outputs, final[wire]? = some output)
    (hvalues : ∀ wire, Settled wiring levels level wire →
      values[wire]? = final[wire]?) :
    ∃ after, runLevel executor wiring run values gates = .ok after ∧
      ∀ wire, Settled wiring levels (level + 1) wire →
        after[wire]? = final[wire]? := by
  obtain ⟨hlevel, hget⟩ := List.getElem?_eq_some_iff.mp hgates
  obtain ⟨after, hrun⟩ := runLevel_progress fun gate hgate => by
    obtain ⟨output, houtput, _⟩ := hruns gate hgate
    exact ⟨output, (hlayered.runGate_of_settled hgates hvalues hgate).trans
      houtput⟩
  refine ⟨after, hrun, ?_⟩
  intro wire hlater
  by_cases hdriven : ∃ gate ∈ gates, wire ∈ (wiring gate).outputs
  · obtain ⟨gate, hgate, hwire⟩ := hdriven
    obtain ⟨output, houtput, houtputs⟩ := hruns gate hgate
    obtain ⟨result, hresult, hafter⟩ := exists_getElem?_runLevel hrun
      (hlayered.disjoint level gates hgates) hgate
    rw [hlayered.runGate_of_settled hgates hvalues hgate, houtput,
      Except.ok.injEq] at hresult
    rw [houtputs wire hwire, hresult]
    exact hafter wire hwire
  · push Not at hdriven
    rw [getElem?_runLevel_of_forall_notMem hrun hdriven]
    apply hvalues wire
    rw [Settled, List.drop_eq_getElem_cons hlevel, hget, List.flatten_cons,
      List.forall_mem_append]
    exact ⟨hdriven, hlater⟩

/-- A run ends in exactly the values that its gates leave behind, whatever
their layering. -/
theorem foldlM_eq_ok_iff (hlayered : Layered wiring levels available) :
    levels.foldlM (runLevel executor wiring run) start = .ok final ↔
      Completes wiring run levels.flatten start final := by
  constructor
  · intro hrun
    have hcompletes := foldlM_invariant
      (fun level => Completes wiring run (levels.take level).flatten start)
      ⟨fun _ _ => rfl, by simp⟩
      (fun level gates values after hgates hcompletes hlevel =>
        hlayered.completes_afterLevel hgates hcompletes hlevel) hrun
    rwa [List.take_length] at hcompletes
  · -- Before a level, the values are those of the end on all settled wires;
    -- after the last level these are all wires.
    intro hcompletes
    obtain ⟨last, hrun, hlast⟩ := foldlM_progress
      (fun level (values : WireMap α) =>
        ∀ wire, Settled wiring levels level wire →
          values[wire]? = final[wire]?)
      (fun wire hwire => (hcompletes.kept wire hwire).symm)
      (fun level gates values hgates hvalues =>
        hlayered.exists_runLevel_of_settled hgates
          (fun gate hgate => hcompletes.runs gate (List.mem_flatten.mpr
            ⟨gates, List.mem_of_getElem? hgates, hgate⟩)) hvalues)
    have hsame : last = final := by
      apply Std.ExtTreeMap.ext_getElem?
      intro wire
      apply hlast wire
      simp [Settled]
    rw [hrun, hsame]

/-- A run gives exactly the values that an assignment gives to the outputs,
if it starts as the run does and all gates agree with it. -/
theorem run_eq_ok_iff
    [Inhabited α] (hlayered : Layered wiring levels available)
    (hvalues : ∀ wire, available 0 wire → wire ∈ values)
    (hdriven : ∀ gates ∈ levels, ∀ gate ∈ gates, (wiring gate).outputs ≠ [])
    {outputs : List WireId}
    (houtputs : ∀ wire ∈ outputs, available levels.length wire)
    {results : List α} :
    (levels.foldlM (runLevel executor wiring run) values >>= fun final =>
        outputs.mapM (valueAt final)) = .ok results ↔
      ∃ v : WireId → α,
        (∀ wire, available 0 wire → values[wire]? = some (v wire)) ∧
        (∀ gates ∈ levels, ∀ gate ∈ gates, Solves wiring run v gate) ∧
        outputs.map v = results := by
  rw [bind_eq_ok_iff]
  constructor
  · intro hresult
    obtain ⟨final, hrun, hresults⟩ := hresult
    have hcompletes := hlayered.foldlM_eq_ok_iff.mp hrun
    refine ⟨valueOf final, ?_, ?_, map_valueOf_of_mapM_valueAt hresults⟩
    · intro wire hwire
      have hkept := hcompletes.kept wire
        (hlayered.settled_of_available hwire)
      rw [getElem?_eq_some_valueOf (hvalues wire hwire), valueOf, valueOf,
        hkept]
    · intro gates hgates gate hgate
      exact hcompletes.solves (List.mem_flatten.mpr ⟨gates, hgates, hgate⟩)
  · intro hassignment
    obtain ⟨v, hstart, hsolves, rfl⟩ := hassignment
    obtain ⟨final, hrun, hfinal⟩ :=
      hlayered.foldlM_of_solves hstart hdriven hsolves
    refine ⟨final, hrun, mapM_valueAt_eq_ok ?_⟩
    intro wire hwire
    exact hfinal wire (houtputs wire hwire)

/-! ## What a run reads of its start -/

end Layered

namespace Scheduled

variable {inputs : List WireId} {gates : List γ} {outputs : List WireId}
  {levels : Levels} {depth : WireId → Nat}
  {run : (Nat × γ) × List α → Except CircuitError α}

/-- Running the levels ends in the same values as running one gate after the
other in declared order. -/
theorem foldlM_levels_eq_ok_iff
    (hscheduled : Scheduled inputs (gates.map wiring) outputs levels depth)
    {start final : WireMap α} :
    levels.foldlM (fun values level => runLevel executor
        (fun entry : Nat × γ => wiring entry.2) run values
        (gatesAt gates level)) start = .ok final ↔
      gates.zipIdx.foldlM (fun values (gate, index) => runLevel .sequential
        (fun entry : Nat × γ => wiring entry.2) run values
        [(index, gate)]) start = .ok final := by
  have hgates : (gates.zipIdx.map Prod.swap).map (fun entry =>
      wiring entry.2) = gates.map wiring := by
    conv_rhs => rw [← List.zipIdx_map_fst 0 gates]
    rw [List.map_map, List.map_map]
    rfl
  have hordered : Wired inputs ((gates.zipIdx.map Prod.swap).map fun entry =>
      wiring entry.2) := hgates ▸ hscheduled.wired
  have hentries : ∀ entry : Nat × γ,
      entry ∈ (levels.map (gatesAt gates)).flatten ↔
        entry ∈ ((gates.zipIdx.map Prod.swap).map fun entry =>
          [entry]).flatten := by
    rintro ⟨index, gate⟩
    rw [← List.flatMap_def, hscheduled.mem_flatMap_gatesAt_iff]
    simp [List.mem_zipIdx_iff_getElem?]
  rw [← List.foldlM_map, hscheduled.layered.foldlM_eq_ok_iff,
    completes_congr hentries, ← hordered.layered.foldlM_eq_ok_iff,
    List.foldlM_map, List.foldlM_map]
  rfl

/-- A run over the levels of a circuit gives exactly the values that an
assignment gives to the circuit outputs, if it starts as the run does and all
gates agree with it. -/
theorem run_eq_ok_iff
    [Inhabited α]
    (hscheduled : Scheduled inputs (gates.map wiring) outputs levels depth)
    (hdriven : ∀ gate ∈ gates, (wiring gate).outputs ≠ [])
    {values : WireMap α} (hvalues : ∀ wire ∈ inputs, wire ∈ values)
    {run : (Nat × γ) × List α → Except CircuitError α} {results : List α} :
    (levels.foldlM (fun values level => runLevel executor
          (fun entry : Nat × γ => wiring entry.2) run values
          (gatesAt gates level)) values >>= fun final =>
        outputs.mapM (valueAt final)) = .ok results ↔
      ∃ v : WireId → α,
        (∀ wire ∈ inputs, values[wire]? = some (v wire)) ∧
        (∀ (index : Nat) (gate : γ), gates[index]? = some gate →
          Solves (fun entry : Nat × γ => wiring entry.2) run v
            (index, gate)) ∧
        outputs.map v = results := by
  rw [← List.foldlM_map, hscheduled.layered.run_eq_ok_iff]
  · simp only [hscheduled.available_zero_iff, hscheduled.forall_gatesAt_iff]
  · intro wire hwire
    exact hvalues wire (hscheduled.available_zero_iff.mp hwire)
  · rw [hscheduled.forall_gatesAt_iff]
    intro index gate hgate
    exact hdriven gate (List.mem_of_getElem? hgate)
  · intro wire hwire
    rw [List.length_map, hscheduled.available_length_iff]
    exact hscheduled.outputs_driven wire hwire

end Scheduled

end GarbledCircuits
