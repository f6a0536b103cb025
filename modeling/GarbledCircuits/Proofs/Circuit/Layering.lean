import GarbledCircuits.Proofs.Circuit.Levels

/-!
# Two ways to layer a circuit

The levels of a scheduled circuit make its wires available by depth.  One gate
to a level, in declared order, makes them available as well.
-/

namespace GarbledCircuits

open Outcome

theorem mem_gatesAt
    {gates : List γ} {indices : List Nat} {index : Nat} {gate : γ} :
    (index, gate) ∈ gatesAt gates indices ↔
      index ∈ indices ∧ gates[index]? = some gate := by
  simp only [gatesAt, List.mem_filterMap, Option.map_eq_some_iff,
    Prod.mk.injEq]
  constructor
  · rintro ⟨other, hother, _, hgate, rfl, rfl⟩
    exact ⟨hother, hgate⟩
  · rintro ⟨hindex, hgate⟩
    exact ⟨index, hindex, gate, hgate, rfl, rfl⟩

theorem gatesAt_map (f : γ → δ) (gates : List γ) (indices : List Nat) :
    gatesAt (gates.map f) indices =
      (gatesAt gates indices).map fun entry => (entry.1, f entry.2) := by
  simp only [gatesAt, List.getElem?_map, List.map_filterMap, Option.map_map]
  rfl

namespace Wired

variable {inputs : List WireId}

theorem of_append
    {gates rest : List GateWiring} (hwired : Wired inputs (gates ++ rest)) :
    Wired inputs gates := by
  induction rest using List.reverseRecOn with
  | nil => simpa using hwired
  | append_singleton rest gate ih =>
      rw [← List.append_assoc] at hwired
      exact ih (append_singleton_iff.mp hwired).1

theorem take_succ_eq_append
    {gates : List GateWiring} {index : Nat} {gate : GateWiring}
    (hgate : gates[index]? = some gate) :
    gates.take (index + 1) = gates.take index ++ [gate] := by
  rw [List.take_add_one, hgate, Option.toList_some]

/-- A gate drives wires that no earlier gate drives and reads none other. -/
theorem at_getElem?
    {gates : List GateWiring} (hwired : Wired inputs gates) {index : Nat}
    {gate : GateWiring} (hgate : gates[index]? = some gate) :
    (∀ wire ∈ gate.inputs, wire ∈ drivenWires inputs (gates.take index)) ∧
      ∀ wire ∈ gate.outputs, wire ∉ drivenWires inputs (gates.take index) := by
  rw [← List.take_append_drop (index + 1) gates] at hwired
  have hfirst := hwired.of_append
  rw [take_succ_eq_append hgate, append_singleton_iff] at hfirst
  exact ⟨hfirst.2.2.1, hfirst.2.2.2.2⟩

theorem index_unique
    {gates : List GateWiring} (hwired : Wired inputs gates)
    {index other : Nat} {gate rival : GateWiring}
    (hgate : gates[index]? = some gate) (hrival : gates[other]? = some rival)
    {wire : WireId} (hwire : wire ∈ gate.outputs)
    (hdriven : wire ∈ rival.outputs) : index = other := by
  have hnotLater : ∀ {early late : Nat} {first last : GateWiring},
      gates[early]? = some first → gates[late]? = some last →
      wire ∈ first.outputs → wire ∈ last.outputs → ¬early < late := by
    intro early late first last hfirst hlast hin hout hlt
    have htake : (gates.take late)[early]? = some first := by
      rw [List.getElem?_take_of_lt hlt, hfirst]
    apply (hwired.at_getElem? hlast).2 wire hout
    rw [mem_drivenWires]
    exact Or.inr ⟨first, List.mem_of_getElem? htake, hin⟩
  have hforward := hnotLater hgate hrival hwire hdriven
  have hbackward := hnotLater hrival hgate hdriven hwire
  omega

/-- In declared order, every gate is a level of its own. -/
theorem layered
    {gates : List γ} {wiring : γ → GateWiring}
    (hwired : Wired inputs (gates.map wiring)) :
    Layered wiring (gates.map fun gate => [gate]) (fun level wire =>
      wire ∈ drivenWires inputs ((gates.map wiring).take level)) := by
  have hlevel : ∀ {level : Nat} {group : List γ},
      (gates.map fun gate => [gate])[level]? = some group →
      ∃ gate, group = [gate] ∧
        (gates.map wiring)[level]? = some (wiring gate) := by
    intro level group hgroup
    rw [List.getElem?_map, Option.map_eq_some_iff] at hgroup
    obtain ⟨gate, hgate, rfl⟩ := hgroup
    exact ⟨gate, rfl, by rw [List.getElem?_map, hgate, Option.map_some]⟩
  constructor
  · intro level group hgroup gate hgate
    obtain ⟨only, rfl, honly⟩ := hlevel hgroup
    rw [List.mem_singleton] at hgate
    subst hgate
    exact (hwired.at_getElem? honly).1
  · intro level group hgroup gate hgate
    obtain ⟨only, rfl, honly⟩ := hlevel hgroup
    rw [List.mem_singleton] at hgate
    subst hgate
    exact (hwired.at_getElem? honly).2
  · intro level group hgroup gate hgate other hother _ _ _
    obtain ⟨only, rfl, _⟩ := hlevel hgroup
    rw [List.mem_singleton] at hgate hother
    rw [hgate, hother]
  · intro level group hgroup wire
    obtain ⟨only, rfl, honly⟩ := hlevel hgroup
    rw [take_succ_eq_append honly, drivenWires_append]
    simp

end Wired

theorem GateWiring.le_deepest
    {wiring : GateWiring} {depth : WireId → Nat} {wire : WireId}
    (hwire : wire ∈ wiring.inputs) : depth wire ≤ wiring.deepest depth := by
  have hfold : ∀ (wires : List WireId) (start : Nat),
      start ≤ wires.foldl (fun deepest wire => max deepest (depth wire))
          start ∧
        ∀ wire ∈ wires, depth wire ≤
          wires.foldl (fun deepest wire => max deepest (depth wire)) start := by
    intro wires
    induction wires with
    | nil => simp
    | cons first rest ih =>
        intro start
        obtain ⟨hstart, hrest⟩ := ih (max start (depth first))
        rw [List.foldl_cons]
        refine ⟨le_trans (le_max_left _ _) hstart, ?_⟩
        intro wire hwire
        rcases List.mem_cons.mp hwire with rfl | hmem
        · exact le_trans (le_max_right _ _) hstart
        · exact hrest wire hmem
  exact (hfold wiring.inputs 0).2 wire hwire

namespace Scheduled

variable {α γ : Type} {inputs : List WireId} {gates : List γ}
  {wiring : γ → GateWiring} {outputs : List WireId} {levels : Levels}
  {depth : WireId → Nat}

/-- The wires that have a value before a level. -/
def available (inputs : List WireId) (gates : List GateWiring)
    (depth : WireId → Nat) (level : Nat) (wire : WireId) : Prop :=
  wire ∈ drivenWires inputs gates ∧ depth wire ≤ level

theorem eq_levelIndices
    (hscheduled : Scheduled inputs (gates.map wiring) outputs levels depth)
    {level : Nat} {indices : List Nat}
    (hindices : levels[level]? = some indices) :
    indices = levelIndices (gates.map wiring) depth level := by
  rw [← hscheduled.levels_eq, List.getD_eq_getElem?_getD, hindices,
    Option.getD_some]

/-- The gates of a level are those whose deepest input is as deep. -/
theorem mem_gatesAt_iff
    (hscheduled : Scheduled inputs (gates.map wiring) outputs levels depth)
    {level : Nat} {indices : List Nat}
    (hindices : levels[level]? = some indices) {index : Nat} {gate : γ} :
    (index, gate) ∈ gatesAt gates indices ↔
      gates[index]? = some gate ∧ (wiring gate).deepest depth = level := by
  rw [mem_gatesAt, hscheduled.eq_levelIndices hindices, mem_levelIndices]
  simp only [List.getElem?_map, Option.map_eq_some_iff]
  constructor
  · rintro ⟨⟨_, ⟨other, hother, rfl⟩, hdeepest⟩, hgate⟩
    rw [hgate, Option.some.injEq] at hother
    subst hother
    exact ⟨hgate, hdeepest⟩
  · rintro ⟨hgate, hdeepest⟩
    exact ⟨⟨_, ⟨gate, hgate, rfl⟩, hdeepest⟩, hgate⟩

theorem deepest_lt_length
    (hscheduled : Scheduled inputs (gates.map wiring) outputs levels depth)
    {gate : γ} (hgate : gate ∈ gates) :
    (wiring gate).deepest depth < levels.length := by
  obtain ⟨index, hindex⟩ := List.getElem?_of_mem hgate
  have hmem : index ∈ levels.getD ((wiring gate).deepest depth) [] := by
    rw [hscheduled.levels_eq, mem_levelIndices]
    exact ⟨wiring gate, by rw [List.getElem?_map, hindex, Option.map_some],
      rfl⟩
  by_contra hlength
  rw [List.getD_eq_getElem?_getD,
    List.getElem?_eq_none (Nat.le_of_not_lt hlength)] at hmem
  cases hmem

theorem mem_group_iff
    (hscheduled : Scheduled inputs (gates.map wiring) outputs levels depth)
    {level : Nat} {group : List (Nat × γ)}
    (hgroup : (levels.map (gatesAt gates))[level]? = some group)
    {index : Nat} {gate : γ} :
    (index, gate) ∈ group ↔
      gates[index]? = some gate ∧ (wiring gate).deepest depth = level := by
  rw [List.getElem?_map, Option.map_eq_some_iff] at hgroup
  obtain ⟨indices, hindices, rfl⟩ := hgroup
  exact hscheduled.mem_gatesAt_iff hindices

theorem depth_of_mem_outputs
    (hscheduled : Scheduled inputs (gates.map wiring) outputs levels depth)
    {gate : γ} (hgate : gate ∈ gates) {wire : WireId}
    (hwire : wire ∈ (wiring gate).outputs) :
    depth wire = (wiring gate).deepest depth + 1 :=
  hscheduled.deepens.output _ (List.mem_map_of_mem hgate) wire hwire

/-- A level makes the outputs of its gates available. -/
theorem available_succ_iff
    (hscheduled : Scheduled inputs (gates.map wiring) outputs levels depth)
    {level : Nat} {group : List (Nat × γ)}
    (hgroup : (levels.map (gatesAt gates))[level]? = some group)
    {wire : WireId} :
    available inputs (gates.map wiring) depth (level + 1) wire ↔
      available inputs (gates.map wiring) depth level wire ∨
        ∃ entry ∈ group, wire ∈ (wiring entry.2).outputs := by
  constructor
  · rintro ⟨hdriven, hle⟩
    rcases Nat.le_succ_iff.mp hle with hbefore | hat
    · exact Or.inl ⟨hdriven, hbefore⟩
    · rcases mem_drivenWires.mp hdriven with hinput | ⟨_, hgate, hwire⟩
      · have hzero := hscheduled.deepens.input wire hinput
        omega
      · obtain ⟨gate, hin, rfl⟩ := List.mem_map.mp hgate
        obtain ⟨index, hindex⟩ := List.getElem?_of_mem hin
        have hdepth := hscheduled.depth_of_mem_outputs hin hwire
        exact Or.inr ⟨(index, gate),
          (hscheduled.mem_group_iff hgroup).mpr ⟨hindex, by omega⟩, hwire⟩
  · rintro (⟨hdriven, hle⟩ | ⟨⟨index, gate⟩, hentry, hwire⟩)
    · exact ⟨hdriven, by omega⟩
    · obtain ⟨hgate, hdeepest⟩ := (hscheduled.mem_group_iff hgroup).mp hentry
      have hmem := List.mem_of_getElem? hgate
      have hdepth := hscheduled.depth_of_mem_outputs hmem hwire
      refine ⟨mem_drivenWires.mpr (Or.inr ⟨wiring gate, ?_, hwire⟩),
        by omega⟩
      exact List.mem_map_of_mem hmem

theorem layered
    (hscheduled : Scheduled inputs (gates.map wiring) outputs levels depth) :
    Layered (fun entry : Nat × γ => wiring entry.2)
      (levels.map (gatesAt gates))
      (available inputs (gates.map wiring) depth) := by
  constructor
  · rintro level group hgroup ⟨index, gate⟩ hentry wire hwire
    obtain ⟨hgate, hdeepest⟩ := (hscheduled.mem_group_iff hgroup).mp hentry
    have hmem : wiring gate ∈ gates.map wiring :=
      List.mem_map_of_mem (List.mem_of_getElem? hgate)
    have hdepth : depth wire ≤ (wiring gate).deepest depth :=
      GateWiring.le_deepest hwire
    exact ⟨hscheduled.wired.mem_driven_of_mem_inputs hmem hwire, by omega⟩
  · rintro level group hgroup ⟨index, gate⟩ hentry wire hwire ⟨_, hle⟩
    obtain ⟨hgate, hdeepest⟩ := (hscheduled.mem_group_iff hgroup).mp hentry
    have hdepth := hscheduled.depth_of_mem_outputs
      (List.mem_of_getElem? hgate) hwire
    omega
  · rintro level group hgroup ⟨index, gate⟩ hentry ⟨other, rival⟩ hrival wire
      hwire hdriven
    obtain ⟨hgate, _⟩ := (hscheduled.mem_group_iff hgroup).mp hentry
    obtain ⟨hother, _⟩ := (hscheduled.mem_group_iff hgroup).mp hrival
    have hindex : index = other := by
      apply hscheduled.wired.index_unique _ _ hwire hdriven
      · rw [List.getElem?_map, hgate, Option.map_some]
      · rw [List.getElem?_map, hother, Option.map_some]
    subst hindex
    rw [hgate, Option.some.injEq] at hother
    rw [hother]
  · intro level group hgroup wire
    exact hscheduled.available_succ_iff hgroup

theorem available_zero_iff
    (hscheduled : Scheduled inputs (gates.map wiring) outputs levels depth)
    {wire : WireId} :
    available inputs (gates.map wiring) depth 0 wire ↔ wire ∈ inputs := by
  constructor
  · rintro ⟨hdriven, hzero⟩
    rcases mem_drivenWires.mp hdriven with hinput | ⟨gate, hgate, hwire⟩
    · exact hinput
    · have hdepth := hscheduled.deepens.output gate hgate wire hwire
      omega
  · intro hinput
    exact ⟨mem_drivenWires.mpr (Or.inl hinput),
      (hscheduled.deepens.input wire hinput).le⟩

theorem available_length_iff
    (hscheduled : Scheduled inputs (gates.map wiring) outputs levels depth)
    {wire : WireId} :
    available inputs (gates.map wiring) depth levels.length wire ↔
      wire ∈ drivenWires inputs (gates.map wiring) := by
  constructor
  · intro havailable
    exact havailable.1
  · intro hdriven
    refine ⟨hdriven, ?_⟩
    rcases mem_drivenWires.mp hdriven with hinput | ⟨_, hgate, hwire⟩
    · rw [hscheduled.deepens.input wire hinput]
      exact Nat.zero_le _
    · obtain ⟨gate, hin, rfl⟩ := List.mem_map.mp hgate
      rw [hscheduled.depth_of_mem_outputs hin hwire]
      exact hscheduled.deepest_lt_length hin

/-- The levels hold every gate, with its index. -/
theorem mem_flatMap_gatesAt_iff
    (hscheduled : Scheduled inputs (gates.map wiring) outputs levels depth)
    {index : Nat} {gate : γ} :
    (index, gate) ∈ levels.flatMap (gatesAt gates) ↔
      gates[index]? = some gate := by
  rw [List.mem_flatMap]
  constructor
  · rintro ⟨indices, _, hentry⟩
    exact (mem_gatesAt.mp hentry).2
  · intro hgate
    have hlt := hscheduled.deepest_lt_length (List.mem_of_getElem? hgate)
    have hindices := List.getElem?_eq_getElem hlt
    exact ⟨_, List.getElem_mem hlt,
      (hscheduled.mem_gatesAt_iff hindices).mpr ⟨hgate, rfl⟩⟩

theorem forall_gatesAt_iff
    (hscheduled : Scheduled inputs (gates.map wiring) outputs levels depth)
    {p : Nat × γ → Prop} :
    (∀ group ∈ levels.map (gatesAt gates), ∀ entry ∈ group, p entry) ↔
      ∀ (index : Nat) (gate : γ), gates[index]? = some gate →
        p (index, gate) := by
  rw [← List.forall_mem_flatten, ← List.flatMap_def, Prod.forall]
  simp only [hscheduled.mem_flatMap_gatesAt_iff]

/-- Assignments that all gates agree with are the same on all driven wires
where they are on the circuit inputs. -/
theorem solves_unique
    (hscheduled : Scheduled inputs (gates.map wiring) outputs levels depth)
    {run : (Nat × γ) × List α → Except CircuitError α}
    {v other : WireId → α} (hinputs : ∀ wire ∈ inputs, v wire = other wire)
    (hv : ∀ (index : Nat) (gate : γ), gates[index]? = some gate →
      Solves (fun entry : Nat × γ => wiring entry.2) run v (index, gate))
    (hother : ∀ (index : Nat) (gate : γ), gates[index]? = some gate →
      Solves (fun entry : Nat × γ => wiring entry.2) run other
        (index, gate)) :
    ∀ wire ∈ drivenWires inputs (gates.map wiring), v wire = other wire := by
  intro wire hwire
  apply hscheduled.layered.solves_unique
  · intro input hinput
    exact hinputs input (hscheduled.available_zero_iff.mp hinput)
  · exact hscheduled.forall_gatesAt_iff.mpr hv
  · exact hscheduled.forall_gatesAt_iff.mpr hother
  · rw [List.length_map, hscheduled.available_length_iff]
    exact hwire

end Scheduled

end GarbledCircuits
