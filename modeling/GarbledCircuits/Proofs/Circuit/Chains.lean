import GarbledCircuits.Proofs.Circuit.Order
import Mathlib.Data.List.GetD
import Mathlib.Data.List.Sort

/-!
# Chains of gates

A gate stands in the level whose number is the length of the longest chain of
gates that feed it.  So no gate could stand earlier, no level is empty, and
there is only one way to put the gates into levels like this.
-/

namespace GarbledCircuits

open Outcome

theorem GateWiring.exists_deepest
    {wiring : GateWiring} {depth : WireId → Nat}
    (hdeepest : wiring.deepest depth ≠ 0) :
    ∃ wire ∈ wiring.inputs, depth wire = wiring.deepest depth := by
  have hfold : ∀ (wires : List WireId) (start : Nat),
      wires.foldl (fun deepest wire => max deepest (depth wire)) start =
          start ∨
        ∃ wire ∈ wires, depth wire =
          wires.foldl (fun deepest wire => max deepest (depth wire)) start := by
    intro wires
    induction wires with
    | nil => simp
    | cons first rest ih =>
        intro start
        rw [List.foldl_cons]
        rcases ih (max start (depth first)) with hstart | hlater
        · by_cases hfirst : start ≤ depth first
          · rw [max_eq_right hfirst] at hstart ⊢
            exact Or.inr ⟨first, List.mem_cons_self .., hstart.symm⟩
          · rw [max_eq_left (by omega)] at hstart ⊢
            exact Or.inl hstart
        · obtain ⟨wire, hwire, hdepth⟩ := hlater
          exact Or.inr ⟨wire, List.mem_cons_of_mem _ hwire, hdepth⟩
  rcases hfold wiring.inputs 0 with hzero | hattained
  · exact absurd hzero hdeepest
  · exact hattained

/-! ## Levels without gaps -/

theorem Levels.mem_flatten_iff {levels : Levels} {index : Nat} :
    index ∈ levels.flatten ↔ ∃ level, index ∈ levels.getD level [] := by
  rw [List.mem_flatten]
  constructor
  · intro hindex
    obtain ⟨indices, hlevel, hmem⟩ := hindex
    obtain ⟨level, hlt, rfl⟩ := List.mem_iff_getElem.mp hlevel
    refine ⟨level, ?_⟩
    rwa [List.getD_eq_getElem _ _ hlt]
  · intro hindex
    obtain ⟨level, hmem⟩ := hindex
    by_cases hlt : level < levels.length
    · rw [List.getD_eq_getElem _ _ hlt] at hmem
      exact ⟨_, List.getElem_mem hlt, hmem⟩
    · rw [List.getD_eq_default _ _ (by omega)] at hmem
      cases hmem

/-- Levels that are not empty are told apart by what they hold. -/
theorem Levels.eq_of_getD
    {levels other : Levels} (hlevels : ∀ level ∈ levels, level ≠ [])
    (hother : ∀ level ∈ other, level ≠ [])
    (hsame : ∀ level, levels.getD level [] = other.getD level []) :
    levels = other := by
  have hget : ∀ {levels : Levels}, (∀ level ∈ levels, level ≠ []) →
      ∀ level, levels[level]? =
        if levels.getD level [] = [] then none
        else some (levels.getD level []) := by
    intro levels hnonempty level
    rw [List.getD_eq_getElem?_getD]
    cases hlevel : levels[level]? with
    | none => simp
    | some indices =>
        simp [hnonempty indices (List.mem_of_getElem? hlevel)]
  apply List.ext_getElem?
  intro level
  rw [hget hlevels, hget hother, hsame]

theorem Levels.length_place (index depth : Nat) (levels : Levels) :
    (Levels.place index depth levels).length =
      max levels.length (depth + 1) := by
  induction depth generalizing levels with
  | zero => cases levels <;> simp [place]
  | succ depth ih => cases levels <;> simp [place, ih]

/-- No level is empty with all levels after it. -/
def Levels.Topped (levels : Levels) : Prop :=
  ∀ level < levels.length, ∃ later, level ≤ later ∧
    levels.getD later [] ≠ []

theorem Levels.Topped.place
    {levels : Levels} (htopped : levels.Topped) (index depth : Nat) :
    (Levels.place index depth levels).Topped := by
  intro level hlevel
  rw [length_place] at hlevel
  by_cases hle : level ≤ depth
  · refine ⟨depth, hle, ?_⟩
    rw [getD_place, if_pos rfl]
    exact List.append_ne_nil_of_right_ne_nil _ (List.cons_ne_nil _ _)
  · obtain ⟨later, hlater, hnonempty⟩ := htopped level (by omega)
    refine ⟨later, hlater, ?_⟩
    rw [getD_place, if_neg (by omega)]
    exact hnonempty

theorem Scan.topped_of_gates
    {gates : List GateWiring} {scan next : Scan} {index : Nat}
    (htopped : scan.levels.Topped)
    (hgates : scan.gates index gates = .ok next) : next.levels.Topped := by
  induction gates generalizing scan index with
  | nil =>
      cases hgates
      exact htopped
  | cons wiring rest ih =>
      obtain ⟨after, hgate, hrest⟩ := bind_eq_ok_iff.mp hgates
      obtain ⟨_, _, _, _, rfl⟩ := gate_eq_ok_iff.mp hgate
      exact ih (htopped.place _ _) hrest

/-! ## Chains -/

def Gate.Feeds (gate other : Gate) : Prop :=
  ∃ wire ∈ gate.outputs, wire ∈ other.inputs

namespace Circuit

/-- Gates of the circuit, each of which feeds the next, and the last one the
gate at the end. -/
structure ChainTo (circuit : Circuit) (chain : List Gate) (gate : Gate) :
    Prop where
  mem : ∀ feeder ∈ chain, feeder ∈ circuit.gates
  feeds : (chain ++ [gate]).IsChain Gate.Feeds

variable {circuit : Circuit} {chain : List Gate} {gate feeder : Gate}

theorem chainTo_nil : circuit.ChainTo [] gate :=
  ⟨by simp, List.IsChain.singleton gate⟩

theorem chainTo_append_singleton_iff :
    circuit.ChainTo (chain ++ [feeder]) gate ↔
      circuit.ChainTo chain feeder ∧ feeder ∈ circuit.gates ∧
        feeder.Feeds gate := by
  have hfeeds : (chain ++ [feeder] ++ [gate]).IsChain Gate.Feeds ↔
      (chain ++ [feeder]).IsChain Gate.Feeds ∧ feeder.Feeds gate := by
    rw [List.isChain_append]
    simp
  constructor
  · intro hchain
    obtain ⟨hfirst, hlast⟩ := hfeeds.mp hchain.feeds
    have hmem := List.forall_mem_append.mp hchain.mem
    exact ⟨⟨hmem.1, hfirst⟩, hmem.2 feeder (List.mem_singleton_self _), hlast⟩
  · intro hparts
    obtain ⟨hchain, hfeeder, hlast⟩ := hparts
    constructor
    · rw [List.forall_mem_append, List.forall_mem_singleton]
      exact ⟨hchain.mem, hfeeder⟩
    · exact hfeeds.mpr ⟨hchain.feeds, hlast⟩

section

variable {depth : WireId → Nat}
  (hscheduled : Scheduled circuit.inputs
    (circuit.gates.map Gate.toGateWiring) circuit.outputs circuit.levels depth)

include hscheduled

theorem deepest_lt_of_feeds
    (hfeeder : feeder ∈ circuit.gates) (hfeeds : feeder.Feeds gate) :
    feeder.toGateWiring.deepest depth < gate.toGateWiring.deepest depth := by
  obtain ⟨wire, hdriven, hread⟩ := hfeeds
  have hwire := hscheduled.depth_of_mem_outputs hfeeder hdriven
  have hle : depth wire ≤ gate.toGateWiring.deepest depth :=
    GateWiring.le_deepest hread
  omega

/-- Every gate that is not on the first level is fed from the level before. -/
theorem exists_feeder
    (hgate : gate ∈ circuit.gates) {level : Nat}
    (hlevel : gate.toGateWiring.deepest depth = level + 1) :
    ∃ feeder ∈ circuit.gates, feeder.Feeds gate ∧
      feeder.toGateWiring.deepest depth = level := by
  have hdeep : gate.toGateWiring.deepest depth ≠ 0 := by omega
  obtain ⟨wire, hread, hwire⟩ := GateWiring.exists_deepest hdeep
  rcases mem_wires_iff.mp (mem_wires_of_mem_inputs hgate hread) with
    hinput | ⟨feeder, hfeeder, hdriven⟩
  · have hzero := hscheduled.deepens.input wire hinput
    omega
  · have hdepth := hscheduled.depth_of_mem_outputs hfeeder hdriven
    exact ⟨feeder, hfeeder, ⟨wire, hdriven, hread⟩, by omega⟩

theorem ChainTo.length_le (hchain : circuit.ChainTo chain gate) :
    chain.length ≤ gate.toGateWiring.deepest depth := by
  induction chain using List.reverseRecOn generalizing gate with
  | nil => exact Nat.zero_le _
  | append_singleton chain last ih =>
      obtain ⟨hbefore, hlast, hfeeds⟩ := chainTo_append_singleton_iff.mp hchain
      have hle := ih hbefore
      have hlt := deepest_lt_of_feeds hscheduled hlast hfeeds
      rw [List.length_append, List.length_singleton]
      omega

theorem exists_chainTo
    (hgate : gate ∈ circuit.gates) {level : Nat}
    (hlevel : gate.toGateWiring.deepest depth = level) :
    ∃ chain, circuit.ChainTo chain gate ∧ chain.length = level := by
  induction level generalizing gate with
  | zero => exact ⟨[], chainTo_nil, rfl⟩
  | succ level ih =>
      obtain ⟨feeder, hfeeder, hfeeds, hdeepest⟩ :=
        exists_feeder hscheduled hgate hlevel
      obtain ⟨chain, hchain, hlength⟩ := ih hfeeder hdeepest
      refine ⟨chain ++ [feeder], ?_, ?_⟩
      · exact chainTo_append_singleton_iff.mpr ⟨hchain, hfeeder, hfeeds⟩
      · rw [List.length_append, List.length_singleton, hlength]

theorem isGreatest_deepest (hgate : gate ∈ circuit.gates) :
    IsGreatest {n | ∃ chain, circuit.ChainTo chain gate ∧ chain.length = n}
      (gate.toGateWiring.deepest depth) := by
  constructor
  · exact exists_chainTo hscheduled hgate rfl
  · intro n hn
    obtain ⟨chain, hchain, hlength⟩ := hn
    rw [← hlength]
    exact hchain.length_le hscheduled

theorem exists_gate_of_le_deepest
    (hgate : gate ∈ circuit.gates) {level : Nat}
    (hlevel : level ≤ gate.toGateWiring.deepest depth) :
    ∃ other ∈ circuit.gates, other.toGateWiring.deepest depth = level := by
  induction hlevel using Nat.decreasingInduction with
  | self => exact ⟨gate, hgate, rfl⟩
  | of_succ level _ ih =>
      obtain ⟨other, hother, hdeepest⟩ := ih
      obtain ⟨feeder, hfeeder, _, hlast⟩ :=
        exists_feeder hscheduled hother hdeepest
      exact ⟨feeder, hfeeder, hlast⟩

end

/-! ## The one tight schedule -/

theorem topped_levels (circuit : Circuit) : circuit.levels.Topped := by
  obtain ⟨_, scan, hgates, _, hlevels⟩ :=
    schedule_eq_ok_iff.mp circuit.scheduled
  rw [← hlevels]
  exact Scan.topped_of_gates (by simp [Levels.Topped]) hgates

def InLevel (circuit : Circuit) (levels : Levels) (level : Nat)
    (gate : Gate) : Prop :=
  ∃ index ∈ levels.getD level [], circuit.gates[index]? = some gate

/-- The levels hold every gate once, each as early as its inputs allow. -/
structure TightSchedule (circuit : Circuit) (levels : Levels) : Prop where
  perm_range : levels.flatten.Perm (List.range circuit.gates.length)
  ne_nil : ∀ level ∈ levels, level ≠ []
  increasing : ∀ level ∈ levels, level.Pairwise (· < ·)
  reads : ∀ (level : Nat) (gate : Gate), circuit.InLevel levels level gate →
    ∀ wire ∈ gate.inputs, wire ∈ circuit.inputs ∨
      ∃ earlier < level, ∃ feeder, circuit.InLevel levels earlier feeder ∧
        wire ∈ feeder.outputs
  longest : ∀ (level : Nat) (gate : Gate),
    circuit.InLevel levels level gate →
      IsGreatest {n | ∃ chain, circuit.ChainTo chain gate ∧ chain.length = n}
        level
  fed : ∀ (level : Nat) (gate : Gate),
    circuit.InLevel levels (level + 1) gate →
      ∃ feeder, circuit.InLevel levels level feeder ∧ feeder.Feeds gate

section

variable {depth : WireId → Nat}
  (hscheduled : Scheduled circuit.inputs
    (circuit.gates.map Gate.toGateWiring) circuit.outputs circuit.levels depth)

include hscheduled

theorem mem_getD_levels_iff {level index : Nat} :
    index ∈ circuit.levels.getD level [] ↔
      ∃ gate, circuit.gates[index]? = some gate ∧
        gate.toGateWiring.deepest depth = level := by
  rw [hscheduled.levels_eq, mem_levelIndices]
  simp only [List.getElem?_map, Option.map_eq_some_iff]
  constructor
  · intro hindex
    obtain ⟨_, ⟨gate, hgate, rfl⟩, hdeepest⟩ := hindex
    exact ⟨gate, hgate, hdeepest⟩
  · intro hindex
    obtain ⟨gate, hgate, hdeepest⟩ := hindex
    exact ⟨gate.toGateWiring, ⟨gate, hgate, rfl⟩, hdeepest⟩

theorem inLevel_levels_iff {level : Nat} :
    circuit.InLevel circuit.levels level gate ↔
      gate ∈ circuit.gates ∧ gate.toGateWiring.deepest depth = level := by
  simp only [InLevel, mem_getD_levels_iff hscheduled]
  constructor
  · intro hlevel
    obtain ⟨index, ⟨other, hother, hdeepest⟩, hgate⟩ := hlevel
    rw [hgate, Option.some.injEq] at hother
    subst hother
    exact ⟨List.mem_of_getElem? hgate, hdeepest⟩
  · intro hlevel
    obtain ⟨hmem, hdeepest⟩ := hlevel
    obtain ⟨index, hgate⟩ := List.getElem?_of_mem hmem
    exact ⟨index, ⟨gate, hgate, hdeepest⟩, hgate⟩

theorem getD_levels_ne_nil {level : Nat}
    (hlevel : level < circuit.levels.length) :
    circuit.levels.getD level [] ≠ [] := by
  obtain ⟨later, hle, hnonempty⟩ := circuit.topped_levels level hlevel
  obtain ⟨index, hindex⟩ := List.exists_mem_of_ne_nil _ hnonempty
  obtain ⟨gate, hgate, hdeepest⟩ := (mem_getD_levels_iff hscheduled).mp hindex
  obtain ⟨other, hother, hlast⟩ := exists_gate_of_le_deepest hscheduled
    (List.mem_of_getElem? hgate) (hle.trans hdeepest.ge)
  obtain ⟨number, hnumber⟩ := List.getElem?_of_mem hother
  exact List.ne_nil_of_mem
    ((mem_getD_levels_iff hscheduled).mpr ⟨other, hnumber, hlast⟩)

end

theorem pairwise_of_mem_levels
    (circuit : Circuit) {level : List Nat} (hlevel : level ∈ circuit.levels) :
    level.Pairwise (· < ·) := by
  obtain ⟨depth, hscheduled⟩ := circuit.exists_scheduled
  obtain ⟨number, hnumber⟩ := List.getElem?_of_mem hlevel
  rw [hscheduled.eq_levelIndices hnumber]
  exact pairwise_levelIndices ..

theorem perm_flatten_levels (circuit : Circuit) :
    circuit.levels.flatten.Perm (List.range circuit.gates.length) := by
  obtain ⟨depth, hscheduled⟩ := circuit.exists_scheduled
  have hnodup : circuit.levels.flatten.Nodup := by
    rw [List.nodup_flatten]
    constructor
    · intro level hlevel
      exact (circuit.pairwise_of_mem_levels hlevel).nodup
    · rw [List.pairwise_iff_getElem]
      intro earlier later hearlier hlater hlt index hindex hother
      -- A gate stands in the level of its depth and in no other.
      rw [← List.getD_eq_getElem _ [] hearlier, mem_getD_levels_iff hscheduled]
        at hindex
      rw [← List.getD_eq_getElem _ [] hlater, mem_getD_levels_iff hscheduled]
        at hother
      obtain ⟨gate, hgate, hdepth⟩ := hindex
      obtain ⟨same, hsame, hdeeper⟩ := hother
      rw [hgate, Option.some.injEq] at hsame
      subst hsame
      omega
  rw [List.perm_ext_iff_of_nodup hnodup List.nodup_range]
  intro index
  simp only [Levels.mem_flatten_iff, mem_getD_levels_iff hscheduled,
    List.mem_range]
  constructor
  · intro hindex
    obtain ⟨_, gate, hgate, _⟩ := hindex
    exact (List.getElem?_eq_some_iff.mp hgate).1
  · intro hindex
    exact ⟨_, _, List.getElem?_eq_getElem hindex, rfl⟩

theorem tightSchedule_levels (circuit : Circuit) :
    circuit.TightSchedule circuit.levels := by
  obtain ⟨depth, hscheduled⟩ := circuit.exists_scheduled
  have hiff : ∀ {level : Nat} {gate : Gate},
      circuit.InLevel circuit.levels level gate ↔
        gate ∈ circuit.gates ∧ gate.toGateWiring.deepest depth = level :=
    inLevel_levels_iff hscheduled
  constructor
  · exact circuit.perm_flatten_levels
  · intro level hlevel
    obtain ⟨number, hlt, rfl⟩ := List.mem_iff_getElem.mp hlevel
    have hnonempty := getD_levels_ne_nil hscheduled hlt
    rwa [List.getD_eq_getElem _ _ hlt] at hnonempty
  · intro level hlevel
    exact circuit.pairwise_of_mem_levels hlevel
  · intro level gate hgate wire hread
    obtain ⟨hmem, hdeepest⟩ := hiff.mp hgate
    rcases mem_wires_iff.mp (mem_wires_of_mem_inputs hmem hread) with
      hinput | ⟨feeder, hfeeder, hdriven⟩
    · exact Or.inl hinput
    · have hlt := deepest_lt_of_feeds hscheduled hfeeder ⟨wire, hdriven, hread⟩
      exact Or.inr ⟨_, hdeepest ▸ hlt, feeder, hiff.mpr ⟨hfeeder, rfl⟩,
        hdriven⟩
  · intro level gate hgate
    obtain ⟨hmem, hdeepest⟩ := hiff.mp hgate
    rw [← hdeepest]
    exact isGreatest_deepest hscheduled hmem
  · intro level gate hgate
    obtain ⟨hmem, hdeepest⟩ := hiff.mp hgate
    obtain ⟨feeder, hfeeder, hfeeds, hlast⟩ :=
      exists_feeder hscheduled hmem hdeepest
    exact ⟨feeder, hiff.mpr ⟨hfeeder, hlast⟩, hfeeds⟩

/-- A tight schedule puts every gate into the level of its longest chain. -/
theorem TightSchedule.mem_getD_iff
    {levels : Levels} (htight : circuit.TightSchedule levels)
    {level index : Nat} :
    index ∈ levels.getD level [] ↔
      ∃ gate, circuit.gates[index]? = some gate ∧
        IsGreatest {n | ∃ chain, circuit.ChainTo chain gate ∧
          chain.length = n} level := by
  have hgate : ∀ {level : Nat}, index ∈ levels.getD level [] →
      ∃ gate, circuit.gates[index]? = some gate := by
    intro level hindex
    have hmem := htight.perm_range.mem_iff.mp
      (Levels.mem_flatten_iff.mpr ⟨level, hindex⟩)
    exact ⟨_, List.getElem?_eq_getElem (List.mem_range.mp hmem)⟩
  constructor
  · intro hindex
    obtain ⟨gate, hgate⟩ := hgate hindex
    exact ⟨gate, hgate, htight.longest level gate ⟨index, hindex, hgate⟩⟩
  · intro hlongest
    obtain ⟨gate, hgate, hlevel⟩ := hlongest
    obtain ⟨hlt, _⟩ := List.getElem?_eq_some_iff.mp hgate
    have hmem := htight.perm_range.mem_iff.mpr (List.mem_range.mpr hlt)
    obtain ⟨other, hother⟩ := Levels.mem_flatten_iff.mp hmem
    have hsame := htight.longest other gate ⟨index, hother, hgate⟩
    rwa [hlevel.unique hsame]

/-- The levels of a circuit are its one tight schedule. -/
theorem levels_tight_and_unique (circuit : Circuit) :
    circuit.TightSchedule circuit.levels ∧
      ∀ levels, circuit.TightSchedule levels → levels = circuit.levels := by
  have hlevels := circuit.tightSchedule_levels
  refine ⟨hlevels, ?_⟩
  intro levels htight
  have hincreasing : ∀ {levels : Levels}, circuit.TightSchedule levels →
      ∀ level, (levels.getD level []).Pairwise (· < ·) := by
    intro levels htight level
    by_cases hlt : level < levels.length
    · rw [List.getD_eq_getElem _ _ hlt]
      exact htight.increasing _ (List.getElem_mem hlt)
    · rw [List.getD_eq_default _ _ (by omega)]
      exact List.Pairwise.nil
  apply Levels.eq_of_getD htight.ne_nil hlevels.ne_nil
  intro level
  apply (hincreasing htight level).eq_of_mem_iff (hincreasing hlevels level)
  intro index
  rw [htight.mem_getD_iff, hlevels.mem_getD_iff]

theorem levels_tight_and_unique_fork :
    fork.TightSchedule [[0, 2], [1]] ∧
      ∀ levels, fork.TightSchedule levels → levels = [[0, 2], [1]] :=
  levels_tight_and_unique fork

end Circuit

end GarbledCircuits
