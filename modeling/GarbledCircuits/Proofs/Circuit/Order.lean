import GarbledCircuits.Proofs.Circuit.Computation
import Mathlib.Data.Prod.Lex

/-!
# The order of gates by levels

Going through the levels one after the other meets every gate once, ordered by
level and, within a level, by index.  The first gate with some property is the
one with the least level and index among those that have it.
-/

namespace GarbledCircuits

open Outcome

/-- In a sorted list, the first entry with a property is the least one. -/
theorem find?_eq_some_iff_of_pairwise
    [LinearOrder κ] {key : α → κ} {xs : List α}
    (hsorted : xs.Pairwise fun x y => key x < key y) {p : α → Bool} {x : α} :
    xs.find? p = some x ↔
      x ∈ xs ∧ p x = true ∧ ∀ y ∈ xs, p y = true → key x ≤ key y := by
  have hfirst : ∀ {x : α}, xs.find? p = some x →
      p x = true ∧ ∀ y ∈ xs, p y = true → y = x ∨ key x < key y := by
    intro x hfind
    obtain ⟨hx, before, after, rfl, hbefore⟩ :=
      List.find?_eq_some_iff_append.mp hfind
    refine ⟨hx, ?_⟩
    intro y hy hpy
    obtain ⟨_, hafter, _⟩ := List.pairwise_append.mp hsorted
    rcases List.mem_append.mp hy with hearlier | hlater
    · have hnot := hbefore y hearlier
      rw [hpy] at hnot
      cases hnot
    · rcases List.mem_cons.mp hlater with rfl | hmem
      · exact Or.inl rfl
      · exact Or.inr ((List.pairwise_cons.mp hafter).1 y hmem)
  constructor
  · intro hfind
    obtain ⟨hx, hleast⟩ := hfirst hfind
    refine ⟨List.mem_of_find?_eq_some hfind, hx, ?_⟩
    intro y hy hpy
    rcases hleast y hy hpy with rfl | hlt
    · exact le_rfl
    · exact hlt.le
  · rintro ⟨hmem, hx, hleast⟩
    cases hfind : xs.find? p with
    | none =>
        exact absurd hx (List.find?_eq_none.mp hfind x hmem)
    | some found =>
        obtain ⟨hfound, hothers⟩ := hfirst hfind
        rcases hothers x hmem hx with rfl | hlt
        · rfl
        · have hle := hleast found (List.mem_of_find?_eq_some hfind) hfound
          exact absurd hlt (not_lt.mpr hle)

theorem pairwise_levelIndices
    (gates : List GateWiring) (depth : WireId → Nat) (level : Nat) :
    (levelIndices gates depth level).Pairwise (· < ·) := by
  have hall : (gates.zipIdx.map Prod.snd).Pairwise (· < ·) := by
    rw [List.zipIdx_map_snd]
    exact List.pairwise_lt_range'
  exact hall.sublist (List.filter_sublist.map Prod.snd)

namespace Circuit

/-- A gate stands, with its index, in a level. -/
def ScheduledAt (circuit : Circuit) (level index : Nat) (gate : Gate) :
    Prop :=
  circuit.gates[index]? = some gate ∧
    ∃ indices, circuit.levels[level]? = some indices ∧ index ∈ indices

variable {circuit : Circuit}

theorem exists_gate_of_mem_levels
    (circuit : Circuit) {level : List Nat} (hlevel : level ∈ circuit.levels)
    {index : Nat} (hindex : index ∈ level) :
    ∃ gate, circuit.gates[index]? = some gate := by
  obtain ⟨depth, hscheduled⟩ := circuit.exists_scheduled
  obtain ⟨number, hnumber⟩ := List.getElem?_of_mem hlevel
  rw [hscheduled.eq_levelIndices hnumber, mem_levelIndices] at hindex
  obtain ⟨wiring, hwiring, _⟩ := hindex
  rw [List.getElem?_map, Option.map_eq_some_iff] at hwiring
  obtain ⟨gate, hgate, _⟩ := hwiring
  exact ⟨gate, hgate⟩

section

variable {depth : WireId → Nat}
  (hscheduled : Scheduled circuit.inputs
    (circuit.gates.map Gate.toGateWiring) circuit.outputs circuit.levels depth)

include hscheduled

theorem scheduledAt_iff {level index : Nat} {gate : Gate} :
    circuit.ScheduledAt level index gate ↔
      circuit.gates[index]? = some gate ∧
        gate.toGateWiring.deepest depth = level := by
  constructor
  · rintro ⟨hgate, indices, hindices, hindex⟩
    exact (hscheduled.mem_gatesAt_iff hindices).mp
      (mem_gatesAt.mpr ⟨hindex, hgate⟩)
  · rintro ⟨hgate, rfl⟩
    have hlt := hscheduled.deepest_lt_length (List.mem_of_getElem? hgate)
    have hindices := List.getElem?_eq_getElem hlt
    have hentry := (hscheduled.mem_gatesAt_iff hindices).mpr ⟨hgate, rfl⟩
    exact ⟨hgate, _, hindices, (mem_gatesAt.mp hentry).1⟩

theorem pairwise_flatMap_gatesAt :
    (circuit.levels.flatMap (gatesAt circuit.gates)).Pairwise
      fun entry other =>
        toLex (entry.2.toGateWiring.deepest depth, entry.1) <
          toLex (other.2.toGateWiring.deepest depth, other.1) := by
  rw [List.pairwise_flatMap]
  constructor
  · -- Within a level all depths are equal, and the indices increase.
    intro indices hmem
    obtain ⟨level, hlevel⟩ := List.getElem?_of_mem hmem
    have hsorted := pairwise_levelIndices
      (circuit.gates.map Gate.toGateWiring) depth level
    rw [← hscheduled.eq_levelIndices hlevel] at hsorted
    have hindexed : (gatesAt circuit.gates indices).Pairwise
        fun entry other => entry.1 < other.1 := by
      rw [gatesAt, List.pairwise_filterMap]
      apply hsorted.imp
      intro index other hlt entry hentry rival hrival
      obtain ⟨_, _, rfl⟩ := Option.map_eq_some_iff.mp hentry
      obtain ⟨_, _, rfl⟩ := Option.map_eq_some_iff.mp hrival
      exact hlt
    apply hindexed.imp_of_mem
    rintro ⟨index, gate⟩ ⟨other, rival⟩ hentry hother hlt
    rw [hscheduled.mem_gatesAt_iff hlevel] at hentry hother
    rw [Prod.Lex.toLex_lt_toLex]
    exact Or.inr ⟨hentry.2.trans hother.2.symm, hlt⟩
  · -- Between levels the depth decides.
    rw [List.pairwise_iff_getElem]
    rintro earlier later hearlier hlater hlt ⟨index, gate⟩ hentry
      ⟨other, rival⟩ hother
    rw [hscheduled.mem_gatesAt_iff (List.getElem?_eq_getElem hearlier)]
      at hentry
    rw [hscheduled.mem_gatesAt_iff (List.getElem?_eq_getElem hlater)] at hother
    have hless : gate.toGateWiring.deepest depth <
        rival.toGateWiring.deepest depth := by omega
    rw [Prod.Lex.toLex_lt_toLex]
    exact Or.inl hless

end

theorem mem_flatMap_gatesAt {index : Nat} {gate : Gate} :
    (index, gate) ∈ circuit.levels.flatMap (gatesAt circuit.gates) ↔
      circuit.gates[index]? = some gate := by
  obtain ⟨depth, hscheduled⟩ := circuit.exists_scheduled
  exact hscheduled.mem_flatMap_gatesAt_iff

/-- Of the gates that have a property at their indices, the one in the least
level and there with the least index. -/
structure FirstOf (circuit : Circuit) (p : Nat → Gate → Prop)
    (level index : Nat) (gate : Gate) : Prop where
  scheduled : circuit.ScheduledAt level index gate
  holds : p index gate
  first : ∀ (otherLevel otherIndex : Nat) (other : Gate),
    circuit.ScheduledAt otherLevel otherIndex other → p otherIndex other →
      level < otherLevel ∨ level = otherLevel ∧ index ≤ otherIndex

theorem find?_flatMap_gatesAt_eq_some_iff
    {p : Nat → Gate → Prop} [∀ index, DecidablePred (p index)] {index : Nat}
    {gate : Gate} :
    ((circuit.levels.flatMap (gatesAt circuit.gates)).find?
        fun entry => decide (p entry.1 entry.2)) = some (index, gate) ↔
      ∃ level, circuit.FirstOf p level index gate := by
  obtain ⟨depth, hscheduled⟩ := circuit.exists_scheduled
  rw [find?_eq_some_iff_of_pairwise (pairwise_flatMap_gatesAt hscheduled)]
  simp only [mem_flatMap_gatesAt, Prod.forall, decide_eq_true_eq,
    Prod.Lex.toLex_le_toLex]
  constructor
  · rintro ⟨hgate, hholds, hleast⟩
    refine ⟨_, (scheduledAt_iff hscheduled).mpr ⟨hgate, rfl⟩, hholds, ?_⟩
    intro otherLevel otherIndex other hother hp
    obtain ⟨hin, rfl⟩ := (scheduledAt_iff hscheduled).mp hother
    exact hleast otherIndex other hin hp
  · rintro ⟨level, hat, hholds, hfirst⟩
    obtain ⟨hgate, rfl⟩ := (scheduledAt_iff hscheduled).mp hat
    refine ⟨hgate, hholds, ?_⟩
    intro otherIndex other hin hp
    exact hfirst _ otherIndex other
      ((scheduledAt_iff hscheduled).mpr ⟨hin, rfl⟩) hp

/-- If every gate with a property has a fault, the first fault is that of the
first such gate. -/
theorem head?_faults_eq_some_iff
    {p : Nat → Gate → Prop} [∀ index, DecidablePred (p index)]
    {f : Nat × Gate → ε} {cause : ε} :
    ((circuit.levels.flatMap (gatesAt circuit.gates)).flatMap fun entry =>
        if p entry.1 entry.2 then [f entry] else []).head? = some cause ↔
      ∃ level index gate, circuit.FirstOf p level index gate ∧
        cause = f (index, gate) := by
  rw [head?_flatMap_ite, Option.map_eq_some_iff]
  constructor
  · rintro ⟨⟨index, gate⟩, hfind, rfl⟩
    obtain ⟨level, hfirst⟩ := find?_flatMap_gatesAt_eq_some_iff.mp hfind
    exact ⟨level, index, gate, hfirst, rfl⟩
  · rintro ⟨level, index, gate, hfirst, rfl⟩
    exact ⟨(index, gate),
      find?_flatMap_gatesAt_eq_some_iff.mpr ⟨level, hfirst⟩, rfl⟩

end Circuit

end GarbledCircuits
