import GarbledCircuits.Proofs.Circuit.Chains
import GarbledCircuits.Proofs.Circuit.Violations

/-!
# Gates in another order

Two circuits with the same gates may have them in different orders, as long as
no gate reads a wire before it is driven.  What the wires carry and which gate
feeds which is said without the order, so both circuits compute the same bits,
refuse the same bits for the same cause, and put every gate into the same
level.
-/

namespace GarbledCircuits

open Outcome

namespace Circuit

section

variable {circuit other : Circuit} (hperm : circuit.gates.Perm other.gates)

include hperm

theorem computes_iff_of_perm {value : WireId → Bool} :
    circuit.Computes value ↔ other.Computes value := by
  unfold Computes
  simp only [hperm.mem_iff]

theorem chainTo_iff_of_perm {chain : List Gate} {gate : Gate} :
    circuit.ChainTo chain gate ↔ other.ChainTo chain gate := by
  constructor
  · intro hchain
    exact ⟨fun feeder hfeeder => hperm.mem_iff.mp (hchain.mem feeder hfeeder),
      hchain.feeds⟩
  · intro hchain
    exact ⟨fun feeder hfeeder => hperm.mem_iff.mpr (hchain.mem feeder hfeeder),
      hchain.feeds⟩

theorem compute_eq_of_perm
    (hinputs : circuit.partyInputs = other.partyInputs)
    (houtputs : circuit.outputs = other.outputs) (bits : List (List Bool)) :
    circuit.compute bits = other.compute bits := by
  by_cases hfits : circuit.Fits bits
  · have hother : other.Fits bits := by
      unfold Fits at hfits ⊢
      rwa [← hinputs]
    obtain ⟨results, hcompute⟩ := exists_compute_eq_ok hfits
    rw [hcompute]
    rw [compute_eq_ok_iff hfits] at hcompute
    obtain ⟨value, hcarries, hcomputes, hresults⟩ := hcompute
    symm
    rw [compute_eq_ok_iff hother]
    refine ⟨value, ?_, (computes_iff_of_perm hperm).mp hcomputes, ?_⟩
    · unfold Carries at hcarries ⊢
      rwa [← hinputs]
    · rwa [← houtputs]
  · apply compute_eq_of_not_fits _ hfits
    rw [← hinputs, List.forall₂_same]
    intro wires _
    rfl

end

/-- A gate stands in the level of its longest chain and in no other. -/
theorem inLevel_levels_iff_isGreatest
    {circuit : Circuit} {level : Nat} {gate : Gate} :
    circuit.InLevel circuit.levels level gate ↔
      gate ∈ circuit.gates ∧
        IsGreatest {n | ∃ chain, circuit.ChainTo chain gate ∧
          chain.length = n} level := by
  obtain ⟨depth, hscheduled⟩ := circuit.exists_scheduled
  rw [inLevel_levels_iff hscheduled]
  apply and_congr_right
  intro hgate
  have hdeepest := isGreatest_deepest hscheduled hgate
  constructor
  · intro hlevel
    rwa [hlevel] at hdeepest
  · intro hlevel
    exact hdeepest.unique hlevel

theorem inLevel_iff_of_perm
    {circuit other : Circuit} (hperm : circuit.gates.Perm other.gates)
    {level : Nat} {gate : Gate} :
    circuit.InLevel circuit.levels level gate ↔
      other.InLevel other.levels level gate := by
  simp only [inLevel_levels_iff_isGreatest, hperm.mem_iff,
    chainTo_iff_of_perm hperm]

theorem exists_level_of_mem
    {circuit : Circuit} {gate : Gate} (hgate : gate ∈ circuit.gates) :
    ∃ level, ∀ other, circuit.InLevel circuit.levels other gate ↔
      other = level := by
  obtain ⟨depth, hscheduled⟩ := circuit.exists_scheduled
  refine ⟨gate.toGateWiring.deepest depth, ?_⟩
  intro other
  rw [inLevel_levels_iff hscheduled, and_iff_right hgate, eq_comm]

theorem eq_of_number_eq
    {circuit : Circuit} {gate other : Gate} (hgate : gate ∈ circuit.gates)
    (hother : other ∈ circuit.gates) (hnumber : gate.number = other.number) :
    gate = other := by
  have hnumbers := circuit.wired.nodup_numbers
  rw [List.map_map] at hnumbers
  exact List.inj_on_of_nodup_map hnumbers hgate hother hnumber

/-- Of gates that can be wired up in two orders, either order computes the same
results and puts the gate of a number into the same one level. -/
theorem order_of_gates_immaterial
    {partyInputs : List (List WireId)} {gates reordered : List Gate}
    {outputs : List WireId} {circuit other : Circuit}
    (hperm : gates.Perm reordered)
    (hcircuit : build partyInputs gates outputs = .ok circuit)
    (hother : build partyInputs reordered outputs = .ok other) :
    (∀ bits, circuit.compute bits = other.compute bits) ∧
      ∀ gate ∈ gates, ∀ same ∈ reordered, gate.number = same.number →
        ∃ level,
          (∀ number, circuit.InLevel circuit.levels number gate ↔
            number = level) ∧
          ∀ number, other.InLevel other.levels number same ↔
            number = level := by
  obtain ⟨hinputs, hgates, houtputs⟩ := build_eq_ok_iff.mp hcircuit
  obtain ⟨hotherInputs, hotherGates, hotherOutputs⟩ :=
    build_eq_ok_iff.mp hother
  have hperm : circuit.gates.Perm other.gates := by
    rwa [hgates, hotherGates]
  constructor
  · intro bits
    exact compute_eq_of_perm hperm (hinputs.trans hotherInputs.symm)
      (houtputs.trans hotherOutputs.symm) bits
  · intro gate hgate same hsame hnumber
    rw [← hgates] at hgate
    rw [← hotherGates, ← hperm.mem_iff] at hsame
    have heq := eq_of_number_eq hgate hsame hnumber
    subst heq
    obtain ⟨level, hlevel⟩ := exists_level_of_mem hgate
    refine ⟨level, hlevel, ?_⟩
    intro number
    rw [← inLevel_iff_of_perm hperm, hlevel]

/-- The fork with its last gate first. -/
def forkReordered : Circuit where
  partyInputs := [[0]]
  gates := [.inverterFrom 2 0 3, .inverterFrom 0 0 1, .inverterFrom 1 1 2]
  outputs := [2, 3]
  levels := [[0, 1], [2]]
  scheduled := by decide +kernel

theorem order_of_gates_immaterial_fork :
    fork.gates.Perm forkReordered.gates ∧
      build [[0]] fork.gates [2, 3] = .ok fork ∧
      build [[0]] forkReordered.gates [2, 3] = .ok forkReordered ∧
      (∀ bits, fork.compute bits = forkReordered.compute bits) ∧
      ∀ level, forkReordered.InLevel forkReordered.levels level
        (.inverterFrom 1 1 2) ↔ level = 1 := by
  have hperm : fork.gates.Perm forkReordered.gates := by decide
  have hfork : build [[0]] fork.gates [2, 3] = .ok fork :=
    build_eq_ok_iff.mpr ⟨rfl, rfl, rfl⟩
  have hreordered : build [[0]] forkReordered.gates [2, 3] =
      .ok forkReordered :=
    build_eq_ok_iff.mpr ⟨rfl, rfl, rfl⟩
  obtain ⟨hcompute, hlevels⟩ :=
    order_of_gates_immaterial hperm hfork hreordered
  refine ⟨hperm, hfork, hreordered, hcompute, ?_⟩
  obtain ⟨level, hfirst, hsecond⟩ := hlevels (.inverterFrom 1 1 2)
    (by decide) (.inverterFrom 1 1 2) (by decide) rfl
  have hone : fork.InLevel fork.levels 1 (.inverterFrom 1 1 2) :=
    ⟨1, by decide, rfl⟩
  rw [hfirst] at hone
  rwa [hone]

end Circuit

end GarbledCircuits
