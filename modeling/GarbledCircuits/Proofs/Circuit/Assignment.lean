import GarbledCircuits.Circuit.Basic
import GarbledCircuits.Proofs.Outcome
import Mathlib.Tactic

/-!
# Values of wires

Wires are given values one by one or in groups of one value.  A wire that is
not named keeps its value, and where no wire is named twice with different
values the order does not matter.
-/

namespace GarbledCircuits

open Outcome

variable {values : WireMap α} {wire : WireId} {wires : List WireId}

theorem valueAt_eq_ok_iff {value : α} :
    valueAt values wire = .ok value ↔ values[wire]? = some value := by
  unfold valueAt
  split <;> simp_all

theorem mapM_valueAt_eq_ok
    {v : WireId → α} (hvalues : ∀ wire ∈ wires, values[wire]? = some (v wire)) :
    wires.mapM (valueAt values) = .ok (wires.map v) := by
  apply mapM_eq_ok_map
  intro wire hwire
  exact valueAt_eq_ok_iff.mpr (hvalues wire hwire)

theorem mem_iff_exists_getElem? :
    wire ∈ values ↔ ∃ value, values[wire]? = some value := by
  rw [Std.ExtTreeMap.mem_iff_isSome_getElem?, Option.isSome_iff_exists]

theorem mem_of_getElem? {value : α} (hvalue : values[wire]? = some value) :
    wire ∈ values :=
  mem_iff_exists_getElem?.mpr ⟨value, hvalue⟩

theorem notMem_iff_getElem? : wire ∉ values ↔ values[wire]? = none := by
  rw [Std.ExtTreeMap.mem_iff_isSome_getElem?, Option.not_isSome_iff_eq_none]

def valueOf [Inhabited α] (values : WireMap α) (wire : WireId) : α :=
  values[wire]?.getD default

theorem getElem?_eq_some_valueOf
    [Inhabited α] {values : WireMap α} {wire : WireId}
    (hwire : wire ∈ values) :
    values[wire]? = some (valueOf values wire) := by
  obtain ⟨value, hvalue⟩ := mem_iff_exists_getElem?.mp hwire
  rw [valueOf, hvalue, Option.getD_some]

theorem map_valueOf_of_mapM_valueAt
    [Inhabited α] {results : List α}
    (hread : wires.mapM (valueAt values) = .ok results) :
    wires.map (valueOf values) = results := by
  rw [← List.forall₂_eq_eq_eq, List.forall₂_map_left_iff]
  apply (mapM_eq_ok_iff.mp hread).imp
  intro wire value hvalue
  rw [valueOf, valueAt_eq_ok_iff.mp hvalue, Option.getD_some]

/-- Wires are read, each with its value, exactly if all have one. -/
theorem mapM_wireValue_eq_ok_iff
    [Inhabited α] {entries : List (WireId × α)} :
    (wires.mapM fun wire => do
        let value ← valueAt values wire
        return (wire, value)) = .ok entries ↔
      (∀ wire ∈ wires, wire ∈ values) ∧
        wires.map (fun wire => (wire, valueOf values wire)) = entries := by
  have hread : ∀ wire ∈ values, (do
      let value ← valueAt values wire
      return (wire, value)) =
        (.ok (wire, valueOf values wire) :
          Except CircuitError (WireId × α)) := by
    intro wire hwire
    rw [valueAt_eq_ok_iff.mpr (getElem?_eq_some_valueOf hwire)]
    rfl
  constructor
  · intro hmap
    have hmem : ∀ wire ∈ wires, wire ∈ values := by
      intro wire hwire
      obtain ⟨entry, hentry, _⟩ := exists_of_mem_of_mapM hmap hwire
      obtain ⟨value, hvalue, _⟩ := bind_eq_ok_iff.mp hentry
      exact mem_of_getElem? (valueAt_eq_ok_iff.mp hvalue)
    rw [mapM_eq_ok_map fun wire hwire => hread wire (hmem wire hwire),
      Except.ok.injEq] at hmap
    exact ⟨hmem, hmap⟩
  · rintro ⟨hmem, rfl⟩
    exact mapM_eq_ok_map fun wire hwire => hread wire (hmem wire hwire)

/-! ## Groups of one value -/

theorem mem_insert_wire {value : α} {other : WireId} :
    other ∈ values.insert wire value ↔ wire = other ∨ other ∈ values := by
  simp [Std.ExtTreeMap.mem_insert]

theorem getElem?_insert_wire (value : α) (other : WireId) :
    (values.insert wire value)[other]? =
      if wire = other then some value else values[other]? := by
  simp [Std.ExtTreeMap.getElem?_insert]

theorem getElem?_assignAll (value : α) (wire : WireId) :
    (assignAll values wires value)[wire]? =
      if wire ∈ wires then some value else values[wire]? := by
  induction wires generalizing values with
  | nil => simp [assignAll]
  | cons first rest ih =>
      have hrest := @ih (values.insert first value)
      unfold assignAll at hrest ⊢
      rw [List.foldl_cons, hrest, getElem?_insert_wire]
      by_cases hfirst : first = wire <;> by_cases hmem : wire ∈ rest <;>
        simp [hfirst, hmem, Ne.symm]

section

variable {entries : List δ} {group : δ → List WireId} {value : δ → α}

theorem getElem?_foldl_assignAll_of_forall_notMem
    (hentries : ∀ entry ∈ entries, wire ∉ group entry) :
    (entries.foldl (fun values entry =>
      assignAll values (group entry) (value entry)) values)[wire]? =
      values[wire]? := by
  induction entries generalizing values with
  | nil => rfl
  | cons entry entries ih =>
      rw [List.foldl_cons, ih (fun other hother =>
        hentries other (List.mem_cons_of_mem _ hother)), getElem?_assignAll,
        if_neg (hentries entry (List.mem_cons_self ..))]

/-- A wire in groups of only one value gets that value. -/
theorem getElem?_foldl_assignAll_of_mem
    {result : α} (hmem : ∃ entry ∈ entries, wire ∈ group entry)
    (hsame : ∀ entry ∈ entries, wire ∈ group entry → value entry = result) :
    (entries.foldl (fun values entry =>
      assignAll values (group entry) (value entry)) values)[wire]? =
      some result := by
  induction entries generalizing values with
  | nil => simp at hmem
  | cons first rest ih =>
      rw [List.foldl_cons]
      by_cases hlater : ∃ entry ∈ rest, wire ∈ group entry
      · apply ih hlater
        intro entry hentry
        exact hsame entry (List.mem_cons_of_mem _ hentry)
      · -- No later group holds the wire, so the first one does.
        have hfirst : wire ∈ group first := by
          obtain ⟨entry, hentry, hwire⟩ := hmem
          rcases List.mem_cons.mp hentry with rfl | hin
          · exact hwire
          · exact absurd ⟨entry, hin, hwire⟩ hlater
        push Not at hlater
        rw [getElem?_foldl_assignAll_of_forall_notMem hlater,
          getElem?_assignAll, if_pos hfirst,
          hsame first (List.mem_cons_self ..) hfirst]

end

/-! ## Wires one by one -/

section

variable {entries : List (WireId × α)}

theorem assign_eq_foldl_assignAll (entries : List (WireId × α)) :
    assign values entries = entries.foldl (fun values entry =>
      assignAll values [entry.1] entry.2) values :=
  rfl

theorem assign_append (entries rest : List (WireId × α)) :
    assign values (entries ++ rest) = assign (assign values entries) rest := by
  simp [assign]

theorem getElem?_assign_of_forall_ne
    (hne : ∀ entry ∈ entries, entry.1 ≠ wire) :
    (assign values entries)[wire]? = values[wire]? := by
  rw [assign_eq_foldl_assignAll]
  apply getElem?_foldl_assignAll_of_forall_notMem
  intro entry hentry hwire
  exact hne entry hentry (List.mem_singleton.mp hwire).symm

theorem getElem?_assign_of_mem
    {value : α} (hmem : (wire, value) ∈ entries)
    (hsame : ∀ entry ∈ entries, entry.1 = wire → entry.2 = value) :
    (assign values entries)[wire]? = some value := by
  rw [assign_eq_foldl_assignAll]
  apply getElem?_foldl_assignAll_of_mem
  · exact ⟨(wire, value), hmem, List.mem_singleton_self wire⟩
  · intro entry hentry hwire
    exact hsame entry hentry (List.mem_singleton.mp hwire).symm

theorem getElem?_assign_of_nodup
    (hnodup : (entries.map Prod.fst).Nodup) {value : α}
    (hmem : (wire, value) ∈ entries) :
    (assign values entries)[wire]? = some value := by
  apply getElem?_assign_of_mem hmem
  rintro ⟨other, result⟩ hentry rfl
  have hsame := List.inj_on_of_nodup_map hnodup hentry hmem rfl
  cases hsame
  rfl

theorem getElem?_assign_map (v : WireId → α) (hwire : wire ∈ wires) :
    (assign values (wires.map fun wire => (wire, v wire)))[wire]? =
      some (v wire) := by
  apply getElem?_assign_of_mem
  · exact List.mem_map.mpr ⟨wire, hwire, rfl⟩
  · rintro entry hentry rfl
    obtain ⟨other, _, rfl⟩ := List.mem_map.mp hentry
    rfl

end

end GarbledCircuits
