import GarbledCircuits.Proofs.Garbled.Formats
import GarbledCircuits.Proofs.Garbled.Independence

/-!
# The layout of garbled circuits

Tables and translation table are replaced in place: a call checks its argument
against the topology and then writes it.  However a garbled circuit was made,
and whatever calls came after that, its tables and its translation table fit
the topology, and the topology is that of its circuit.
-/

namespace GarbledCircuits

open Outcome

/-! ## Replacing parts in place -/

/-- A part that is to replace the one that a garbled circuit has. -/
inductive Replacement
  | ofTables (tables : Tables)
  | ofTranslation (translation : Translation)

namespace Replacement

def call : Replacement → EStateM CircuitError GarbledCircuit Unit
  | .ofTables tables => GarbledCircuit.replaceTables tables
  | .ofTranslation translation => GarbledCircuit.replaceTranslation translation

/-- What a call leaves, also where it fails. -/
def leaves (garbled : GarbledCircuit) (replacement : Replacement) :
    GarbledCircuit :=
  match replacement.call.run garbled with
  | .ok _ garbled => garbled
  | .error _ garbled => garbled

/-- The garbled circuit with the new part in it, whether that fits or not. -/
def putInto (garbled : GarbledCircuit) : Replacement → GarbledCircuit
  | .ofTables tables => { garbled with tables := tables }
  | .ofTranslation translation => { garbled with translation := translation }

def Fits (garbled : GarbledCircuit) : Replacement → Prop
  | .ofTables tables =>
      tables.checkLayout garbled.topology.rowCounts garbled.cipherSize = .ok ()
  | .ofTranslation translation =>
      translation.length = garbled.topology.outputs.length

variable {garbled : GarbledCircuit} {replacement : Replacement}

theorem run_call_of_fits (hfits : replacement.Fits garbled) :
    replacement.call.run garbled = .ok () (replacement.putInto garbled) := by
  cases replacement with
  | ofTables tables =>
      exact GarbledCircuit.run_replaceTables_eq_ok_iff.mpr ⟨hfits, rfl⟩
  | ofTranslation translation =>
      exact GarbledCircuit.run_replaceTranslation_eq_ok_iff.mpr ⟨hfits, rfl⟩

theorem run_call_of_not_fits (hfits : ¬ replacement.Fits garbled) :
    ∃ cause, replacement.call.run garbled = .error cause garbled := by
  cases replacement with
  | ofTables tables =>
      cases hlayout : tables.checkLayout garbled.topology.rowCounts
        garbled.cipherSize with
      | ok _ => exact absurd hlayout hfits
      | error cause =>
          refine ⟨.table cause, ?_⟩
          simp [call, GarbledCircuit.replaceTables, hlayout,
            CircuitError.ofTable, Except.mapError, MonadExcept.ofExcept]
  | ofTranslation translation =>
      have hlength :
          ¬ translation.length = garbled.topology.outputs.length := hfits
      refine ⟨.table (.translationLength garbled.topology.outputs.length
        translation.length), ?_⟩
      simp [call, GarbledCircuit.replaceTranslation, hlength]

end Replacement

/-! ## The layout that every call keeps -/

namespace GarbledCircuit

variable {circuit : Circuit} {scheme : Scheme} {garbled : GarbledCircuit}
  {replacement : Replacement}

/-- The parts fit the topology, which is that of the circuit. -/
structure HasLayoutOf (garbled : GarbledCircuit) (circuit : Circuit)
    (scheme : Scheme) : Prop where
  kind : garbled.kind = scheme.kind
  cipherSize : garbled.cipherSize = scheme.cipherSize
  topology : garbled.topology = circuit.topology
  tables : garbled.tables.checkLayout garbled.topology.rowCounts
    garbled.cipherSize = .ok ()
  translation : garbled.translation.length = garbled.topology.outputs.length

/-- Garbled from the circuit, or rebuilt from received parts or bytes. -/
def ProducedFor (garbled : GarbledCircuit) (circuit : Circuit)
    (scheme : Scheme) : Prop :=
  (∃ executor stream secrets,
      (circuit.garble executor scheme stream).1 = .ok (garbled, secrets)) ∨
    garbled.RebuiltFor circuit scheme

theorem FitsCircuit.hasLayoutOf
    (hfits : garbled.FitsCircuit circuit scheme) :
    garbled.HasLayoutOf circuit scheme := by
  have hlayout := hfits.tables.checkLayout scheme.cipherSize_pos
  rw [← circuit.rowCounts_topology] at hlayout
  have hcount := hfits.translation
  rw [hfits.eq_parts]
  exact ⟨rfl, rfl, rfl, hlayout, hcount⟩

theorem ProducedFor.hasLayoutOf
    (hproduced : garbled.ProducedFor circuit scheme) :
    garbled.HasLayoutOf circuit scheme := by
  cases hproduced with
  | inl hgarbled =>
      obtain ⟨executor, stream, secrets, hgarble⟩ := hgarbled
      obtain ⟨store, _, hunder⟩ := bind_eq_ok_iff.mp hgarble
      exact (fitsCircuit_of_garbleUnder hunder).hasLayoutOf
  | inr hrebuilt =>
      obtain ⟨tables, translation, hparts⟩ := hrebuilt.exists_ofParts
      obtain ⟨hlayout, hcount, rfl⟩ := ofParts_eq_ok_iff.mp hparts
      exact ⟨rfl, rfl, rfl, hlayout, hcount⟩

/-- So an evaluation can count the rows of every table. -/
theorem HasLayoutOf.unsized_eq_false
    (hlayout : garbled.HasLayoutOf circuit scheme) :
    ∀ table ∈ garbled.tables, table.unsized = false := by
  intro table htable
  have hsize := Tables.rowSize_eq_of_checkLayout hlayout.tables table htable
  have hpos := scheme.cipherSize_pos
  rw [hlayout.cipherSize] at hsize
  simp [Table.unsized, hsize, hpos.ne']

/-- A part fits exactly if the layout is kept when it is put in. -/
theorem HasLayoutOf.fits_iff (hlayout : garbled.HasLayoutOf circuit scheme) :
    replacement.Fits garbled ↔
      (replacement.putInto garbled).HasLayoutOf circuit scheme := by
  cases replacement with
  | ofTables tables =>
      constructor
      · intro hfits
        exact ⟨hlayout.kind, hlayout.cipherSize, hlayout.topology, hfits,
          hlayout.translation⟩
      · intro hnext
        exact hnext.tables
  | ofTranslation translation =>
      constructor
      · intro hfits
        exact ⟨hlayout.kind, hlayout.cipherSize, hlayout.topology,
          hlayout.tables, hfits⟩
      · intro hnext
        exact hnext.translation

theorem HasLayoutOf.leaves (hlayout : garbled.HasLayoutOf circuit scheme)
    (replacement : Replacement) :
    (replacement.leaves garbled).HasLayoutOf circuit scheme := by
  unfold Replacement.leaves
  by_cases hfits : replacement.Fits garbled
  · rw [Replacement.run_call_of_fits hfits]
    exact hlayout.fits_iff.mp hfits
  · obtain ⟨cause, hrun⟩ := Replacement.run_call_of_not_fits hfits
    rw [hrun]
    exact hlayout

theorem HasLayoutOf.foldl_leaves
    (hlayout : garbled.HasLayoutOf circuit scheme)
    (replacements : List Replacement) :
    (replacements.foldl Replacement.leaves garbled).HasLayoutOf circuit
      scheme := by
  induction replacements generalizing garbled with
  | nil => exact hlayout
  | cons replacement rest ih => exact ih (hlayout.leaves replacement)

/-- However a garbled circuit was made, and after any calls, it has the layout
of its circuit.  The next call succeeds exactly if that stays so with the new
part put in, and leaves everything as it was if it fails. -/
theorem ProducedFor.replacements_keep_layout
    (hproduced : garbled.ProducedFor circuit scheme)
    (replacements : List Replacement) :
    let now := replacements.foldl Replacement.leaves garbled
    now.HasLayoutOf circuit scheme ∧
      ∀ replacement : Replacement,
        (replacement.call.run now = .ok () (replacement.putInto now) ↔
          (replacement.putInto now).HasLayoutOf circuit scheme) ∧
        ((∃ cause, replacement.call.run now = .error cause now) ↔
          ¬ (replacement.putInto now).HasLayoutOf circuit scheme) := by
  intro now
  have hlayout : now.HasLayoutOf circuit scheme :=
    hproduced.hasLayoutOf.foldl_leaves replacements
  refine ⟨hlayout, ?_⟩
  intro replacement
  rw [← hlayout.fits_iff]
  by_cases hfits : replacement.Fits now
  · simp [hfits, Replacement.run_call_of_fits hfits]
  · obtain ⟨cause, hrun⟩ := Replacement.run_call_of_not_fits hfits
    simp [hfits, hrun]

/-- A call that fails, for want of a table, and then one that succeeds. -/
theorem ProducedFor.replacements_keep_layout_inverter :
    inverter.ProducedFor .inverter .transparent ∧
      [.ofTables [], .ofTranslation ⟨[true]⟩].foldl Replacement.leaves
          inverter = { inverter with translation := ⟨[true]⟩ } ∧
      ([.ofTables [], .ofTranslation ⟨[true]⟩].foldl Replacement.leaves
        inverter).HasLayoutOf .inverter .transparent := by
  have hproduced : inverter.ProducedFor .inverter .transparent :=
    Or.inr (Or.inl ⟨inverter.tables, inverter.translation,
      by decide +kernel⟩)
  have hfinal : [.ofTables [], .ofTranslation ⟨[true]⟩].foldl
      Replacement.leaves inverter =
        { inverter with translation := ⟨[true]⟩ } := by
    decide +kernel
  exact ⟨hproduced, hfinal, (hproduced.replacements_keep_layout _).1⟩

end GarbledCircuit

end GarbledCircuits
