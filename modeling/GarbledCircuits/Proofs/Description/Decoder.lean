import GarbledCircuits.Description.Decoder
import GarbledCircuits.Proofs.Json.Scanning
import GarbledCircuits.Proofs.Outcome

/-!
# Decoding what was described

A decoder undoes the description of a number, of a text and of a list of
described values.  A list is decoded item by item, and judging the items as
they are decoded is the same as judging them after that.
-/

namespace GarbledCircuits

open Json (Reading)
open Outcome

namespace Decoder

variable {decoder : Decoder α} {describe : α → Json}

theorem natural_ofJson {limit value : Nat} (hvalue : value < limit) :
    natural limit (.ofJson (.number value)) = .ok value := by
  simp only [Reading.ofJson, natural, Decimal.value?_digits, if_pos hvalue]

theorem byte_ofJson (value : UInt8) :
    byte (.ofJson (.number value.toNat)) = .ok value := by
  have hnumber : natural 256 (.ofJson (.number value.toNat)) =
      .ok value.toNat :=
    natural_ofJson value.toNat_lt
  rw [byte, map, hnumber]
  exact congrArg Except.ok UInt8.ofNat_toNat

theorem ofItems_eq_map (items : List Json) :
    Reading.ofItems items = items.map Reading.ofJson := by
  induction items with
  | nil => rfl
  | cons item items ih => rw [Reading.ofItems, ih, List.map_cons]

theorem list_ofJson
    {values : List α}
    (hvalues : ∀ value ∈ values,
      decoder (.ofJson (describe value)) = .ok value) :
    list decoder (.ofJson (.list describe values)) = .ok values := by
  rw [Json.list, Reading.ofJson, list, ofItems_eq_map, List.mapM_map,
    List.mapM_map]
  have hself : values.mapM (decoder ∘ Reading.ofJson ∘ describe) =
      .ok (values.map id) :=
    mapM_eq_ok_map hvalues
  rwa [List.map_id] at hself

theorem bool_ofJson (value : Bool) : bool (.ofJson (.bool value)) = .ok value :=
  rfl

theorem textOf_encode (text : String) :
    textOf (Quoted.encode text).toList = .ok text := by
  rw [textOf, String.ofList_toList, Quoted.decode?_encode]

theorem afterCut_ne_ok (inner : Except DescriptionError α) (value : β) :
    afterCut inner ≠ .ok value := by
  intro hinner
  obtain ⟨_, _, hmalformed⟩ := bind_eq_ok_iff.mp hinner
  cases hmalformed

theorem list_eq_ok_iff {reading : Reading} {values : List α} :
    list decoder reading = .ok values ↔
      ∃ items, reading = .array items ∧
        List.Forall₂ (fun item value => decoder item = .ok value)
          items values := by
  fun_cases list decoder reading with
  | case1 items => simp [mapM_eq_ok_iff]
  | case2 items => simp [afterCut_ne_ok]
  | case3 harray hcut =>
      cases reading <;> simp_all [malformed]

theorem refine_eq_ok_iff
    {check : α → Except DescriptionError β} {reading : Reading} {result : β} :
    decoder.refine check reading = .ok result ↔
      ∃ value, decoder reading = .ok value ∧ check value = .ok result :=
  bind_eq_ok_iff

end Decoder

end GarbledCircuits
