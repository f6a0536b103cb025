import GarbledCircuits.Garbled.Verify
import GarbledCircuits.Proofs.Garbled.Decoding
import GarbledCircuits.Proofs.Garbled.Verification
import Mathlib.Order.Bounds.Basic

/-!
# Translation tables that decode

The check of a translation table against output pairs succeeds exactly if the
table translates every selection of keys to the selecting values.  Otherwise
it names the first output at which some selection is translated wrongly.
-/

namespace GarbledCircuits

open Outcome

variable {translation : Translation} {pairs : List KeyPair} {index : Nat}

theorem translate_eq_ok_iff {keys : List WireKey} {values : List Bool} :
    translate keys translation = .ok values ↔
      keys.length = translation.length ∧
        List.zipWith (fun key bit => key.signalBit ^^ bit) keys
          translation.bits = values := by
  simp only [translate, bind_eq_ok_iff, exists_unit_iff,
    checkOutputCount_eq_ok_iff, pure_eq_ok_iff]

/-- A pair agrees with a bit if the bit decodes both keys. -/
theorem agreesWithBit_iff {bit : Bool} {pair : KeyPair} :
    agreesWithBit bit pair = true ↔
      ∀ value, ((pair.select value).signalBit ^^ bit) = value := by
  rw [Bool.forall_bool, KeyPair.select_false, KeyPair.select_true,
    agreesWithBit]
  cases bit <;> cases pair.key0.signalBit <;>
    cases pair.key1.signalBit <;> decide

theorem translate_selectKeys_eq_ok
    {values : List Bool} (hlength : translation.length = pairs.length)
    (hvalues : values.length = pairs.length) :
    translate (selectKeys pairs values) translation =
      .ok (List.zipWith
        (fun entry value => (entry.2.select value).signalBit ^^ entry.1)
        (translation.bits.zip pairs) values) := by
  rw [translate_eq_ok_iff, length_selectKeys, hvalues, Nat.min_self, hlength]
  refine ⟨rfl, List.ext_getElem? fun index => ?_⟩
  simp only [selectKeys, List.getElem?_zipWith, List.zip]
  cases translation.bits[index]? <;> cases pairs[index]? <;>
    cases values[index]? <;> rfl

/-- The outputs at which some selection of keys is translated to another value
than the selecting one. -/
def mistranslated (translation : Translation) (pairs : List KeyPair) :
    Set Nat :=
  {index | ∃ values bits, values.length = pairs.length ∧
    translate (selectKeys pairs values) translation = .ok bits ∧
    bits[index]? ≠ values[index]?}

theorem mem_mistranslated_iff
    (hlength : translation.length = pairs.length) :
    index ∈ mistranslated translation pairs ↔
      ∃ entry, (translation.bits.zip pairs)[index]? = some entry ∧
        (!agreesWithBit entry.1 entry.2) = true := by
  have hzip : (translation.bits.zip pairs).length = pairs.length := by
    rw [List.length_zip, ← Translation.length, hlength, Nat.min_self]
  constructor
  · rintro ⟨values, bits, hvalues, htranslate, hne⟩
    rw [translate_selectKeys_eq_ok hlength hvalues, Except.ok.injEq]
      at htranslate
    subst htranslate
    have hindex : index < (translation.bits.zip pairs).length := by
      by_contra hout
      apply hne
      rw [List.getElem?_eq_none (by rw [List.length_zipWith]; omega),
        List.getElem?_eq_none (by omega)]
    refine ⟨_, List.getElem?_eq_getElem hindex, ?_⟩
    by_contra hagrees
    rw [Bool.not_eq_true, Bool.not_eq_false', agreesWithBit_iff] at hagrees
    apply hne
    rw [List.getElem?_zipWith, List.getElem?_eq_getElem hindex,
      List.getElem?_eq_getElem (hvalues ▸ hzip ▸ hindex)]
    exact congrArg some (hagrees _)
  · rintro ⟨entry, hentry, hdisagrees⟩
    rw [Bool.not_eq_true', ← Bool.not_eq_true, agreesWithBit_iff,
      not_forall] at hdisagrees
    obtain ⟨value, hvalue⟩ := hdisagrees
    have hindex : index < pairs.length := by
      rw [← hzip]
      exact (List.getElem?_eq_some_iff.mp hentry).1
    refine ⟨List.replicate pairs.length value, _, List.length_replicate,
      translate_selectKeys_eq_ok hlength List.length_replicate, ?_⟩
    rw [List.getElem?_zipWith, hentry, List.getElem?_replicate_of_lt hindex]
    simpa using hvalue

/-! ## The first fault -/

theorem findIdx?_eq_some_iff_isLeast {entries : List α} {p : α → Bool} :
    entries.findIdx? p = some index ↔
      IsLeast {i | ∃ entry, entries[i]? = some entry ∧ p entry = true}
        index := by
  rw [List.findIdx?_eq_some_iff_getElem]
  constructor
  · rintro ⟨hindex, hfault, hbefore⟩
    refine ⟨⟨_, List.getElem?_eq_getElem hindex, hfault⟩, ?_⟩
    rintro i ⟨entry, hentry, hother⟩
    by_contra hlt
    obtain ⟨hi, rfl⟩ := List.getElem?_eq_some_iff.mp hentry
    exact hbefore i (not_le.mp hlt) hother
  · rintro ⟨⟨entry, hentry, hfault⟩, hleast⟩
    obtain ⟨hindex, rfl⟩ := List.getElem?_eq_some_iff.mp hentry
    refine ⟨hindex, hfault, ?_⟩
    intro i hi hother
    exact hi.not_ge (hleast ⟨_, List.getElem?_eq_getElem _, hother⟩)

theorem verifyTranslation_eq_error_iff
    (hlength : translation.length = pairs.length) {cause : CircuitError} :
    verifyTranslation translation pairs = .error cause ↔
      ∃ index, IsLeast (mistranslated translation pairs) index ∧
        cause = .translationMismatch index := by
  have hfaults : mistranslated translation pairs =
      {i | ∃ entry, (translation.bits.zip pairs)[i]? = some entry ∧
        (!agreesWithBit entry.1 entry.2) = true} :=
    Set.ext fun _ => mem_mistranslated_iff hlength
  simp only [hfaults, ← findIdx?_eq_some_iff_isLeast]
  unfold verifyTranslation
  rw [if_neg (not_not.mpr hlength)]
  split
  next index hfind => simp [hfind, eq_comm]
  next hfind => simp [hfind]

/-! ## The check and what it guarantees -/

/-- A table is accepted exactly if it decodes every selection of keys, and then
so do the pairs.  A table of the right length is otherwise refused at the first
output that some selection decodes wrongly. -/
theorem verifyTranslation_guards_decoding
    (translation : Translation) (pairs : List KeyPair) :
    (verifyTranslation translation pairs = .ok () ↔
        ∀ values : List Bool, values.length = pairs.length →
          translate (selectKeys pairs values) translation = .ok values) ∧
      (verifyTranslation translation pairs = .ok () →
        ∀ values : List Bool, values.length = pairs.length →
          verifiedTranslate (selectKeys pairs values) pairs = .ok values) ∧
      (translation.length ≠ pairs.length →
        verifyTranslation translation pairs =
          .error (.outputCountMismatch pairs.length translation.length)) ∧
      (translation.length = pairs.length → ∀ cause : CircuitError,
        verifyTranslation translation pairs = .error cause ↔
          ∃ index, IsLeast (mistranslated translation pairs) index ∧
            cause = .translationMismatch index) := by
  refine ⟨⟨?_, ?_⟩, ?_, fun hlength => if_pos hlength,
    fun hlength _ => verifyTranslation_eq_error_iff hlength⟩
  · intro hverify values hvalues
    obtain ⟨hbits, hopposed⟩ := verifyTranslation_eq_ok_iff.mp hverify
    exact translate_selectKeys hopposed hvalues.symm hbits
  · intro htranslates
    have hfalse := htranslates (List.replicate pairs.length false)
      List.length_replicate
    have hlength : translation.length = pairs.length := by
      have hcount := (translate_eq_ok_iff.mp hfalse).1
      rw [length_selectKeys, List.length_replicate, Nat.min_self] at hcount
      exact hcount.symm
    cases hverify : verifyTranslation translation pairs with
    | ok _ => rfl
    | error cause =>
        -- The refused output is decoded wrongly by some selection.
        obtain ⟨index, ⟨hwrong, _⟩, _⟩ :=
          (verifyTranslation_eq_error_iff hlength).mp hverify
        obtain ⟨values, bits, hvalues, htranslate, hne⟩ := hwrong
        rw [htranslates values hvalues, Except.ok.injEq] at htranslate
        exact absurd (by rw [htranslate]) hne
  · intro hverify values hvalues
    obtain ⟨_, hopposed⟩ := verifyTranslation_eq_ok_iff.mp hverify
    exact verifiedTranslate_selectKeys hopposed hvalues.symm

/-- The second pair has the signal bit true, and the third has one bit for both
keys. -/
def mixedPairs : List KeyPair :=
  [.unit, ⟨⟨3⟩, ⟨2⟩⟩, ⟨⟨4⟩, ⟨6⟩⟩]

theorem verifyTranslation_guards_decoding_mixedPairs :
    verifyTranslation ⟨[false, true]⟩ (mixedPairs.take 2) = .ok () ∧
      translate (selectKeys (mixedPairs.take 2) [true, false])
          ⟨[false, true]⟩ = .ok [true, false] ∧
      verifiedTranslate (selectKeys (mixedPairs.take 2) [true, false])
          (mixedPairs.take 2) = .ok [true, false] ∧
      verifyTranslation ⟨[false, true]⟩ mixedPairs =
        .error (.outputCountMismatch 3 2) ∧
      verifyTranslation ⟨[false, true, false]⟩ mixedPairs =
        .error (.translationMismatch 2) ∧
      IsLeast (mistranslated ⟨[false, true, false]⟩ mixedPairs) 2 := by
  have hverify : verifyTranslation ⟨[false, true]⟩ (mixedPairs.take 2) =
      .ok () := by decide
  have hrefused : verifyTranslation ⟨[false, true, false]⟩ mixedPairs =
      .error (.translationMismatch 2) := by decide
  obtain ⟨hdecodes, hpairs, _, _⟩ :=
    verifyTranslation_guards_decoding ⟨[false, true]⟩ (mixedPairs.take 2)
  obtain ⟨_, _, hcount, _⟩ :=
    verifyTranslation_guards_decoding ⟨[false, true]⟩ mixedPairs
  obtain ⟨_, _, _, hfirst⟩ :=
    verifyTranslation_guards_decoding ⟨[false, true, false]⟩ mixedPairs
  obtain ⟨index, hleast, hindex⟩ := (hfirst (by decide) _).mp hrefused
  rw [CircuitError.translationMismatch.injEq] at hindex
  subst hindex
  exact ⟨hverify, hdecodes.mp hverify [true, false] (by decide),
    hpairs hverify [true, false] (by decide), hcount (by decide), hrefused,
    hleast⟩

end GarbledCircuits
