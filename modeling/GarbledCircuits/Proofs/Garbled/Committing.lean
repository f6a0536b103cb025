import GarbledCircuits.Proofs.Garbled.Translating
import Mathlib.Data.Set.Function

/-!
# Translation by commitments

Unless two of the keys in question have one hash, the commitments to a pair
open a key to the value that the pair decodes it to.  Translation by
commitments then gives bits exactly if translation by the pairs and by the
table both give them.  Otherwise it fails at the first output whose key is
foreign to its pair or stands for another value than the translated one.
-/

namespace GarbledCircuits

open Outcome

/-! ## Decoding output by output -/

section

variable {decode : Nat → α → Except CircuitError β} {items : List α}
  {start : Nat}

theorem decodeFrom_eq_mapM :
    decodeFrom decode start items =
      (items.zipIdx start).mapM fun entry => decode entry.2 entry.1 := by
  induction items generalizing start with
  | nil => rfl
  | cons item items ih =>
      rw [List.zipIdx_cons, List.mapM_cons, decodeFrom, ih]

/-- An output is decoded alike if it is described in another way. -/
theorem decodeFrom_map {other : Nat → γ → Except CircuitError β} {f : α → γ}
    (hother : ∀ item ∈ items, ∀ index,
      other index (f item) = decode index item) :
    decodeFrom other start (items.map f) = decodeFrom decode start items := by
  induction items generalizing start with
  | nil => rfl
  | cons item items ih =>
      rw [List.map_cons, decodeFrom, decodeFrom,
        hother item (List.mem_cons_self ..),
        ih fun next hnext => hother next (List.mem_cons_of_mem _ hnext)]

theorem exists_getElem?_zipIdx_iff {index : Nat} {p : α × Nat → Prop} :
    (∃ entry, items.zipIdx[index]? = some entry ∧ p entry) ↔
      ∃ item, items[index]? = some item ∧ p (item, index) := by
  simp [List.getElem?_zipIdx]

/-- The output with this index cannot be decoded, for this cause. -/
def FailsAt (decode : Nat → α → Except CircuitError β) (items : List α)
    (index : Nat) (cause : CircuitError) : Prop :=
  ∃ item, items[index]? = some item ∧ decode index item = .error cause

theorem decodeFrom_eq_error_iff {cause : CircuitError} :
    decodeFrom decode 0 items = .error cause ↔
      ∃ index, IsLeast {i | ∃ other, FailsAt decode items i other} index ∧
        FailsAt decode items index cause := by
  have hfaults : {i | ∃ other, FailsAt decode items i other} =
      {i | ∃ item, items[i]? = some item ∧
        (!(decode i item).isOk) = true} := by
    ext i
    simp only [Set.mem_ofPred_eq, not_isOk_iff, FailsAt, ← exists_and_left]
    exact exists_comm
  rw [decodeFrom_eq_mapM, mapM_eq_error_iff, hfaults]
  simp only [findIdx?_eq_some_iff_isLeast, exists_getElem?_zipIdx_iff,
    FailsAt]

end

/-! ## Decoding to expected values -/

/-- The value that a key opens, without regard to a table. -/
def decodeByOpening (index : Nat) :
    WireKey × KeyCommitment → Except CircuitError Bool
  | (key, commitment) =>
      match commitment.opens key with
      | some value => .ok value
      | none => .error (.foreignOutputKey index)

/-- Decode an output, of which the value has to be the expected one. -/
def decodeAs (decode : Nat → α → Except CircuitError Bool) (index : Nat) :
    α × Bool → Except CircuitError Bool
  | (item, expected) => do
      let value ← decode index item
      if value ≠ expected then .error (.commitmentMismatch index)
      else .ok value

theorem decodeByCommitment_eq :
    decodeByCommitment = decodeAs decodeByOpening := by
  funext index ⟨⟨key, commitment⟩, expected⟩
  simp only [decodeByCommitment, decodeAs, decodeByOpening]
  cases commitment.opens key <;> rfl

section

variable {decode : Nat → α → Except CircuitError Bool} {items : List α}
  {expected : List Bool}

theorem decodeAs_eq_ok_iff
    {index : Nat} {item : α} {expected value : Bool} :
    decodeAs decode index (item, expected) = .ok value ↔
      decode index item = .ok value ∧ expected = value := by
  rw [decodeAs, bind_eq_ok_iff]
  constructor
  · rintro ⟨found, hfound, hcheck⟩
    split_ifs at hcheck with hne
    cases hcheck
    exact ⟨hfound, (not_not.mp hne).symm⟩
  · rintro ⟨hvalue, rfl⟩
    exact ⟨expected, hvalue, by simp⟩

theorem decodeFrom_decodeAs_eq_ok_iff
    {start : Nat} {values : List Bool}
    (hlength : items.length = expected.length) :
    decodeFrom (decodeAs decode) start (items.zip expected) = .ok values ↔
      decodeFrom decode start items = .ok values ∧ expected = values := by
  induction items generalizing expected values start with
  | nil =>
      rw [List.eq_nil_of_length_eq_zero hlength.symm]
      simp [decodeFrom]
  | cons item items ih =>
      cases expected with
      | nil => cases hlength
      | cons bit bits =>
          simp only [List.zip_cons_cons, decodeFrom, bind_eq_ok_iff,
            pure_eq_ok_iff, decodeAs_eq_ok_iff, ih (Nat.succ.inj hlength)]
          constructor
          · rintro ⟨_, ⟨hfirst, rfl⟩, _, ⟨hrest, rfl⟩, rfl⟩
            exact ⟨⟨_, hfirst, _, hrest, rfl⟩, rfl⟩
          · rintro ⟨⟨value, hfirst, values, hrest, rfl⟩, hexpected⟩
            obtain ⟨rfl, rfl⟩ := List.cons.inj hexpected
            exact ⟨_, ⟨hfirst, rfl⟩, _, ⟨hrest, rfl⟩, rfl⟩

end

variable {keys : List WireKey} {pairs : List KeyPair}
  {translation : Translation} {bits : List Bool}

theorem length_of_translate
    (htranslate : translate keys translation = .ok bits) :
    bits.length = keys.length := by
  obtain ⟨htable, rfl⟩ := translate_eq_ok_iff.mp htranslate
  rw [List.length_zipWith, htable, Translation.length, Nat.min_self]

theorem translateCommitted_eq_ok_iff {commitments : Commitments} :
    translateCommitted keys commitments translation = .ok bits ↔
      translate keys translation = .ok bits ∧
        keys.length = commitments.length ∧
        decodeFrom decodeByOpening 0 (keys.zip commitments) = .ok bits := by
  simp only [translateCommitted, bind_eq_ok_iff, exists_unit_iff,
    checkOutputCount_eq_ok_iff, decodeByCommitment_eq]
  constructor
  · rintro ⟨translated, htranslate, hcount, hdecode⟩
    have hlength : (keys.zip commitments).length = translated.length := by
      rw [List.length_zip, ← hcount, Nat.min_self,
        length_of_translate htranslate]
    obtain ⟨hopens, rfl⟩ := (decodeFrom_decodeAs_eq_ok_iff hlength).mp hdecode
    exact ⟨htranslate, hcount, hopens⟩
  · rintro ⟨htranslate, hcount, hopens⟩
    have hlength : (keys.zip commitments).length = bits.length := by
      rw [List.length_zip, ← hcount, Nat.min_self,
        length_of_translate htranslate]
    exact ⟨bits, htranslate, hcount,
      (decodeFrom_decodeAs_eq_ok_iff hlength).mpr ⟨hopens, rfl⟩⟩

theorem verifiedTranslate_eq_ok_iff :
    verifiedTranslate keys pairs = .ok bits ↔
      keys.length = pairs.length ∧
        decodeFrom decodeByPair 0 (keys.zip pairs) = .ok bits := by
  simp only [verifiedTranslate, bind_eq_ok_iff, exists_unit_iff,
    checkOutputCount_eq_ok_iff]

/-! ## Commitments to pairs -/

/-- The keys to be translated and the keys of the pairs. -/
def keysInQuestion (keys : List WireKey) (pairs : List KeyPair) :
    Set WireKey :=
  {key | key ∈ keys ∨ ∃ pair ∈ pairs, key = pair.key0 ∨ key = pair.key1}

/-- The hashes have no collision in question if those of a list with all the
keys are distinct. -/
theorem injOn_of_nodup
    {known : List WireKey} (hnodup : (known.map commitKey).Nodup)
    (hkeys : ∀ key ∈ keys, key ∈ known)
    (hpairs : ∀ pair ∈ pairs, pair.key0 ∈ known ∧ pair.key1 ∈ known) :
    Set.InjOn commitKey (keysInQuestion keys pairs) := by
  have hknown : ∀ key ∈ keysInQuestion keys pairs, key ∈ known := by
    rintro key (hkey | ⟨pair, hpair, rfl | rfl⟩)
    · exact hkeys key hkey
    · exact (hpairs pair hpair).1
    · exact (hpairs pair hpair).2
  intro key hkey other hother heq
  exact List.inj_on_of_nodup_map hnodup (hknown key hkey)
    (hknown other hother) heq

theorem KeyCommitment.opens_ofPair
    {known : Set WireKey} (hinj : Set.InjOn commitKey known) {key : WireKey}
    {pair : KeyPair} (hkey : key ∈ known) (hkey0 : pair.key0 ∈ known)
    (hkey1 : pair.key1 ∈ known) :
    (KeyCommitment.ofPair pair).opens key = pair.decode key := by
  have hfalse : commitKey key = commitKey pair.key0 ↔ key = pair.key0 :=
    hinj.eq_iff hkey hkey0
  have htrue : commitKey key = commitKey pair.key1 ↔ key = pair.key1 :=
    hinj.eq_iff hkey hkey1
  -- Rewriting the conditions would compute hashes to compare how they are
  -- decided.
  exact if_congr hfalse rfl (if_congr htrue rfl rfl)

theorem decodeByOpening_ofPair
    (hinj : Set.InjOn commitKey (keysInQuestion keys pairs))
    {key : WireKey} {pair : KeyPair} (hentry : (key, pair) ∈ keys.zip pairs)
    (index : Nat) :
    decodeByOpening index (key, .ofPair pair) =
      decodeByPair index (key, pair) := by
  obtain ⟨hkey, hpair⟩ := List.of_mem_zip hentry
  have hopens : (KeyCommitment.ofPair pair).opens key = pair.decode key :=
    KeyCommitment.opens_ofPair hinj (Or.inl hkey)
      (Or.inr ⟨_, hpair, Or.inl rfl⟩) (Or.inr ⟨_, hpair, Or.inr rfl⟩)
  cases hdecode : pair.decode key <;>
    rw [decodeByOpening, decodeByPair, hopens, hdecode]

theorem decodeFrom_ofPairs
    (hinj : Set.InjOn commitKey (keysInQuestion keys pairs)) :
    decodeFrom decodeByOpening 0 (keys.zip (Commitments.ofPairs pairs)) =
      decodeFrom decodeByPair 0 (keys.zip pairs) := by
  rw [Commitments.ofPairs, List.zip_map_right]
  apply decodeFrom_map
  rintro ⟨key, pair⟩ hentry index
  exact decodeByOpening_ofPair hinj hentry index

theorem translateCommitted_ofPairs_eq_ok_iff
    (hinj : Set.InjOn commitKey (keysInQuestion keys pairs)) :
    translateCommitted keys (.ofPairs pairs) translation = .ok bits ↔
      verifiedTranslate keys pairs = .ok bits ∧
        translate keys translation = .ok bits := by
  rw [translateCommitted_eq_ok_iff, verifiedTranslate_eq_ok_iff,
    decodeFrom_ofPairs hinj, Commitments.ofPairs, List.length_map, and_comm]

theorem translateCommitted_ofPairs_eq
    (hinj : Set.InjOn commitKey (keysInQuestion keys pairs))
    (hpairs : keys.length = pairs.length)
    (htranslate : translate keys translation = .ok bits) :
    translateCommitted keys (.ofPairs pairs) translation =
      decodeFrom (decodeAs decodeByPair) 0 ((keys.zip pairs).zip bits) := by
  have hcount : checkOutputCount (Commitments.ofPairs pairs).length
      keys.length = .ok () := by
    rw [checkOutputCount_eq_ok_iff, Commitments.ofPairs, List.length_map,
      hpairs]
  rw [translateCommitted, htranslate, ok_bind, hcount, ok_bind,
    decodeByCommitment_eq, Commitments.ofPairs, List.zip_map_right,
    List.zip_map_left]
  apply decodeFrom_map
  rintro ⟨⟨key, pair⟩, expected⟩ hentry index
  have hopening : decodeByOpening index (key, .ofPair pair) =
      decodeByPair index (key, pair) :=
    decodeByOpening_ofPair hinj (List.of_mem_zip hentry).1 index
  rw [Prod.map_apply, Prod.map_apply, id, id, decodeAs, decodeAs, hopening]

/-! ## The first fault -/

/-- The outputs with a key that is not in their pair. -/
def foreignOutputs (keys : List WireKey) (pairs : List KeyPair) : Set Nat :=
  {index | ∃ key pair, keys[index]? = some key ∧ pairs[index]? = some pair ∧
    pair.decode key = none}

/-- The outputs with a key that is in their pair for another value than the
one that the table translates the key to. -/
def contradictedOutputs (keys : List WireKey) (pairs : List KeyPair)
    (translation : Translation) : Set Nat :=
  {index | ∃ key pair bit value, keys[index]? = some key ∧
    pairs[index]? = some pair ∧ translation.bits[index]? = some bit ∧
    pair.decode key = some value ∧ value ≠ (key.signalBit ^^ bit)}

theorem decodeAs_decodeByPair_eq_error_iff
    {index : Nat} {key : WireKey} {pair : KeyPair} {expected : Bool}
    {cause : CircuitError} :
    decodeAs decodeByPair index ((key, pair), expected) = .error cause ↔
      pair.decode key = none ∧ cause = .foreignOutputKey index ∨
        (∃ value, pair.decode key = some value ∧ value ≠ expected) ∧
          cause = .commitmentMismatch index := by
  rw [decodeAs, decodeByPair]
  cases pair.decode key with
  | none => simp [bind, Except.bind, eq_comm]
  | some value =>
      rw [ok_bind]
      split_ifs with hne
      · constructor
        · rintro ⟨⟩
          exact Or.inr ⟨⟨value, rfl, hne⟩, rfl⟩
        · rintro (⟨⟨⟩, _⟩ | ⟨_, rfl⟩)
          rfl
      · simp [not_not.mp hne]

theorem getElem?_translated_eq_some_iff
    (htranslate : translate keys translation = .ok bits) {index : Nat}
    {key : WireKey} {pair : KeyPair} {expected : Bool} :
    ((keys.zip pairs).zip bits)[index]? = some ((key, pair), expected) ↔
      keys[index]? = some key ∧ pairs[index]? = some pair ∧
        ∃ bit, translation.bits[index]? = some bit ∧
          (key.signalBit ^^ bit) = expected := by
  obtain ⟨_, rfl⟩ := translate_eq_ok_iff.mp htranslate
  rw [List.getElem?_zip_eq_some, List.getElem?_zip_eq_some, and_assoc,
    List.getElem?_zipWith]
  refine and_congr_right fun hkey => and_congr_right fun _ => ?_
  rw [hkey]
  cases translation.bits[index]? <;> simp

theorem failsAt_iff
    (htranslate : translate keys translation = .ok bits) {index : Nat}
    {cause : CircuitError} :
    FailsAt (decodeAs decodeByPair) ((keys.zip pairs).zip bits) index
        cause ↔
      index ∈ foreignOutputs keys pairs ∧ cause = .foreignOutputKey index ∨
        index ∈ contradictedOutputs keys pairs translation ∧
          cause = .commitmentMismatch index := by
  constructor
  · rintro ⟨⟨⟨key, pair⟩, expected⟩, hentry, hcause⟩
    obtain ⟨hkey, hpair, bit, hbit, rfl⟩ :=
      (getElem?_translated_eq_some_iff htranslate).mp hentry
    rcases decodeAs_decodeByPair_eq_error_iff.mp hcause with
      ⟨hforeign, hcause⟩ | ⟨⟨value, hvalue, hne⟩, hcause⟩
    · exact Or.inl ⟨⟨key, pair, hkey, hpair, hforeign⟩, hcause⟩
    · exact Or.inr
        ⟨⟨key, pair, bit, value, hkey, hpair, hbit, hvalue, hne⟩, hcause⟩
  · rintro (⟨⟨key, pair, hkey, hpair, hforeign⟩, hcause⟩ |
      ⟨⟨key, pair, bit, value, hkey, hpair, hbit, hvalue, hne⟩, hcause⟩)
    · have hindex : index < translation.bits.length := by
        have hcount := (translate_eq_ok_iff.mp htranslate).1
        rw [← Translation.length, ← hcount]
        exact (List.getElem?_eq_some_iff.mp hkey).1
      exact ⟨_, (getElem?_translated_eq_some_iff htranslate).mpr
          ⟨hkey, hpair, _, List.getElem?_eq_getElem hindex, rfl⟩,
        decodeAs_decodeByPair_eq_error_iff.mpr (Or.inl ⟨hforeign, hcause⟩)⟩
    · exact ⟨_, (getElem?_translated_eq_some_iff htranslate).mpr
          ⟨hkey, hpair, bit, hbit, rfl⟩,
        decodeAs_decodeByPair_eq_error_iff.mpr
          (Or.inr ⟨⟨value, hvalue, hne⟩, hcause⟩)⟩

theorem translateCommitted_ofPairs_eq_error_iff
    (hinj : Set.InjOn commitKey (keysInQuestion keys pairs))
    (hpairs : keys.length = pairs.length)
    (htable : keys.length = translation.length) {cause : CircuitError} :
    translateCommitted keys (.ofPairs pairs) translation = .error cause ↔
      ∃ index, IsLeast (foreignOutputs keys pairs ∪
          contradictedOutputs keys pairs translation) index ∧
        (index ∈ foreignOutputs keys pairs ∧
            cause = .foreignOutputKey index ∨
          index ∈ contradictedOutputs keys pairs translation ∧
            cause = .commitmentMismatch index) := by
  have htranslate : translate keys translation = .ok _ :=
    translate_eq_ok_iff.mpr ⟨htable, rfl⟩
  have hfaults : {i | ∃ other, FailsAt (decodeAs decodeByPair)
        ((keys.zip pairs).zip (List.zipWith
          (fun key bit => key.signalBit ^^ bit) keys translation.bits))
        i other} =
      foreignOutputs keys pairs ∪
        contradictedOutputs keys pairs translation := by
    ext index
    simp [failsAt_iff htranslate, exists_or]
  rw [translateCommitted_ofPairs_eq hinj hpairs htranslate,
    decodeFrom_eq_error_iff, hfaults]
  simp only [failsAt_iff htranslate]

/-! ## Translation by commitments to pairs -/

/-- Without a collision, keys are translated by the commitments to pairs
exactly as they are translated by the pairs and by the table alike.  Keys in
the right number fail with the first output that is foreign or contradicted,
and no commitments lead to a bit that the table contradicts. -/
theorem translateCommitted_refines_verifiedTranslate
    (keys : List WireKey) (pairs : List KeyPair) (translation : Translation)
    (hinj : Set.InjOn commitKey (keysInQuestion keys pairs)) :
    (∀ bits : List Bool,
        translateCommitted keys (.ofPairs pairs) translation = .ok bits ↔
          verifiedTranslate keys pairs = .ok bits ∧
            translate keys translation = .ok bits) ∧
      (keys.length = pairs.length → keys.length = translation.length →
        ∀ cause : CircuitError,
          translateCommitted keys (.ofPairs pairs) translation =
              .error cause ↔
            ∃ index, IsLeast (foreignOutputs keys pairs ∪
                contradictedOutputs keys pairs translation) index ∧
              (index ∈ foreignOutputs keys pairs ∧
                  cause = .foreignOutputKey index ∨
                index ∈ contradictedOutputs keys pairs translation ∧
                  cause = .commitmentMismatch index)) ∧
      (∀ (commitments : Commitments) (bits : List Bool),
        translateCommitted keys commitments translation = .ok bits →
          translate keys translation = .ok bits) := by
  refine ⟨fun _ => translateCommitted_ofPairs_eq_ok_iff hinj, ?_, ?_⟩
  · intro hpairs htable cause
    exact translateCommitted_ofPairs_eq_error_iff hinj hpairs htable
  · intro commitments bits hcommitted
    exact (translateCommitted_eq_ok_iff.mp hcommitted).1

/-- The keys 0, 1, 2 and 3 are in the pairs, and the key 4 is foreign. -/
theorem translateCommitted_refines_verifiedTranslate_mixedPairs :
    translateCommitted [⟨1⟩, ⟨3⟩] (.ofPairs (mixedPairs.take 2))
        ⟨[false, true]⟩ = .ok [true, false] ∧
      translateCommitted [⟨1⟩, ⟨4⟩] (.ofPairs (mixedPairs.take 2))
        ⟨[true, true]⟩ = .error (.commitmentMismatch 0) ∧
      translateCommitted [⟨4⟩, ⟨3⟩] (.ofPairs (mixedPairs.take 2))
        ⟨[false, false]⟩ = .error (.foreignOutputKey 0) ∧
      translate [⟨1⟩, ⟨3⟩] ⟨[false, true]⟩ = .ok [true, false] := by
  have hnodup : ((
      [⟨0⟩, ⟨1⟩, ⟨2⟩, ⟨3⟩, ⟨4⟩] : List WireKey).map commitKey).Nodup := by
    decide +kernel
  obtain ⟨hdecodes, _, hagrees⟩ :=
    translateCommitted_refines_verifiedTranslate [⟨1⟩, ⟨3⟩]
      (mixedPairs.take 2) ⟨[false, true]⟩
      (injOn_of_nodup hnodup (by decide) (by decide))
  obtain ⟨_, hcontradicted, _⟩ :=
    translateCommitted_refines_verifiedTranslate [⟨1⟩, ⟨4⟩]
      (mixedPairs.take 2) ⟨[true, true]⟩
      (injOn_of_nodup hnodup (by decide) (by decide))
  obtain ⟨_, hforeign, _⟩ :=
    translateCommitted_refines_verifiedTranslate [⟨4⟩, ⟨3⟩]
      (mixedPairs.take 2) ⟨[false, false]⟩
      (injOn_of_nodup hnodup (by decide) (by decide))
  have hvalue0 : 0 ∈ contradictedOutputs [⟨1⟩, ⟨4⟩] (mixedPairs.take 2)
      ⟨[true, true]⟩ :=
    ⟨⟨1⟩, .unit, true, true, rfl, rfl, rfl, by decide, by decide⟩
  have hkey0 : 0 ∈ foreignOutputs [⟨4⟩, ⟨3⟩] (mixedPairs.take 2) :=
    ⟨⟨4⟩, .unit, rfl, rfl, by decide⟩
  have hok := (hdecodes [true, false]).mpr ⟨by decide, by decide⟩
  exact ⟨hok,
    (hcontradicted (by decide) (by decide) _).mpr
      ⟨0, ⟨Or.inr hvalue0, fun _ _ => Nat.zero_le _⟩,
        Or.inr ⟨hvalue0, rfl⟩⟩,
    (hforeign (by decide) (by decide) _).mpr
      ⟨0, ⟨Or.inl hkey0, fun _ _ => Nat.zero_le _⟩, Or.inl ⟨hkey0, rfl⟩⟩,
    hagrees _ _ hok⟩

end GarbledCircuits
