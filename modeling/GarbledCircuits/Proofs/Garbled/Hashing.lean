import GarbledCircuits.Proofs.Cipher.Framing
import GarbledCircuits.Proofs.Garbled.Tweaks
import GarbledCircuits.Proofs.Gate.Slots

/-!
# What the rows of gates are hashed from

Under the hashed scheme a plain row has one input of the hash, and garbling
depends on the hash at the inputs of its rows alone.  An input gives back the
ordered keys of its row, the number of the gate and, as long as every signal
bit has a word in the tweak, the signal bits of the row.  So rows that differ
in one of these have different inputs.
-/

namespace GarbledCircuits

open Outcome

namespace Gate

/-- The keys that a plain row is sealed under, in the order of the inputs. -/
def rowKeys (gate : Gate) (store : KeyStore) (row : Nat) : List WireKey :=
  selectKeys (gate.inputs.map store.pairOf) (rowBits row gate.arity)

def rowMask (gate : Gate) (store : KeyStore) (row : Nat) : List Bool :=
  xorBits (rowBits row gate.arity) (gate.inputs.map store.signalBitOf)

/-- What is hashed for the pad and the tag key of a plain row. -/
def hashInput (gate : Gate) (tweakSize : Nat) (store : KeyStore)
    (row : Nat) : List UInt8 :=
  Hashed.input ⟨Hashed.frame (gate.rowKeys store row)⟩
    (gate.rowTweak tweakSize store row)

variable {gate : Gate} {store : KeyStore} {row : Nat}

theorem length_rowKeys :
    (gate.rowKeys store row).length = gate.arity := by
  rw [rowKeys, length_selectKeys, List.length_map, length_rowBits,
    GateWiring.arity, Nat.min_self]

theorem length_rowMask :
    (gate.rowMask store row).length = gate.arity := by
  rw [rowMask, length_xorBits, List.length_map, length_rowBits,
    GateWiring.arity, Nat.min_self]

theorem arity_le_maxArity_of_garble
    {scheme : Scheme} {table : Table}
    (hgarble : gate.garble scheme store = .ok table) :
    gate.arity ≤ maxArity scheme.tweakSize := by
  exact (garbleTweaked_eq_ok_iff.mp hgarble).1

end Gate

namespace Hashed

variable {hash rival : List UInt8 → (size : Nat) → Vector UInt8 size}
  {tag : List UInt8 → List UInt8 → Vector UInt8 tagSize} {tweakSize : Nat}

/-! ## Where the hash is asked -/

/-- A payload is sealed alike under two hashes that agree at its input. -/
theorem sealTweaked_congr
    {keys : List WireKey} {tweak : List UInt8}
    (hsame : hash (input ⟨frame keys⟩ tweak) (WireKey.size + tagKeySize) =
      rival (input ⟨frame keys⟩ tweak) (WireKey.size + tagKeySize))
    (payload : WireKey) :
    sealTweaked (scheme hash tag tweakSize) keys tweak payload =
      sealTweaked (scheme rival tag tweakSize) keys tweak payload := by
  have hseal : (scheme hash tag tweakSize).sealUnder ⟨frame keys⟩ tweak
        payload.toBytes =
      (scheme rival tag tweakSize).sealUnder ⟨frame keys⟩ tweak
        payload.toBytes := by
    simp only [Scheme.sealUnder, Scheme.payloadPad, Scheme.tagKey, scheme,
      Session.sealWith, hsame]
  rw [sealTweaked_eq, sealTweaked_eq]
  unfold scheme at hseal ⊢
  rw [hseal]

theorem garble_congr
    {gate : Gate} {store : KeyStore}
    (hsame : ∀ row < gate.rowCount,
      hash (gate.hashInput tweakSize store row)
          (WireKey.size + tagKeySize) =
        rival (gate.hashInput tweakSize store row)
          (WireKey.size + tagKeySize)) :
    gate.garble (scheme hash tag tweakSize) store =
      gate.garble (scheme rival tag tweakSize) store := by
  rw [Gate.garble_eq_garbleTweaked, Gate.garble_eq_garbleTweaked]
  unfold Gate.garbleTweaked
  cases hinputs : gate.inputs.mapM store.get with
  | error cause => rfl
  | ok inputs =>
      have hpairs : gate.inputs.map store.pairOf =
          inputs.map WireKeys.pair :=
        KeyStore.map_pairOf_of_mapM_pair
          (KeyStore.mapM_pair_eq_ok_iff.mpr ⟨inputs, hinputs, rfl⟩)
      have hrows : ∀ output : KeyPair,
          (List.range gate.rowCount).mapM
              (gate.garbleRow (scheme hash tag tweakSize) inputs output
                (gate.rowTweak tweakSize store)) =
            (List.range gate.rowCount).mapM
              (gate.garbleRow (scheme rival tag tweakSize) inputs output
                (gate.rowTweak tweakSize store)) := by
        intro output
        apply mapM_congr
        intro row hrow
        have hasked := hsame row (List.mem_range.mp hrow)
        rw [Gate.hashInput, Gate.rowKeys, hpairs] at hasked
        simp only [Gate.garbleRow, sealTweaked_congr hasked]
      have hsize : ∀ hash : List UInt8 → (size : Nat) → Vector UInt8 size,
          (scheme hash tag tweakSize).tweakSize = tweakSize := fun _ => rfl
      simp only [GateError.ofWire, mapError_ok, Stop.ofExcept, ok_bind, hsize,
        hrows]
      rfl

end Hashed

/-! ## Different rows have different inputs -/

theorem Gate.row_eq_of_hashInput_eq
    {gate other : Gate} {store rivals : KeyStore} {tweakSize row line : Nat}
    (hfits : gate.arity ≤ maxArity tweakSize)
    (hsame : gate.hashInput tweakSize store row =
      other.hashInput tweakSize rivals line) :
    gate.number = other.number ∧
      gate.rowKeys store row = other.rowKeys rivals line ∧
      (gate.arity = other.arity →
        gate.rowMask store row = other.rowMask rivals line) := by
  have hlimit : ∀ (gate : Gate) (store : KeyStore) (row : Nat),
      ((gate.rowKeys store row).map WireKey.toBytes).length < 2 ^ 32 := by
    intro gate store row
    rw [List.length_map, length_rowKeys]
    exact gate.arity_lt.trans (by decide)
  obtain ⟨hbytes, htweak⟩ :=
    (Hashed.frames_frame (gate.rowKeys store row)).eq_of_input_eq
      (Hashed.frames_frame (other.rowKeys rivals line))
      (hlimit gate store row) (hlimit other rivals line) hsame
  have hinjective : Function.Injective WireKey.toBytes :=
    fun _ _ => WireKey.toBytes_injective
  refine ⟨number_eq_of_tweak_eq htweak,
    List.map_injective_iff.mpr hinjective hbytes, ?_⟩
  intro harity
  apply masked_eq_of_tweak_eq _ _ htweak
  · exact length_rowMask.trans_le hfits
  · exact length_rowMask.trans (harity.trans length_rowMask.symm)

theorem Gate.hashInput_ne
    {gate other : Gate} {store rivals : KeyStore} {tweakSize row line : Nat}
    (hfits : gate.arity ≤ maxArity tweakSize)
    (hrows : gate.number ≠ other.number ∨
      gate.rowKeys store row ≠ other.rowKeys rivals line ∨
      gate.arity = other.arity ∧
        gate.rowMask store row ≠ other.rowMask rivals line) :
    gate.hashInput tweakSize store row ≠
      other.hashInput tweakSize rivals line := by
  intro hsame
  obtain ⟨hnumber, hkeys, hmask⟩ := row_eq_of_hashInput_eq hfits hsame
  rcases hrows with hother | hother | ⟨harity, hother⟩
  · exact hother hnumber
  · exact hother hkeys
  · exact hother (hmask harity)

namespace Hashed

/-- What is hashed for accepted keys and a tweak gives back both, and a
multi-key gives back its keys.  Garbling depends on the hash at one input for
each row, which is another one for rows with another number, other ordered keys
or, in gates of one arity, other signal bits. -/
theorem input_unambiguous
    (hash : List UInt8 → (size : Nat) → Vector UInt8 size)
    (tag : List UInt8 → List UInt8 → Vector UInt8 tagSize)
    (tweakSize : Nat) :
    (∀ (key : MultiKey) (tweak : List UInt8) (size : Nat),
      (scheme hash tag tweakSize).keystream key tweak size =
        hash (input key tweak) size) ∧
      (∀ (keys : List (List UInt8)) (key : MultiKey),
        (scheme hash tag tweakSize).multiKeyOfBytes keys = .ok key →
          ∀ tweak : List UInt8,
            input key tweak =
              domain ++ (BigEndian.encode 4 keys.length ++ keys.flatten) ++
                tweak) ∧
      (∀ (keys others : List (List UInt8)) (key other : MultiKey),
        (scheme hash tag tweakSize).multiKeyOfBytes keys = .ok key →
        (scheme hash tag tweakSize).multiKeyOfBytes others = .ok other →
          (key = other ↔ keys = others) ∧
          (keys.length < 2 ^ 32 → others.length < 2 ^ 32 →
            ∀ tweak rival : List UInt8,
              input key tweak = input other rival ↔
                keys = others ∧ tweak = rival)) ∧
      (∀ (gate : Gate) (store : KeyStore)
        (rival : List UInt8 → (size : Nat) → Vector UInt8 size),
        (∀ row < gate.rowCount,
          hash (gate.hashInput tweakSize store row)
              (WireKey.size + tagKeySize) =
            rival (gate.hashInput tweakSize store row)
              (WireKey.size + tagKeySize)) →
          gate.garble (scheme hash tag tweakSize) store =
            gate.garble (scheme rival tag tweakSize) store) ∧
      ∀ (gate other : Gate) (store rivals : KeyStore) (table rival : Table),
        gate.garble (scheme hash tag tweakSize) store = .ok table →
        other.garble (scheme hash tag tweakSize) rivals = .ok rival →
          ∀ row line : Nat,
            gate.number ≠ other.number ∨
              gate.rowKeys store row ≠ other.rowKeys rivals line ∨
              gate.arity = other.arity ∧
                gate.rowMask store row ≠ other.rowMask rivals line →
            gate.hashInput tweakSize store row ≠
              other.hashInput tweakSize rivals line := by
  refine ⟨fun _ _ _ => rfl, ?_, ?_, fun _ _ _ => garble_congr, ?_⟩
  · intro keys key hkey tweak
    rw [input, (frames_of_multiKeyOfBytes hkey).material]
  · intro keys others key other hkey hother
    have hframes := frames_of_multiKeyOfBytes hkey
    have hotherFrames := frames_of_multiKeyOfBytes hother
    have hsame : key = other ↔ keys = others := by
      constructor
      · rintro rfl
        exact hframes.unique hotherFrames
      · rintro rfl
        rwa [hkey, Except.ok.injEq] at hother
    refine ⟨hsame, ?_⟩
    intro hlimit hotherLimit tweak rival
    constructor
    · exact hframes.eq_of_input_eq hotherFrames hlimit hotherLimit
    · rintro ⟨hkeys, rfl⟩
      rw [hsame.mpr hkeys]
  · intro gate other store rivals table rival hgarble _ row line hrows
    exact Gate.hashInput_ne (Gate.arity_le_maxArity_of_garble hgarble) hrows

/-- One key before a tweak is told apart from two keys with the same bytes,
and so are the two rows of a gate whose keys are in the opposite order. -/
theorem input_unambiguous_square :
    Scheme.blake3.multiKeyOfBytes ([⟨0⟩].map WireKey.toBytes) =
        .ok ⟨frame [⟨0⟩]⟩ ∧
      Scheme.blake3.multiKeyOfBytes ([⟨0⟩, ⟨1⟩].map WireKey.toBytes) =
        .ok ⟨frame [⟨0⟩, ⟨1⟩]⟩ ∧
      input ⟨frame [⟨0⟩]⟩ (WireKey.toBytes ⟨1⟩) ≠
        input ⟨frame [⟨0⟩, ⟨1⟩]⟩ [] ∧
      (∃ table, Gate.square.garble .blake3 Gate.squareStore = .ok table) ∧
      Gate.square.rowKeys Gate.squareStore 1 =
        (Gate.square.rowKeys Gate.squareStore 2).reverse ∧
      Gate.square.hashInput defaultTweakSize Gate.squareStore 1 ≠
        Gate.square.hashInput defaultTweakSize Gate.squareStore 2 := by
  have hsingle : Scheme.blake3.multiKeyOfBytes
      ([⟨0⟩].map WireKey.toBytes) = .ok ⟨frame [⟨0⟩]⟩ :=
    (Scheme.multiKeyOfBytes_toBytes ..).trans rfl
  have hdouble : Scheme.blake3.multiKeyOfBytes
      ([⟨0⟩, ⟨1⟩].map WireKey.toBytes) = .ok ⟨frame [⟨0⟩, ⟨1⟩]⟩ :=
    (Scheme.multiKeyOfBytes_toBytes ..).trans rfl
  have hpairs : Gate.square.inputs.mapM Gate.squareStore.pair =
      .ok [⟨⟨7⟩, ⟨4⟩⟩, ⟨⟨7⟩, ⟨4⟩⟩] := by decide +kernel
  have houtput : Gate.squareStore.pair Gate.square.firstOutput =
      .ok .unit := by decide +kernel
  obtain ⟨table, hgarble⟩ :
      ∃ table, Gate.square.garble .blake3 Gate.squareStore = .ok table :=
    Gate.exists_garble (cipherSize_scheme ..)
      Gate.built_squareStore.wellFormed (by decide) (by decide +kernel)
      hpairs houtput
  have hkeys : Gate.square.rowKeys Gate.squareStore 1 =
      (Gate.square.rowKeys Gate.squareStore 2).reverse := by decide +kernel
  obtain ⟨_, _, hframed, _, hrows⟩ :=
    input_unambiguous Blake3.hash Blake3.tag defaultTweakSize
  obtain ⟨_, hinputs⟩ := hframed _ _ _ _ hsingle hdouble
  refine ⟨hsingle, hdouble, ?_, ⟨table, hgarble⟩, hkeys, ?_⟩
  · rw [ne_eq, hinputs (by decide) (by decide)]
    decide
  · exact hrows Gate.square Gate.square _ _ table table hgarble hgarble 1 2
      (Or.inr (Or.inl (by decide +kernel)))

end Hashed

end GarbledCircuits
