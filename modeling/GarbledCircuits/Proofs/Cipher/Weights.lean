import GarbledCircuits.Cipher.FixedKey
import GarbledCircuits.Gate.Rows
import GarbledCircuits.Proofs.Wire.Residue
import Mathlib.Data.List.GetD

/-!
# The weights of joined keys

The scheme over a fixed permutation joins `n` keys to the sum of the residues
`x ^ (n - i) * kᵢ`.  Weights are units, so one exchanged key changes the sum,
and so does an exchange of two keys whose weights differ by a unit.
-/

namespace GarbledCircuits.FixedKey

open WireKey

variable {keys others : List WireKey} {i j : ℕ} {key : WireKey}

theorem combine_append_singleton (keys : List WireKey) (key : WireKey) :
    combine (keys ++ [key]) = (combine keys ^^^ key).double := by
  rw [combine, List.foldl_append, List.foldl_cons, List.foldl_nil, combine]

/-! ## The sum -/

theorem residue_combine (keys : List WireKey) :
    (combine keys).residue = ∑ i ∈ Finset.range keys.length,
      AdjoinRoot.root modulus ^ (keys.length - i) *
        (keys.getD i zero).residue := by
  induction keys using List.reverseRecOn with
  | nil => simp [combine]
  | append_singleton keys key ih =>
      -- The doubling after the last key gives every earlier weight a factor.
      have hterm : ∀ i ∈ Finset.range keys.length,
          AdjoinRoot.root modulus ^ (keys.length + 1 - i) *
              ((keys ++ [key]).getD i zero).residue =
            AdjoinRoot.root modulus *
              (AdjoinRoot.root modulus ^ (keys.length - i) *
                (keys.getD i zero).residue) := by
        intro i hi
        rw [Finset.mem_range] at hi
        rw [List.getD_append _ _ _ _ hi, Nat.succ_sub hi.le, pow_succ',
          mul_assoc]
      rw [combine_append_singleton, residue_double, residue_xor, ih, mul_add,
        Finset.mul_sum, List.length_append, List.length_singleton,
        Finset.sum_range_succ, Finset.sum_congr rfl hterm,
        Nat.add_sub_cancel_left, pow_one,
        List.getD_append_right _ _ _ _ le_rfl, Nat.sub_self,
        List.getD_cons_zero]

theorem residue_combine_eq_sum_getElem (keys : List WireKey) :
    (combine keys).residue = ∑ i : Fin keys.length,
      AdjoinRoot.root modulus ^ (keys.length - i) * keys[i].residue := by
  rw [residue_combine, Finset.sum_range]
  apply Finset.sum_congr rfl
  intro i _
  rw [List.getD_eq_getElem _ _ i.isLt]
  rfl

/-- Lists of one length are joined place by place. -/
theorem combine_zipWith_xor (hlength : others.length = keys.length) :
    combine (List.zipWith (· ^^^ ·) keys others) =
      combine keys ^^^ combine others := by
  apply residue_injective
  have hzip : (List.zipWith (· ^^^ ·) keys others).length = keys.length := by
    rw [List.length_zipWith, hlength, Nat.min_self]
  rw [residue_xor, residue_combine, residue_combine, residue_combine, hzip,
    hlength, ← Finset.sum_add_distrib]
  apply Finset.sum_congr rfl
  intro i hi
  rw [Finset.mem_range] at hi
  rw [← mul_add, ← residue_xor, List.getD_eq_getElem _ _ (hzip ▸ hi),
    List.getElem_zipWith, List.getD_eq_getElem _ _ hi,
    List.getD_eq_getElem _ _ (hlength ▸ hi)]

/-! ## Other keys and another order -/

/-- A key in the place of another adds their difference with the weight of the
place. -/
theorem residue_combine_set (hi : i < keys.length) (key : WireKey) :
    (combine (keys.set i key)).residue = (combine keys).residue +
      AdjoinRoot.root modulus ^ (keys.length - i) *
        (keys[i].residue + key.residue) := by
  have hterm : ∀ j ∈ Finset.range keys.length,
      AdjoinRoot.root modulus ^ (keys.length - j) *
          ((keys.set i key).getD j zero).residue =
        AdjoinRoot.root modulus ^ (keys.length - j) *
            (keys.getD j zero).residue +
          if j = i then AdjoinRoot.root modulus ^ (keys.length - i) *
            (keys[i].residue + key.residue) else 0 := by
    intro j hj
    rw [Finset.mem_range] at hj
    rw [List.getD_eq_getElem _ _ hj, List.getD_eq_getElem _ _ (by simpa),
      List.getElem_set]
    by_cases hij : j = i
    · subst hij
      rw [if_pos rfl, if_pos rfl, ← mul_add, ← add_assoc,
        CharTwo.add_self_eq_zero, zero_add]
    · rw [if_neg (Ne.symm hij), if_neg hij, add_zero]
  rw [residue_combine, List.length_set, Finset.sum_congr rfl hterm,
    Finset.sum_add_distrib, Finset.sum_ite_eq', if_pos (by simpa),
    residue_combine]

theorem combine_set_ne (hi : i < keys.length) (hne : key ≠ keys[i]) :
    combine (keys.set i key) ≠ combine keys := by
  intro hsame
  have hsum := residue_combine_set hi key
  rw [hsame, left_eq_add, (isUnit_root.pow _).mul_right_eq_zero,
    CharTwo.add_eq_zero] at hsum
  exact hne (residue_injective hsum).symm

theorem residue_combine_exchange
    (hi : i < keys.length) (hj : j < keys.length) (hne : i ≠ j) :
    (combine ((keys.set i keys[j]).set j keys[i])).residue =
      (combine keys).residue +
        (AdjoinRoot.root modulus ^ (keys.length - i) +
            AdjoinRoot.root modulus ^ (keys.length - j)) *
          (keys[i].residue + keys[j].residue) := by
  have hlast : j < (keys.set i keys[j]).length := by simpa
  rw [residue_combine_set hlast, residue_combine_set hi, List.length_set,
    List.getElem_set_ne hne, add_assoc, add_mul,
    add_comm keys[j].residue keys[i].residue]

/-- Keys a power of two apart have weights that differ by a unit. -/
theorem combine_exchange_ne
    (hi : i < keys.length) (hj : j < keys.length) {k : ℕ}
    (hdistance : j - i = 2 ^ k) (hne : keys[i] ≠ keys[j]) :
    combine ((keys.set i keys[j]).set j keys[i]) ≠ combine keys := by
  have hpos : 0 < 2 ^ k := Nat.two_pow_pos k
  have hweight : AdjoinRoot.root modulus ^ (keys.length - i) +
      AdjoinRoot.root modulus ^ (keys.length - j) =
        (AdjoinRoot.root modulus ^ 2 ^ k + 1) *
          AdjoinRoot.root modulus ^ (keys.length - j) := by
    have hsplit : keys.length - i = 2 ^ k + (keys.length - j) := by omega
    rw [hsplit, pow_add, add_mul, one_mul]
  intro hsame
  have hsum := residue_combine_exchange hi hj (by omega)
  rw [hsame, left_eq_add, hweight,
    ((isUnit_root_pow_two_pow_add_one k).mul
      (isUnit_root.pow _)).mul_right_eq_zero, CharTwo.add_eq_zero] at hsum
  exact hne (residue_injective hsum)

theorem combine_exchange_ne_of_near
    (hi : i < keys.length) (hj : j < keys.length)
    (hnear : j = i + 1 ∨ j = i + 2) (hne : keys[i] ≠ keys[j]) :
    combine ((keys.set i keys[j]).set j keys[i]) ≠ combine keys := by
  rcases hnear with hnext | hsecond
  · have hdistance : j - i = 2 ^ 0 := by omega
    exact combine_exchange_ne hi hj hdistance hne
  · have hdistance : j - i = 2 ^ 1 := by omega
    exact combine_exchange_ne hi hj hdistance hne

/-- A tweak of the default size has words for three signal bits. -/
theorem combine_exchange_ne_of_fits
    (hfits : keys.length ≤ maxArity defaultTweakSize)
    (hi : i < keys.length) (hj : j < keys.length) (hne : keys[i] ≠ keys[j]) :
    combine ((keys.set i keys[j]).set j keys[i]) ≠ combine keys := by
  have harity : keys.length ≤ 3 := hfits
  rcases lt_trichotomy i j with hlt | heq | hgt
  · exact combine_exchange_ne_of_near hi hj (by omega) hne
  · subst heq
    exact absurd rfl hne
  · rw [List.set_comm _ _ hgt.ne']
    exact combine_exchange_ne_of_near hj hi (by omega) hne.symm

/-! ## Multi-keys -/

section

variable (permutation : WireKey → WireKey)
  (tag : List UInt8 → List UInt8 → Vector UInt8 tagSize)

theorem multiKeyOfBytes_eq_ok (hkeys : keys ≠ []) :
    (scheme permutation tag).multiKeyOfBytes (keys.map toBytes) =
      .ok ⟨(combine keys).toBytes⟩ := by
  rw [Scheme.multiKeyOfBytes_toBytes, Scheme.multiKey,
    if_neg (by rwa [List.isEmpty_iff])]
  rfl

theorem multiKeyOfBytes_ne
    (hkeys : keys ≠ []) (hlength : others.length = keys.length)
    (hne : combine others ≠ combine keys) :
    (scheme permutation tag).multiKeyOfBytes (others.map toBytes) ≠
      (scheme permutation tag).multiKeyOfBytes (keys.map toBytes) := by
  have hothers : others ≠ [] := by
    rintro rfl
    exact hkeys (List.length_eq_zero_iff.mp hlength.symm)
  rw [multiKeyOfBytes_eq_ok permutation tag hkeys,
    multiKeyOfBytes_eq_ok permutation tag hothers]
  intro hsame
  rw [Except.ok.injEq, MultiKey.mk.injEq] at hsame
  exact hne (toBytes_injective hsame)

/-- Keys are residues, and the multi-key of `n` keys is the sum of the
residues `x ^ (n - i) * kᵢ`.  It is additive in the list of keys, and it is
another one if a key is replaced or if two different keys at most two places
apart are exchanged, which are any two keys of a gate that fits the tweak. -/
theorem weights_follow_position (hkeys : keys ≠ []) :
    (∀ key : WireKey, BigEndian.decode key.toBytes = key.bits.toNat) ∧
      Function.Bijective residue ∧
      (∀ key other : WireKey,
        (key ^^^ other).toBytes =
            List.zipWith (· ^^^ ·) key.toBytes other.toBytes ∧
          (key ^^^ other).residue = key.residue + other.residue) ∧
      (∀ key : WireKey,
        key.double.residue = AdjoinRoot.root modulus * key.residue) ∧
      Function.Bijective double ∧
      (∀ key other : WireKey,
        (key ^^^ other).double = key.double ^^^ other.double) ∧
      (scheme permutation tag).multiKeyOfBytes (keys.map toBytes) =
        .ok ⟨(combine keys).toBytes⟩ ∧
      (combine keys).residue = ∑ i : Fin keys.length,
        AdjoinRoot.root modulus ^ (keys.length - i) * keys[i].residue ∧
      (∀ others : List WireKey, others.length = keys.length →
        combine (List.zipWith (· ^^^ ·) keys others) =
          combine keys ^^^ combine others) ∧
      (∀ (i : ℕ) (hi : i < keys.length) (key : WireKey), key ≠ keys[i] →
        (scheme permutation tag).multiKeyOfBytes
            ((keys.set i key).map toBytes) ≠
          (scheme permutation tag).multiKeyOfBytes (keys.map toBytes)) ∧
      ∀ (i j : ℕ) (hi : i < keys.length) (hj : j < keys.length),
        keys[i] ≠ keys[j] →
        j = i + 1 ∨ j = i + 2 ∨ keys.length ≤ maxArity defaultTweakSize →
          (scheme permutation tag).multiKeyOfBytes
              (((keys.set i keys[j]).set j keys[i]).map toBytes) ≠
            (scheme permutation tag).multiKeyOfBytes
              (keys.map toBytes) := by
  refine ⟨decode_toBytes, residue_bijective,
    fun key other => ⟨toBytes_xor key other, residue_xor key other⟩,
    residue_double, double_bijective, double_xor,
    multiKeyOfBytes_eq_ok permutation tag hkeys,
    residue_combine_eq_sum_getElem keys,
    fun others hlength => combine_zipWith_xor hlength, ?_, ?_⟩
  · intro i hi key hne
    exact multiKeyOfBytes_ne permutation tag hkeys List.length_set
      (combine_set_ne hi hne)
  · intro i j hi hj hne hplaces
    have hlength : ((keys.set i keys[j]).set j keys[i]).length =
        keys.length := by
      rw [List.length_set, List.length_set]
    apply multiKeyOfBytes_ne permutation tag hkeys hlength
    rcases hplaces with hnext | hsecond | hfits
    · exact combine_exchange_ne_of_near hi hj (Or.inl hnext) hne
    · exact combine_exchange_ne_of_near hi hj (Or.inr hsecond) hne
    · exact combine_exchange_ne_of_fits hfits hi hj hne

end

/-- The first two keys cancel out, and the last one overflows. -/
def threeKeys : List WireKey :=
  [⟨1⟩, ⟨2⟩, ⟨BitVec.twoPow 128 127⟩]

theorem weights_follow_position_three :
    threeKeys ≠ [] ∧
      Scheme.fixedKeyAes.multiKeyOfBytes (threeKeys.map toBytes) =
        .ok ⟨List.replicate 15 0 ++ [0x87]⟩ ∧
      residue ⟨0x87⟩ = ∑ i : Fin threeKeys.length,
        AdjoinRoot.root modulus ^ (threeKeys.length - i) *
          threeKeys[i].residue ∧
      Scheme.fixedKeyAes.multiKeyOfBytes
          ([⟨BitVec.twoPow 128 127⟩, ⟨2⟩, ⟨1⟩].map toBytes) ≠
        Scheme.fixedKeyAes.multiKeyOfBytes (threeKeys.map toBytes) := by
  have hkeys : threeKeys ≠ [] := by decide
  have hcombine : combine threeKeys = ⟨0x87⟩ := by decide
  have hbytes : toBytes ⟨0x87⟩ = List.replicate 15 0 ++ [0x87] := by decide
  obtain ⟨_, _, _, _, _, _, hjoined, hsum, _, _, hexchange⟩ :=
    weights_follow_position permuteBlock Blake3.tag hkeys
  rw [hcombine] at hsum hjoined
  rw [hbytes] at hjoined
  exact ⟨hkeys, hjoined, hsum, hexchange 0 2 (by decide) (by decide)
    (by decide) (by decide)⟩

end GarbledCircuits.FixedKey
