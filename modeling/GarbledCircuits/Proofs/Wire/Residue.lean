import GarbledCircuits.Wire.Key
import Mathlib.Algebra.CharP.Algebra
import Mathlib.Algebra.CharP.Two
import Mathlib.Algebra.Field.ZMod
import Mathlib.RingTheory.AdjoinRoot
import Mathlib.Tactic

/-!
# Wire keys as residues

Bit `i` of a key is the coefficient of `x ^ i` of a polynomial over GF(2).  In
this way the keys are the residues modulo `x^128 + x^7 + x^2 + x + 1`: keys are
added as residues are, and to double a key is to multiply its residue by `x`.
Both `x` and `x + 1` are units, as the modulus has no root.
-/

namespace GarbledCircuits.WireKey

open Polynomial

noncomputable def modulus : (ZMod 2)[X] :=
  X ^ 128 + X ^ 7 + X ^ 2 + X + 1

abbrev Residue := AdjoinRoot modulus

theorem monic_modulus : modulus.Monic := by
  unfold modulus
  monicity!

theorem degree_modulus : modulus.degree = 128 := by
  unfold modulus
  compute_degree!

theorem natDegree_modulus : modulus.natDegree = 128 :=
  natDegree_eq_of_degree_eq_some degree_modulus

theorem eval_modulus (a : ZMod 2) : modulus.eval a = 1 := by
  unfold modulus
  simp only [eval_add, eval_pow, eval_X, eval_one]
  revert a
  decide +kernel

instance : Nontrivial Residue :=
  AdjoinRoot.nontrivial modulus <| degree_ne_of_natDegree_ne <| by
    rw [natDegree_modulus]
    decide

instance : CharP Residue 2 :=
  charP_of_injective_algebraMap (algebraMap (ZMod 2) Residue).injective 2

/-! ## Units -/

/-- The modulus has no root, so no linear factor divides zero. -/
theorem isUnit_root_sub (a : ZMod 2) :
    IsUnit (AdjoinRoot.root modulus - AdjoinRoot.of modulus a) := by
  have hroot : ¬X - C a ∣ modulus := by
    rw [dvd_iff_isRoot, IsRoot.def, eval_modulus]
    decide
  obtain ⟨left, right, hsum⟩ :=
    (irreducible_X_sub_C a).coprime_iff_not_dvd.mpr hroot
  apply IsUnit.of_mul_eq_one_right (AdjoinRoot.mk modulus left)
  have hmk := congrArg (AdjoinRoot.mk modulus) hsum
  rwa [map_add, map_mul, map_mul, AdjoinRoot.mk_self, mul_zero, add_zero,
    map_sub, AdjoinRoot.mk_X, AdjoinRoot.mk_C, map_one] at hmk

theorem isUnit_root : IsUnit (AdjoinRoot.root modulus) := by
  have hunit := isUnit_root_sub 0
  rwa [map_zero, sub_zero] at hunit

/-- No power of two is a period of the powers of the root. -/
theorem isUnit_root_pow_two_pow_add_one (k : ℕ) :
    IsUnit (AdjoinRoot.root modulus ^ 2 ^ k + 1) := by
  have hunit := isUnit_root_sub 1
  rw [map_one, CharTwo.sub_eq_add] at hunit
  have hpow := hunit.pow (2 ^ k)
  rwa [add_pow_char_pow, one_pow] at hpow

/-! ## Keys and polynomials -/

def coefficient (bit : Bool) : ZMod 2 :=
  if bit then 1 else 0

theorem coefficient_xor (bit other : Bool) :
    coefficient (bit ^^ other) = coefficient bit + coefficient other := by
  revert bit other
  decide

theorem coefficient_injective : Function.Injective coefficient := by
  decide

noncomputable def polynomial (key : WireKey) : (ZMod 2)[X] :=
  ∑ i ∈ Finset.range 128, C (coefficient (key.bits.getLsbD i)) * X ^ i

theorem coeff_polynomial (key : WireKey) (n : ℕ) :
    key.polynomial.coeff n = coefficient (key.bits.getLsbD n) := by
  simp only [polynomial, finsetSum_coeff, coeff_C_mul, coeff_X_pow,
    mul_ite, mul_one, mul_zero, Finset.sum_ite_eq, Finset.mem_range]
  by_cases hn : n < 128
  · rw [if_pos hn]
  · rw [if_neg hn, BitVec.getLsbD_of_ge _ _ (not_lt.mp hn)]
    rfl

theorem degree_polynomial_lt (key : WireKey) :
    key.polynomial.degree < modulus.degree := by
  rw [degree_modulus]
  apply (degree_lt_iff_coeff_zero _ 128).mpr
  intro n hn
  rw [coeff_polynomial, BitVec.getLsbD_of_ge _ _ hn]
  rfl

theorem polynomial_injective : Function.Injective polynomial := by
  intro key other hsame
  have hbits : key.bits = other.bits := by
    apply BitVec.eq_of_getLsbD_eq
    intro i _
    apply coefficient_injective
    rw [← coeff_polynomial, hsame, coeff_polynomial]
  cases key
  cases other
  exact congrArg mk hbits

theorem polynomial_xor (key other : WireKey) :
    (key ^^^ other).polynomial = key.polynomial + other.polynomial := by
  ext n
  rw [coeff_add, coeff_polynomial, coeff_polynomial, coeff_polynomial,
    bits_xor, BitVec.getLsbD_xor, coefficient_xor]

theorem polynomial_zero : zero.polynomial = 0 := by
  ext n
  simp [coeff_polynomial, zero, coefficient]

theorem polynomial_twoPow {i : ℕ} (hi : i < 128) :
    polynomial ⟨BitVec.twoPow 128 i⟩ = X ^ i := by
  ext n
  rw [coeff_polynomial, BitVec.getLsbD_twoPow, coeff_X_pow]
  by_cases hn : n = i
  · simp [hn, hi, coefficient]
  · simp [hn, Ne.symm hn, coefficient]

/-- Every polynomial that is reduced is that of a key. -/
theorem exists_polynomial_eq {p : (ZMod 2)[X]} (hp : p.natDegree < 128) :
    ∃ key : WireKey, key.polynomial = p := by
  rw [p.as_sum_range' 128 hp]
  apply Finset.sum_induction _ fun q => ∃ key : WireKey, key.polynomial = q
  · rintro _ _ ⟨key, rfl⟩ ⟨other, rfl⟩
    exact ⟨key ^^^ other, polynomial_xor key other⟩
  · exact ⟨zero, polynomial_zero⟩
  · intro i hi
    by_cases hcoeff : p.coeff i = 0
    · exact ⟨zero, by rw [hcoeff, monomial_zero_right, polynomial_zero]⟩
    · have hone : p.coeff i = 1 := Fin.eq_one_of_ne_zero _ hcoeff
      refine ⟨⟨BitVec.twoPow 128 i⟩, ?_⟩
      rw [polynomial_twoPow (Finset.mem_range.mp hi), hone,
        monomial_one_right_eq_X_pow]

/-- What overflows on doubling is taken off the modulus. -/
theorem polynomial_overflow :
    polynomial ⟨0x87⟩ = X ^ 7 + X ^ 2 + X + 1 := by
  have hbits : (⟨0x87⟩ : WireKey) = ⟨BitVec.twoPow 128 7⟩ ^^^
      ⟨BitVec.twoPow 128 2⟩ ^^^ ⟨BitVec.twoPow 128 1⟩ ^^^
        ⟨BitVec.twoPow 128 0⟩ := by decide
  rw [hbits, polynomial_xor, polynomial_xor, polynomial_xor,
    polynomial_twoPow (by decide), polynomial_twoPow (by decide),
    polynomial_twoPow (by decide), polynomial_twoPow (by decide), pow_one,
    pow_zero]

theorem polynomial_shift (key : WireKey) :
    polynomial ⟨key.bits <<< 1⟩ =
      X * key.polynomial + C (coefficient key.bits.msb) * X ^ 128 := by
  ext n
  rw [coeff_polynomial, BitVec.getLsbD_shiftLeft, coeff_add, coeff_C_mul,
    coeff_X_pow]
  cases n with
  | zero => simp [coefficient]
  | succ n =>
      rw [coeff_X_mul, coeff_polynomial]
      rcases lt_trichotomy (n + 1) 128 with hlt | heq | hgt
      · simp [hlt, hlt.ne]
      · -- The highest bit leaves the word, and its power is added again.
        have hlast : n = 127 := by omega
        simp [hlast, BitVec.msb_eq_getLsbD_last, coefficient,
          CharTwo.add_self_eq_zero]
      · have hout : key.bits.getLsbD n = false :=
          BitVec.getLsbD_of_ge _ _ (by omega)
        simp [hout, hgt.ne', hgt.not_gt, coefficient]

theorem polynomial_double (key : WireKey) :
    key.double.polynomial =
      X * key.polynomial + C (coefficient key.bits.msb) * modulus := by
  by_cases hmsb : key.bits.msb
  · have hdouble : key.double = ⟨key.bits <<< 1⟩ ^^^ ⟨0x87⟩ := by
      rw [double, if_pos hmsb]
      rfl
    have hone : C (coefficient true) = (1 : (ZMod 2)[X]) := map_one C
    rw [hdouble, polynomial_xor, polynomial_shift, polynomial_overflow, hmsb,
      hone, one_mul, one_mul]
    unfold modulus
    ring
  · have hdouble : key.double = ⟨key.bits <<< 1⟩ := by
      rw [double, if_neg hmsb]
      exact congrArg mk BitVec.xor_zero
    rw [hdouble, polynomial_shift, Bool.eq_false_iff.mpr hmsb]
    simp [coefficient]

/-! ## Keys and residues -/

noncomputable def residue (key : WireKey) : Residue :=
  AdjoinRoot.mk modulus key.polynomial

theorem residue_injective : Function.Injective residue := by
  intro key other hsame
  apply polynomial_injective
  have hmod := congrArg (AdjoinRoot.modByMonicHom monic_modulus) hsame
  rwa [residue, residue, AdjoinRoot.modByMonicHom_mk,
    AdjoinRoot.modByMonicHom_mk,
    (modByMonic_eq_self_iff monic_modulus).mpr key.degree_polynomial_lt,
    (modByMonic_eq_self_iff monic_modulus).mpr other.degree_polynomial_lt]
    at hmod

theorem residue_surjective : Function.Surjective residue := by
  intro x
  obtain ⟨p, rfl⟩ := AdjoinRoot.mk_surjective x
  have hne : modulus ≠ 1 := by
    apply ne_of_apply_ne natDegree
    rw [natDegree_modulus, natDegree_one]
    decide
  have hdegree : (p %ₘ modulus).natDegree < 128 := by
    rw [← natDegree_modulus]
    exact natDegree_modByMonic_lt p monic_modulus hne
  obtain ⟨key, hkey⟩ := exists_polynomial_eq hdegree
  refine ⟨key, ?_⟩
  rw [residue, hkey, ← AdjoinRoot.modByMonicHom_mk monic_modulus]
  exact AdjoinRoot.mk_leftInverse monic_modulus _

theorem residue_bijective : Function.Bijective residue :=
  ⟨residue_injective, residue_surjective⟩

@[simp] theorem residue_xor (key other : WireKey) :
    (key ^^^ other).residue = key.residue + other.residue := by
  rw [residue, polynomial_xor, map_add]
  rfl

@[simp] theorem residue_zero : zero.residue = 0 := by
  rw [residue, polynomial_zero, map_zero]

@[simp] theorem residue_double (key : WireKey) :
    key.double.residue = AdjoinRoot.root modulus * key.residue := by
  rw [residue, polynomial_double, map_add, map_mul, map_mul,
    AdjoinRoot.mk_self, mul_zero, add_zero, AdjoinRoot.mk_X]
  rfl

theorem double_xor (key other : WireKey) :
    (key ^^^ other).double = key.double ^^^ other.double := by
  apply residue_injective
  simp only [residue_double, residue_xor, mul_add]

theorem double_bijective : Function.Bijective double := by
  have hcomp : residue ∘ double =
      (AdjoinRoot.root modulus * ·) ∘ residue := by
    funext key
    exact residue_double key
  have hroot : Function.Bijective (AdjoinRoot.root modulus * ·) :=
    IsUnit.isUnit_iff_mulLeft_bijective.mp isUnit_root
  rw [← residue_bijective.of_comp_iff', hcomp]
  exact hroot.comp residue_bijective

end GarbledCircuits.WireKey
