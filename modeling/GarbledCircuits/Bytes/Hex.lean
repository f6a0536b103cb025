/-!
# Hexadecimal text of byte strings

Byte strings are written as two lower-case digits a byte.  Reading accepts
what writing produces: `parse?_render` says that every byte string comes back
from its text.
-/

namespace GarbledCircuits.Hex

/-- The lower-case digit of a value below sixteen. -/
def digit (value : Nat) : Char :=
  if value < 10 then Char.ofNat (48 + value) else Char.ofNat (87 + value)

/-- The value of a lower-case hexadecimal digit. -/
def digitValue? (c : Char) : Option Nat :=
  if 48 ≤ c.toNat ∧ c.toNat ≤ 57 then some (c.toNat - 48)
  else if 97 ≤ c.toNat ∧ c.toNat ≤ 102 then some (c.toNat - 87)
  else none

def digits (bytes : List UInt8) : List Char :=
  bytes.flatMap fun byte =>
    [digit (byte.toNat / 16), digit (byte.toNat % 16)]

/-- The bytes that a list of digits spells, if it is a whole number of them. -/
def bytes? : List Char → Option (List UInt8)
  | [] => some []
  | [_] => none
  | high :: low :: rest => do
      let h ← digitValue? high
      let l ← digitValue? low
      let bytes ← bytes? rest
      some (UInt8.ofNat (16 * h + l) :: bytes)

def render (bytes : List UInt8) : String :=
  String.ofList (digits bytes)

def parse? (text : String) : Option (List UInt8) :=
  bytes? text.toList

theorem digitValue?_digit :
    ∀ value, value < 16 → digitValue? (digit value) = some value := by
  decide

theorem bytes?_digits (bytes : List UInt8) :
    bytes? (digits bytes) = some bytes := by
  induction bytes with
  | nil => rfl
  | cons byte bytes ih =>
      have hbyte : byte.toNat < 256 := byte.toNat_lt
      have hhigh := digitValue?_digit (byte.toNat / 16) (by omega)
      have hlow := digitValue?_digit (byte.toNat % 16) (by omega)
      have hjoin :
          UInt8.ofNat (16 * (byte.toNat / 16) + byte.toNat % 16) = byte := by
        rw [Nat.div_add_mod]
        exact UInt8.ofNat_toNat
      change
        bytes?
            (digit (byte.toNat / 16) :: digit (byte.toNat % 16) ::
              digits bytes) =
          some (byte :: bytes)
      simp only [bytes?, hhigh, hlow, ih, Option.bind_eq_bind,
        Option.bind_some, hjoin]

theorem parse?_render (bytes : List UInt8) :
    parse? (render bytes) = some bytes := by
  simp [parse?, render, bytes?_digits]

end GarbledCircuits.Hex
