/-!
# Masking byte strings

A byte string is masked by adding a pad to it modulo two, byte by byte.  Where
the text is shorter than the pad, the rest of the pad shows unchanged, as if
the text had been filled up with zeros.
-/

namespace GarbledCircuits

/-- The pad with `text` added to its first bytes; excess text is ignored. -/
def maskBytes : List UInt8 → List UInt8 → List UInt8
  | [], _ => []
  | pad, [] => pad
  | p :: pad, t :: text => (p ^^^ t) :: maskBytes pad text

@[simp] theorem length_maskBytes (pad text : List UInt8) :
    (maskBytes pad text).length = pad.length := by
  induction pad generalizing text with
  | nil => simp [maskBytes]
  | cons p pad ih => cases text <;> simp [maskBytes, ih]

/-- Masking twice with one pad restores a text of the pad's length. -/
theorem maskBytes_maskBytes
    {pad text : List UInt8} (hlength : text.length = pad.length) :
    maskBytes pad (maskBytes pad text) = text := by
  induction pad generalizing text with
  | nil => simp_all [maskBytes]
  | cons p pad ih =>
      cases text with
      | nil => simp at hlength
      | cons t text =>
          have hbyte : p ^^^ (p ^^^ t) = t := by
            rw [← UInt8.xor_assoc, UInt8.xor_self, UInt8.zero_xor]
          simp only [List.length_cons, Nat.succ.injEq] at hlength
          simp [maskBytes, hbyte, ih hlength]

@[simp] theorem maskBytes_nil (pad : List UInt8) : maskBytes pad [] = pad := by
  cases pad <;> rfl

/-- A text is masked as if it had been filled up with zeros. -/
theorem maskBytes_append_zeros (pad text : List UInt8) (count : Nat) :
    maskBytes pad (text ++ List.replicate count 0) = maskBytes pad text := by
  induction pad generalizing text count with
  | nil => simp [maskBytes]
  | cons p pad ih =>
      cases text with
      | cons t text => simp [maskBytes, ih]
      | nil =>
          cases count with
          | zero => rfl
          | succ count =>
              have hrest : maskBytes pad (List.replicate count 0) = pad := by
                simpa using ih [] count
              simp [maskBytes, List.replicate_succ, hrest]

end GarbledCircuits
