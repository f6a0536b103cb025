import GarbledCircuits.Cipher.Hashed
import GarbledCircuits.Cipher.Session
import GarbledCircuits.Proofs.Failure
import Mathlib.Tactic

/-!
# The codec of one multi-key and tweak

Under a fixed multi-key and tweak, sealing is a total function of the payload.
Opening inverts it in both directions: a row opens to a payload exactly when it
is the sealing of that payload, so no byte of a row is free.
-/

namespace GarbledCircuits

open Outcome

/-! ## Sizes of sealed rows -/

theorem Hashed.cipherSize_scheme
    (hash : List UInt8 → (size : Nat) → Vector UInt8 size)
    (tag : List UInt8 → List UInt8 → Vector UInt8 tagSize)
    (tweakSize : Nat) : (Hashed.scheme hash tag tweakSize).cipherSize = 32 :=
  rfl

theorem Scheme.cipherSize_pos (scheme : Scheme) : 0 < scheme.cipherSize := by
  unfold Scheme.cipherSize tagSize
  omega

/-! ## Sealing and opening -/

namespace Scheme

variable (scheme : Scheme) (key : MultiKey) (tweak : List UInt8)

def payloadPad : List UInt8 :=
  (scheme.keystream key tweak
    (scheme.payloadSize + tagKeySize)).toList.take scheme.payloadSize

def tagKey : List UInt8 :=
  (scheme.keystream key tweak
    (scheme.payloadSize + tagKeySize)).toList.drop scheme.payloadSize

def sealUnder (plaintext : List UInt8) : List UInt8 :=
  Session.sealWith scheme (scheme.payloadPad key tweak)
    (scheme.tagKey key tweak) plaintext

@[simp] theorem length_payloadPad :
    (scheme.payloadPad key tweak).length = scheme.payloadSize := by
  simp [payloadPad]

@[simp] theorem length_sealUnder (plaintext : List UInt8) :
    (scheme.sealUnder key tweak plaintext).length = scheme.cipherSize := by
  simp [sealUnder, Session.sealWith, cipherSize]

end Scheme

/-- The sealed payload of a row, without the tag at its end. -/
def withoutTag (row : List UInt8) : List UInt8 :=
  row.take (row.length - tagSize)

namespace Session

variable {scheme : Scheme} {session : Session scheme}
  {key : MultiKey} {tweak : List UInt8}

theorem keyed_eq_ok_iff {keys : List WireKey} :
    Session.keyed scheme keys tweak = .ok session ↔
      keys ≠ [] ∧ tweak.length = scheme.tweakSize ∧
        session = ⟨some ⟨scheme.join keys⟩, some tweak⟩ := by
  cases keys with
  | nil => simp [keyed, Scheme.multiKey, bind, Except.bind]
  | cons first rest =>
      by_cases hlength : tweak.length = scheme.tweakSize
      · simp [keyed, Scheme.multiKey, bind, Except.bind, setTweak, setKey,
          hlength, eq_comm]
      · simp [keyed, Scheme.multiKey, bind, Except.bind, setTweak, hlength]

theorem pad_eq_ok
    (hkey : session.key = some key) (htweak : session.tweak = some tweak) :
    session.pad =
      .ok (scheme.payloadPad key tweak, scheme.tagKey key tweak) := by
  simp [pad, hkey, htweak, Scheme.payloadPad, Scheme.tagKey]

theorem checkCipherSize_eq_ok_iff {size : Nat} :
    checkCipherSize scheme size = .ok () ↔ size = scheme.cipherSize := by
  unfold checkCipherSize
  split_ifs with hlong hshort <;> simp <;> omega

theorem encrypt_eq_ok_iff
    (hkey : session.key = some key) (htweak : session.tweak = some tweak)
    {plaintext row : List UInt8} :
    session.encrypt plaintext = .ok row ↔
      plaintext.length ≤ scheme.payloadSize ∧
        scheme.sealUnder key tweak plaintext = row := by
  have hsize : checkCipherSize scheme scheme.cipherSize = .ok () :=
    checkCipherSize_eq_ok_iff.mpr rfl
  simp only [encrypt, encryptSized, ite_throw_eq_ok_iff, not_lt, hsize,
    bind_eq_ok_iff, exists_unit_iff, true_and, pad_eq_ok hkey htweak,
    Except.ok.injEq, exists_eq_left', pure_eq_ok_iff, Scheme.sealUnder]

/-- A row opens to a payload exactly if it is the sealing of it. -/
theorem decrypt_eq_ok_iff
    (hkey : session.key = some key) (htweak : session.tweak = some tweak)
    {row payload : List UInt8} :
    session.decrypt row = .ok payload ↔
      payload.length = scheme.payloadSize ∧
        scheme.sealUnder key tweak payload = row := by
  have hpadLength := scheme.length_payloadPad key tweak
  simp only [decrypt, bind_eq_ok_iff, exists_unit_iff,
    checkCipherSize_eq_ok_iff, pad_eq_ok hkey htweak, Except.ok.injEq,
    exists_eq_left', ite_throw_eq_ok_iff, pure_eq_ok_iff, ne_eq, not_not]
  constructor
  · rintro ⟨hlength, htag, rfl⟩
    have hpayload : (row.take scheme.payloadSize).length =
        (scheme.payloadPad key tweak).length := by
      rw [List.length_take, hpadLength, hlength, Scheme.cipherSize]
      omega
    refine ⟨by simp, ?_⟩
    rw [Scheme.sealUnder, sealWith, maskBytes_maskBytes hpayload, htag,
      List.take_append_drop]
  · rintro ⟨hlength, rfl⟩
    have hmask : (maskBytes (scheme.payloadPad key tweak) payload).length =
        scheme.payloadSize := by simp
    refine ⟨by simp, ?_, ?_⟩
    · simp only [Scheme.sealUnder, sealWith]
      rw [List.take_left' hmask, List.drop_left' hmask]
    · simp only [Scheme.sealUnder, sealWith]
      rw [List.take_left' hmask,
        maskBytes_maskBytes (by rw [hlength, hpadLength])]

/-- A row that opens cannot be given another tag. -/
theorem decrypt_of_other_tag
    {row changed payload : List UInt8}
    (hopen : session.decrypt row = .ok payload)
    (hlength : changed.length = row.length)
    (hpayload : withoutTag changed = withoutTag row) (hne : changed ≠ row) :
    session.decrypt changed = .error .integrityCheckFailed := by
  simp only [decrypt, bind_eq_ok_iff, exists_unit_iff,
    checkCipherSize_eq_ok_iff, Prod.exists, ite_throw_eq_ok_iff, ne_eq,
    not_not] at hopen
  obtain ⟨hsize, pad, tagKey, hpad, htag, _⟩ := hopen
  have hcut : row.length - tagSize = scheme.payloadSize := by
    rw [hsize, Scheme.cipherSize, Nat.add_sub_cancel]
  have htake : changed.take scheme.payloadSize =
      row.take scheme.payloadSize := by
    rwa [withoutTag, withoutTag, hlength, hcut] at hpayload
  have hdrop : row.drop scheme.payloadSize ≠
      changed.drop scheme.payloadSize := by
    intro hsame
    apply hne
    rw [← List.take_append_drop scheme.payloadSize changed, htake, ← hsame,
      List.take_append_drop]
  have hcheck : checkCipherSize scheme changed.length = .ok () :=
    checkCipherSize_eq_ok_iff.mpr (hlength.trans hsize)
  simp only [decrypt, hcheck, hpad, ok_bind, htake, htag, ne_eq, hdrop,
    not_false_eq_true, if_true]
  rfl

end Session

end GarbledCircuits
