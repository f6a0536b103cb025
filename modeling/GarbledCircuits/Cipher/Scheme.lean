import GarbledCircuits.Cipher.Error
import GarbledCircuits.Wire.Key

/-!
# Tweakable multi-key encryption

The rows of a garbled table are sealed under an ordered list of wire keys and
a tweak.  A scheme says how the keys are joined to one multi-key, how a
multi-key and a tweak are stretched to a pad, and how a sealed payload is
authenticated.  The sizes of pads and tags stand in their types, and nothing
else is assumed of a scheme.
-/

namespace GarbledCircuits

inductive SchemeKind
  | fixedKeyAes
  | blake3
  deriving DecidableEq, Repr

namespace SchemeKind

def all : List SchemeKind := [fixedKeyAes, blake3]

def name : SchemeKind → String
  | fixedKeyAes => "AesFixedKey"
  | blake3 => "Blake3"

def label : SchemeKind → String
  | fixedKeyAes => "aes-fixed-key"
  | blake3 => "blake3"

end SchemeKind

/-- What the ordered keys of one row are joined to. -/
structure MultiKey where
  material : List UInt8
  deriving DecidableEq

def MultiKey.describe (key : MultiKey) : String :=
  s!"MultiKey({key.material.length} bytes)"

def tagSize : Nat := 16

/-- The count of keystream bytes, after those of the pad, that key the tag. -/
def tagKeySize : Nat := 32

/-- A word for the gate number and three for signal bits. -/
def defaultTweakSize : Nat := 16

structure Scheme where
  kind : SchemeKind
  /-- The count of bytes that a row hides. -/
  payloadSize : Nat := WireKey.size
  tweakSize : Nat := defaultTweakSize
  /-- The material of the multi-key of some keys. -/
  join : List WireKey → List UInt8
  /-- The first bytes of the keystream of a multi-key and a tweak. -/
  keystream : MultiKey → List UInt8 → (size : Nat) → Vector UInt8 size
  /-- The tag of a sealed payload under a key of `tagKeySize` bytes. -/
  tag : List UInt8 → List UInt8 → Vector UInt8 tagSize

namespace Scheme

def keySize (_ : Scheme) : Nat := WireKey.size

def cipherSize (scheme : Scheme) : Nat :=
  scheme.payloadSize + tagSize

/-- The same scheme with sealed rows of at least `tagSize` bytes. -/
def withCipherSize (scheme : Scheme) (size : Nat) : Scheme :=
  { scheme with payloadSize := size - tagSize }

def multiKey (scheme : Scheme) (keys : List WireKey) :
    Except CipherError MultiKey :=
  if keys.isEmpty then .error .emptyMultiKey else .ok ⟨scheme.join keys⟩

/-- The multi-key of keys given as bytes, each of the size of a key. -/
def multiKeyOfBytes (scheme : Scheme) (keys : List (List UInt8)) :
    Except CipherError MultiKey :=
  match keys.find? fun key => key.length ≠ scheme.keySize with
  | some key => .error (.invalidKey scheme.keySize key.length)
  | none => scheme.multiKey (keys.map WireKey.ofBytes)

theorem multiKeyOfBytes_toBytes (scheme : Scheme) (keys : List WireKey) :
    scheme.multiKeyOfBytes (keys.map WireKey.toBytes) =
      scheme.multiKey keys := by
  have hfind :
      (keys.map WireKey.toBytes).find?
          (fun key => key.length ≠ scheme.keySize) = none := by
    simp [List.find?_eq_none, keySize]
  have hmap :
      (keys.map WireKey.toBytes).map WireKey.ofBytes = keys := by
    simp [List.map_map, Function.comp_def]
  unfold multiKeyOfBytes
  rw [hfind, hmap]

end Scheme

end GarbledCircuits
