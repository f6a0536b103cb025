import GarbledCircuits.Bytes.Mask
import GarbledCircuits.Cipher.Scheme

/-!
# Sealing and opening rows

A session holds the multi-key and the tweak under which rows are sealed and
opened.  A sealed row is the masked payload followed by a tag over it, so a
row opens only if it is the one sealing of what it holds.
-/

namespace GarbledCircuits

structure Session (scheme : Scheme) where
  key : Option MultiKey := none
  tweak : Option (List UInt8) := none

namespace Session

variable {scheme : Scheme}

def setKey (session : Session scheme) (key : MultiKey) : Session scheme :=
  { session with key := some key }

def setTweak (session : Session scheme) (tweak : List UInt8) :
    Except CipherError (Session scheme) :=
  if tweak.length ≠ scheme.tweakSize then
    .error (.invalidTweak scheme.tweakSize tweak.length)
  else .ok { session with tweak := some tweak }

def keyed (scheme : Scheme) (keys : List WireKey) (tweak : List UInt8) :
    Except CipherError (Session scheme) := do
  let key ← scheme.multiKey keys
  (({} : Session scheme).setKey key).setTweak tweak

def pad (session : Session scheme) :
    Except CipherError (List UInt8 × List UInt8) :=
  match session.key, session.tweak with
  | none, _ => .error .keyNotSet
  | some _, none => .error .tweakNotSet
  | some key, some tweak =>
      let stream :=
        (scheme.keystream key tweak (scheme.payloadSize + tagKeySize)).toList
      .ok (stream.take scheme.payloadSize, stream.drop scheme.payloadSize)

def checkCipherSize (scheme : Scheme) (actual : Nat) :
    Except CipherError Unit :=
  if scheme.cipherSize < actual then
    .error (.ciphertextTooLong actual scheme.cipherSize)
  else if actual < scheme.cipherSize then
    .error (.ciphertextTooShort actual scheme.cipherSize)
  else .ok ()

/-- The sealed row of a pad, a tag key and a payload. -/
def sealWith (scheme : Scheme) (pad tagKey plaintext : List UInt8) :
    List UInt8 :=
  let payload := maskBytes pad plaintext
  payload ++ (scheme.tag tagKey payload).toList

/-- Seal a payload, filled up with zeros, for a buffer of a given size. -/
def encryptSized (session : Session scheme) (plaintext : List UInt8)
    (size : Nat) : Except CipherError (List UInt8) := do
  if scheme.payloadSize < plaintext.length then
    throw (.plaintextTooLong plaintext.length scheme.payloadSize)
  checkCipherSize scheme size
  let (pad, tagKey) ← session.pad
  return sealWith scheme pad tagKey plaintext

/-- Seal a payload into a buffer of the size of a row: what the buffer holds
afterwards, and whether sealing went well. -/
def encryptInto (session : Session scheme) (plaintext buffer : List UInt8) :
    List UInt8 × Except CipherError Unit :=
  match session.encryptSized plaintext buffer.length with
  | .ok row => (row, .ok ())
  | .error cause => (buffer, .error cause)

def encrypt (session : Session scheme) (plaintext : List UInt8) :
    Except CipherError (List UInt8) :=
  session.encryptSized plaintext scheme.cipherSize

/-- Check the tag of a sealed row and return its payload. -/
def decrypt (session : Session scheme) (row : List UInt8) :
    Except CipherError (List UInt8) := do
  checkCipherSize scheme row.length
  let (pad, tagKey) ← session.pad
  let payload := row.take scheme.payloadSize
  let tag := row.drop scheme.payloadSize
  if (scheme.tag tagKey payload).toList ≠ tag then
    throw .integrityCheckFailed
  return maskBytes pad payload

end Session

end GarbledCircuits
