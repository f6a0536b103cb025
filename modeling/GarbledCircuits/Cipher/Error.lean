import GarbledCircuits.Fault

/-!
# Errors of the row cipher
-/

namespace GarbledCircuits

inductive CipherError
  | invalidKey (expected actual : Nat)
  | emptyMultiKey
  | keyNotSet
  | tweakNotSet
  | invalidTweak (expected actual : Nat)
  | unsupportedTweakSize (size : Nat)
  | plaintextTooLong (actual limit : Nat)
  | ciphertextTooLong (actual expected : Nat)
  | ciphertextTooShort (actual expected : Nat)
  | integrityCheckFailed
  deriving DecidableEq, Repr

namespace CipherError

def fault : CipherError → Fault
  | keyNotSet | tweakNotSet | unsupportedTweakSize _ => .configuration
  | integrityCheckFailed => .cryptoFailure
  | invalidKey .. | emptyMultiKey | invalidTweak .. | plaintextTooLong ..
  | ciphertextTooLong .. | ciphertextTooShort .. => .malformedInput

def message : CipherError → String
  | invalidKey expected actual =>
      s!"Invalid key: expected {expected} bytes, got {actual}"
  | emptyMultiKey => "Multi-key requires at least one key"
  | keyNotSet => "Key not set"
  | tweakNotSet => "Tweak not set"
  | invalidTweak expected actual =>
      s!"Invalid tweak: expected {expected} bytes, got {actual}"
  | unsupportedTweakSize size =>
      s!"Tweak size {size} is not supported by this scheme"
  | plaintextTooLong actual limit =>
      s!"Plaintext too long: {actual} bytes, limit is {limit}"
  | ciphertextTooLong actual expected =>
      s!"Ciphertext too long: {actual} bytes, cipher size is {expected}"
  | ciphertextTooShort actual expected =>
      s!"Ciphertext too short: {actual} bytes, cipher size is {expected}"
  | integrityCheckFailed => "Decrypted row failed the integrity check"

end CipherError

end GarbledCircuits
