import GarbledCircuits.Circuit.Error
import GarbledCircuits.Json.Reading

/-!
# Decoding descriptions

A decoder walks over what was read of a value, in the order of the text, and
stops at the first problem.  The problem may lie in what is described or in
the text, which is why a decoder enters a value that was cut off before it
refuses it.
-/

namespace GarbledCircuits

open Json (Reading)

abbrev Decoder (α : Type) := Reading → Except DescriptionError α

namespace Decoder

def malformed : Except DescriptionError α := .error .malformed

/-- The result of entering a value that was cut off. -/
def afterCut (inner : Except DescriptionError α) :
    Except DescriptionError β := do
  let _ ← inner
  malformed

def map (f : α → β) (decoder : Decoder α) : Decoder β :=
  fun reading => f <$> decoder reading

/-- Decode a value and then judge it as a whole. -/
def refine (check : α → Except DescriptionError β) (decoder : Decoder α) :
    Decoder β :=
  fun reading => decoder reading >>= check

/-! ## Plain values -/

def bool : Decoder Bool
  | .bool value => .ok value
  | _ => malformed

/-- A number below a limit, in digits only. -/
def natural (limit : Nat) : Decoder Nat
  | .number literal =>
      match Decimal.value? literal with
      | some value => if value < limit then .ok value else malformed
      | none => malformed
  | _ => malformed

def textOf (literal : List Char) : Except DescriptionError String :=
  match Quoted.decode? (String.ofList literal) with
  | some text => .ok text
  | none => malformed

/-! ## Lists and absence -/

def list (decoder : Decoder α) : Decoder (List α)
  | .array items => items.mapM decoder
  | .cut (.array items) => afterCut (items.mapM decoder)
  | _ => malformed

def exactly (length : Nat) (decoder : Decoder α) : Decoder (List α) :=
  (list decoder).refine fun items =>
    if items.length = length then .ok items else malformed

def byte : Decoder UInt8 :=
  (natural 256).map UInt8.ofNat

def optional (decoder : Decoder α) : Decoder (Option α)
  | .null => .ok none
  | reading => some <$> decoder reading

/-! ## Names in place of values -/

/-- One of some values by its name. -/
def find (name : α → String) (all : List α) (literal : List Char) :
    Except DescriptionError α := do
  let text ← textOf literal
  match all.find? fun value => name value = text with
  | some value => .ok value
  | none => malformed

/-- One of some values by its name, which stands alone or over null as the
only field of an object. -/
def oneOf (name : α → String) (all : List α) : Decoder α
  | .string literal => find name all literal
  | .object [(literal, .null)] => find name all literal
  | _ => malformed

/-! ## Whole texts -/

/-- Decode a text that holds one value and nothing after it. -/
def ofText (decoder : Decoder α) (text : String) :
    Except DescriptionError α := do
  let document := Json.Document.ofText text
  let value ← decoder document.value
  if document.ended then return value else malformed

end Decoder

end GarbledCircuits
