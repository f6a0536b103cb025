import GarbledCircuits.Json.Basic
import GarbledCircuits.Json.Token

/-!
# Reading JSON as far as it goes

Reading a text gives a tree even where the text is not JSON: the tree then
holds what was read before the first fault, and each value in which the fault
lies is marked as cut.  Whoever walks the tree in order therefore meets the
faults of the described thing and the faults of the text in the order of the
text.

Open containers are kept in a list of frames, so depth of nesting costs
nothing.
-/

namespace GarbledCircuits.Json

inductive Reading
  | null
  | bool (value : Bool)
  | number (literal : List Char)
  | string (literal : List Char)
  | array (items : List Reading)
  | object (fields : List (List Char × Reading))
  /-- What was read of a value before the text stopped being JSON. -/
  | cut (before : Reading)
  deriving Inhabited

namespace Reading

/-- A container that is still open, with what it holds so far in reverse; an
object waits for the value of the given field. -/
inductive Frame
  | array (items : List Reading)
  | object (fields : List (List Char × Reading)) (name : List Char)

/-- What the reader looks for next. -/
inductive Place
  /-- A value, or the end of a list that is empty so far. -/
  | value
  /-- The name of a field, or the end of an object that is empty so far. -/
  | name (fields : List (List Char × Reading))
  /-- The colon after a name. -/
  | colon (fields : List (List Char × Reading)) (name : List Char)
  /-- Whatever may follow a value that has been read. -/
  | done (value : Reading)

/-- The innermost value that is not finished, if it has begun. -/
def Place.partial? : Place → Option Reading
  | .value => none
  | .name fields => some (cut (object fields.reverse))
  | .colon fields _ => some (cut (object fields.reverse))
  | .done reading => some reading

/-- Close an open container around what was read of its last value. -/
def Frame.close (inner : Option Reading) : Frame → Reading
  | .array items => cut (.array (inner.toList ++ items).reverse)
  | .object fields name =>
      cut (.object ((inner.map (name, ·)).toList ++ fields).reverse)

/-- Close everything that is open. -/
def abandon (frames : List Frame) (place : Place) : Reading :=
  let inner := frames.foldl
    (fun inner frame => some (frame.close inner)) place.partial?
  inner.getD (cut null)

/-- Move on by one token; `none` where the token does not fit. -/
def step (frames : List Frame) (place : Place) (token : Token) :
    Option (List Frame × Place) :=
  match place, token with
  | .value, .null => some (frames, .done null)
  | .value, .bool value => some (frames, .done (bool value))
  | .value, .number literal => some (frames, .done (number literal))
  | .value, .string literal => some (frames, .done (string literal))
  | .value, .openArray => some (.array [] :: frames, .value)
  | .value, .openObject => some (frames, .name [])
  | .value, .closeArray =>
      match frames with
      | .array [] :: frames => some (frames, .done (array []))
      | _ => none
  | .name [], .closeObject => some (frames, .done (object []))
  | .name fields, .string literal => some (frames, .colon fields literal)
  | .colon fields name, .colon => some (.object fields name :: frames, .value)
  | .done value, .comma =>
      match frames with
      | .array items :: frames =>
          some (.array (value :: items) :: frames, .value)
      | .object fields name :: frames =>
          some (frames, .name ((name, value) :: fields))
      | [] => none
  | .done value, .closeArray =>
      match frames with
      | .array items :: frames =>
          some (frames, .done (array (value :: items).reverse))
      | _ => none
  | .done value, .closeObject =>
      match frames with
      | .object fields name :: frames =>
          some (frames, .done (object ((name, value) :: fields).reverse))
      | _ => none
  | _, _ => none

/-- Read one value, and leave the tokens after it. -/
def read (frames : List Frame) (place : Place) :
    List Token → Reading × List Token
  | [] =>
      match frames, place with
      | [], .done value => (value, [])
      | frames, place => (abandon frames place, [])
  | token :: tokens =>
      match frames, place with
      | [], .done value => (value, token :: tokens)
      | frames, place =>
          match step frames place token with
          | some (frames, place) => read frames place tokens
          | none => (abandon frames place, token :: tokens)

/-! ## Whole texts -/

mutual

/-- A value that has been written, as it is read back. -/
def ofJson : Json → Reading
  | .null => null
  | .bool value => bool value
  | .number value => number (Decimal.digits value)
  | .string text => string (Quoted.encode text).toList
  | .array items => array (ofItems items)
  | .object fields => object (ofFields fields)

def ofItems : List Json → List Reading
  | [] => []
  | item :: items => ofJson item :: ofItems items

def ofFields : List (String × Json) → List (List Char × Reading)
  | [] => []
  | (name, value) :: fields =>
      ((Quoted.encode name).toList, ofJson value) :: ofFields fields

end

end Reading

/-- What a text holds: a first value, and whether anything follows it. -/
structure Document where
  value : Reading
  ended : Bool

def Document.ofText (text : String) : Document :=
  let (value, rest) := Reading.read [] .value (Token.scan text.toList)
  ⟨value, rest.isEmpty⟩

end GarbledCircuits.Json
