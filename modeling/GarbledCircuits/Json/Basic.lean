import GarbledCircuits.Text.Decimal
import GarbledCircuits.Text.Quoted

/-!
# JSON values and their text

Everything that this library writes as JSON is made of natural numbers, truth
values, texts, lists and records.  The text has no spaces, and the fields of a
record keep their order.
-/

namespace GarbledCircuits

inductive Json
  | null
  | bool (value : Bool)
  | number (value : Nat)
  | string (text : String)
  | array (items : List Json)
  | object (fields : List (String × Json))
  deriving Inhabited

namespace Json

/-! ## Text -/

def quote (text : String) : String :=
  "\"" ++ Quoted.encode text ++ "\""

mutual

def write (out : String) : Json → String
  | null => out ++ "null"
  | bool value => out ++ (if value then "true" else "false")
  | number value => out ++ Decimal.render value
  | string text => out ++ quote text
  | array items => writeItems (out ++ "[") "" items ++ "]"
  | object fields => writeFields (out ++ "\x7b") "" fields ++ "\x7d"

/-- Append the texts of values, each after a mark that separates it from the
one before. -/
def writeItems (out mark : String) : List Json → String
  | [] => out
  | item :: items => writeItems (write (out ++ mark) item) "," items

def writeFields (out mark : String) : List (String × Json) → String
  | [] => out
  | (name, value) :: fields =>
      writeFields (write (out ++ mark ++ quote name ++ ":") value) "," fields

end

def render (value : Json) : String :=
  write "" value

/-! ## Values -/

/-- A list of values, each written by `f`. -/
def list (f : α → Json) (items : List α) : Json :=
  array (items.map f)

def option (f : α → Json) : Option α → Json
  | none => null
  | some value => f value

def ofBytes (bytes : List UInt8) : Json :=
  list (fun byte => number byte.toNat) bytes

def ofBits (bits : List Bool) : Json :=
  list bool bits

end Json

end GarbledCircuits
