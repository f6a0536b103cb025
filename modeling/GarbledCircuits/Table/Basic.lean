import GarbledCircuits.Fault

/-!
# Garbled tables

A table is a byte string that is read in rows of one size.  The tables of a
circuit are sent one after the other without headers, and the receiver cuts
them apart by the number of rows that each gate needs.  Counts and sizes are
64-bit words; sums and products of them are checked.
-/

namespace GarbledCircuits

/-- Sizes and counts are below this limit. -/
def wordLimit : Nat := UInt64.size

inductive TableError
  | zeroRowSize
  | partialRow (length rowSize : Nat)
  | tableCount (expected actual : Nat)
  | rowCount (index expected actual : Nat)
  | rowSize (index expected actual : Nat)
  | length (expected actual : Nat)
  | translationLength (expected actual : Nat)
  | translationByte (index : Nat) (value : UInt8)
  deriving DecidableEq, Repr

namespace TableError

def fault (_ : TableError) : Fault := .malformedInput

def message : TableError → String
  | zeroRowSize => "Row size must be non-zero"
  | partialRow bytes size =>
      s!"Table of {bytes} bytes is not a whole number of {size}-byte rows"
  | tableCount expected actual =>
      s!"Expected {expected} garbled tables, got {actual}"
  | rowCount index expected actual =>
      s!"Table {index}: expected {expected} rows, got {actual}"
  | rowSize index expected actual =>
      s!"Table {index}: expected {expected}-byte rows, got {actual}"
  | length expected actual =>
      s!"Serialized tables: expected {expected} bytes, got {actual}"
  | translationLength expected actual =>
      s!"Translation table: expected {expected} entries, got {actual}"
  | translationByte index value =>
      s!"Translation table byte {index} is {value}, expected 0 or 1"

end TableError

/-! ## One table -/

/-- The rows of one gate, in the order of their positions. -/
structure Table where
  bytes : List UInt8
  rowSize : Nat
  deriving DecidableEq, Inhabited

namespace Table

/-- A table of whole rows. -/
def ofBytes (bytes : List UInt8) (rowSize : Nat) : Except TableError Table :=
  if rowSize = 0 then .error .zeroRowSize
  else if bytes.length % rowSize ≠ 0 then
    .error (.partialRow bytes.length rowSize)
  else .ok ⟨bytes, rowSize⟩

def rows (table : Table) : Nat :=
  table.bytes.length / table.rowSize

/-- Whether the rows have no size.  Such a table was not checked, and counting
its rows has no answer. -/
def unsized (table : Table) : Bool :=
  table.rowSize == 0

/-- Where the row at a position starts and ends, unless the start is no
64-bit word. -/
def rowBounds? (table : Table) (position : Nat) : Option (Nat × Nat) :=
  let start := position * table.rowSize
  if start < wordLimit then some (start, start + table.rowSize) else none

/-- Whether the row at a position starts at a 64-bit word and ends past the
last one.  The end is not checked, so looking up such a row has no answer. -/
def overruns (table : Table) (position : Nat) : Bool :=
  (table.rowBounds? position).any fun (_, last) => wordLimit ≤ last

def row (table : Table) (position : Nat) : Option (List UInt8) := do
  let (first, last) ← table.rowBounds? position
  if last ≤ table.bytes.length then
    some ((table.bytes.drop first).take table.rowSize)
  else none

def flip (table : Table) (index : Nat) (mask : UInt8) : Table :=
  { table with bytes := table.bytes.modify index (· ^^^ mask) }

def describe (table : Table) : String :=
  s!"GarbledTable \x7b rows: {table.rows}, row_size: {table.rowSize} \x7d"

end Table

/-! ## The tables of a circuit -/

abbrev Tables := List Table

namespace Tables

def toBytes (tables : Tables) : List UInt8 :=
  tables.flatMap Table.bytes

/-- Whether the tables from number `index` on have the given row counts. -/
def checkRows (rowSize index : Nat) :
    Tables → List Nat → Except TableError Unit
  | table :: tables, count :: counts =>
      if table.rowSize ≠ rowSize then
        .error (.rowSize index rowSize table.rowSize)
      else if table.rows ≠ count then
        .error (.rowCount index count table.rows)
      else checkRows rowSize (index + 1) tables counts
  | _, _ => .ok ()

/-- Whether there is one table for each row count, with rows of one size. -/
def checkLayout (tables : Tables) (rowCounts : List Nat) (rowSize : Nat) :
    Except TableError Unit :=
  if tables.length ≠ rowCounts.length then
    .error (.tableCount rowCounts.length tables.length)
  else checkRows rowSize 0 tables rowCounts

def checkedMul? (a b : Nat) : Option Nat :=
  if a * b < wordLimit then some (a * b) else none

def checkedAdd? (a b : Nat) : Option Nat :=
  if a + b < wordLimit then some (a + b) else none

/-- The count of bytes in tables of the given row counts, unless it or a part
of it is no 64-bit word. -/
def flatSize? (rowCounts : List Nat) (rowSize : Nat) : Option Nat :=
  rowCounts.foldlM
    (fun total count => do checkedAdd? total (← checkedMul? count rowSize)) 0

/-- Whether bytes are as many as tables of the given row counts have. -/
def checkLength (bytes : List UInt8) (rowCounts : List Nat) (rowSize : Nat) :
    Except TableError Unit :=
  if rowSize = 0 then .error .zeroRowSize
  else
    let expected := flatSize? rowCounts rowSize
    if expected ≠ some bytes.length then
      .error (.length (expected.getD (wordLimit - 1)) bytes.length)
    else .ok ()

/-- Cut bytes into tables, one after the other. -/
def cut (rowSize : Nat) : List Nat → List UInt8 → Tables
  | [], _ => []
  | count :: counts, bytes =>
      ⟨bytes.take (count * rowSize), rowSize⟩ ::
        cut rowSize counts (bytes.drop (count * rowSize))

/-- Cut bytes into tables of the given row counts that use them up. -/
def ofBytes (bytes : List UInt8) (rowCounts : List Nat) (rowSize : Nat) :
    Except TableError Tables := do
  checkLength bytes rowCounts rowSize
  return cut rowSize rowCounts bytes

/-- The bytes between two offsets that are in order and within the bytes. -/
def slice? (bytes : List UInt8) (first last : Nat) : Option (List UInt8) :=
  if first ≤ last ∧ last ≤ bytes.length then
    some ((bytes.drop first).take (last - first))
  else none

/-- Cut the tables from an offset on.  There is no result where a product or a
sum is no 64-bit word or a slice is out of range. -/
def cutAt? (bytes : List UInt8) (rowSize : Nat) :
    Nat → List Nat → Option Tables
  | _, [] => some []
  | offset, count :: counts => do
      let size ← checkedMul? count rowSize
      let last ← checkedAdd? offset size
      let own ← slice? bytes offset last
      return ⟨own, rowSize⟩ :: (← cutAt? bytes rowSize last counts)

/-- Check the total, and only then cut by offsets. -/
def ofBytesAt? (bytes : List UInt8) (rowCounts : List Nat) (rowSize : Nat) :
    Option (Except TableError Tables) :=
  match checkLength bytes rowCounts rowSize with
  | .error cause => some (.error cause)
  | .ok () => (cutAt? bytes rowSize 0 rowCounts).map .ok

end Tables

end GarbledCircuits
