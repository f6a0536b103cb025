import GarbledCircuits.Bytes.Hex

/-!
# String literals

A string literal is kept as it is written between its quotes, and decoded when
its text is wanted.  An escape of four hexadecimal digits denotes a 16-bit
unit; two of them may form one character, and a half of such a pair that
stands alone denotes no text.
-/

namespace GarbledCircuits.Quoted

/-! ## Writing -/

/-- The escape of a control character without a short form. -/
def unitEscape (value : Nat) : List Char :=
  ['\\', 'u', '0', '0', Hex.digit (value / 16), Hex.digit (value % 16)]

/-- A character as it stands in a literal. -/
def encodeChar (c : Char) : List Char :=
  if c = '"' then ['\\', '"']
  else if c = '\\' then ['\\', '\\']
  else if c = '\n' then ['\\', 'n']
  else if c = '\r' then ['\\', 'r']
  else if c = '\t' then ['\\', 't']
  else if c.toNat = 8 then ['\\', 'b']
  else if c.toNat = 12 then ['\\', 'f']
  else if c.toNat < 32 then unitEscape c.toNat
  else [c]

/-- The literal of a text, without the quotes. -/
def encode (text : String) : String :=
  String.ofList (text.toList.flatMap encodeChar)

/-! ## Reading -/

/-- The value of a hexadecimal digit of either case. -/
def hexValue? (c : Char) : Option Nat :=
  if 65 ≤ c.toNat ∧ c.toNat ≤ 70 then some (c.toNat - 55)
  else Hex.digitValue? c

def unit? (a b c d : Char) : Option Nat := do
  let a ← hexValue? a
  let b ← hexValue? b
  let c ← hexValue? c
  let d ← hexValue? d
  some (4096 * a + 256 * b + 16 * c + d)

/-- The character of a short escape. -/
def shortEscape? (c : Char) : Option Char :=
  match c with
  | '"' => some '"'
  | '\\' => some '\\'
  | '/' => some '/'
  | 'b' => some (Char.ofNat 8)
  | 'f' => some (Char.ofNat 12)
  | 'n' => some '\n'
  | 'r' => some '\r'
  | 't' => some '\t'
  | _ => none

/-- Read a literal up to its closing quote: what stands before the quote, in
reverse after `before`, and the rest of the text.  Control characters and
unknown escapes are refused. -/
def scan (before : List Char) : List Char → Option (List Char × List Char)
  | [] => none
  | '"' :: rest => some (before, rest)
  | '\\' :: 'u' :: a :: b :: c :: d :: rest =>
      if (unit? a b c d).isSome then
        scan (d :: c :: b :: a :: 'u' :: '\\' :: before) rest
      else none
  | '\\' :: c :: rest =>
      if (shortEscape? c).isSome then scan (c :: '\\' :: before) rest
      else none
  | c :: rest => if c.toNat < 32 then none else scan (c :: before) rest

/-- The characters that a literal denotes, in reverse after `before`. -/
def decodeAfter (before : List Char) : List Char → Option (List Char)
  | [] => some before
  | '\\' :: 'u' :: a :: b :: c :: d :: rest => do
      let high ← unit? a b c d
      if high < 0xd800 ∨ 0xdfff < high then
        decodeAfter (Char.ofNat high :: before) rest
      else if 0xdbff < high then none
      else
        match rest with
        | '\\' :: 'u' :: a :: b :: c :: d :: rest => do
            let low ← unit? a b c d
            if low < 0xdc00 ∨ 0xdfff < low then none
            else
              let value := 0x10000 + 1024 * (high - 0xd800) + (low - 0xdc00)
              decodeAfter (Char.ofNat value :: before) rest
        | _ => none
  | '\\' :: c :: rest => do
      let c ← shortEscape? c
      decodeAfter (c :: before) rest
  | c :: rest => decodeAfter (c :: before) rest

/-- The text that a literal denotes, if every half of a pair has its other
half. -/
def decode? (literal : String) : Option String :=
  (decodeAfter [] literal.toList).map fun reversed =>
    String.ofList reversed.reverse

end GarbledCircuits.Quoted
