import GarbledCircuits.Text.Quoted

/-!
# JSON tokens

A text is cut into tokens up to the first place where it stops being JSON.
Numbers and strings are kept as they are written.
-/

namespace GarbledCircuits.Json

inductive Token
  | openArray
  | closeArray
  | openObject
  | closeObject
  | comma
  | colon
  | null
  | bool (value : Bool)
  | number (literal : List Char)
  | string (literal : List Char)
  /-- From here on the text is not JSON. -/
  | broken
  deriving DecidableEq

namespace Token

/-! ## Numbers -/

def isDigit (c : Char) : Bool :=
  decide (48 ≤ c.toNat ∧ c.toNat ≤ 57)

def inNumber (c : Char) : Bool :=
  isDigit c || c = '-' || c = '+' || c = '.' || c = 'e' || c = 'E'

/-- Digits, at least one, and then something that satisfies `next`. -/
def digitsThen (next : List Char → Bool) (literal : List Char) : Bool :=
  match literal with
  | [] => false
  | c :: rest => isDigit c && next (rest.dropWhile isDigit)

def isExponent : List Char → Bool
  | [] => true
  | c :: rest =>
      (c = 'e' || c = 'E') &&
        match rest with
        | '+' :: rest => digitsThen List.isEmpty rest
        | '-' :: rest => digitsThen List.isEmpty rest
        | rest => digitsThen List.isEmpty rest

def isFraction : List Char → Bool
  | '.' :: rest => digitsThen isExponent rest
  | rest => isExponent rest

/-- Digits without a needless zero, a fraction and an exponent. -/
def isUnsigned : List Char → Bool
  | '0' :: rest => isFraction rest
  | rest => digitsThen isFraction rest

def isNumber : List Char → Bool
  | '-' :: rest => isUnsigned rest
  | rest => isUnsigned rest

/-! ## Scanning -/

/-- A token that is one character. -/
def mark? (c : Char) : Option Token :=
  match c with
  | '[' => some openArray
  | ']' => some closeArray
  | '\x7b' => some openObject
  | '\x7d' => some closeObject
  | ',' => some comma
  | ':' => some colon
  | _ => none

def isBlank (c : Char) : Bool :=
  c = ' ' || c = '\n' || c = '\t' || c = '\r'

/-- The token at the front of a text that does not start with a blank, and
the text after it. -/
def first (c : Char) (rest : List Char) : Token × List Char :=
  match mark? c with
  | some token => (token, rest)
  | none =>
      match c, rest with
      | 'n', 'u' :: 'l' :: 'l' :: rest => (null, rest)
      | 't', 'r' :: 'u' :: 'e' :: rest => (bool true, rest)
      | 'f', 'a' :: 'l' :: 's' :: 'e' :: rest => (bool false, rest)
      | '"', rest =>
          match Quoted.scan [] rest with
          | some (literal, rest) => (string literal.reverse, rest)
          | none => (broken, [])
      | c, rest =>
          let literal := c :: rest.takeWhile inNumber
          if isNumber literal then (number literal, rest.dropWhile inNumber)
          else (broken, [])

theorem length_quoted_scan {before text literal rest : List Char}
    (hscan : Quoted.scan before text = some (literal, rest)) :
    rest.length ≤ text.length := by
  fun_induction Quoted.scan before text with
  | case1 => cases hscan
  | case2 => cases hscan; simp
  | case3 =>
      rename_i ih
      have := ih hscan
      simp only [List.length_cons]
      omega
  | case4 => cases hscan
  | case5 =>
      rename_i ih
      have := ih hscan
      simp only [List.length_cons]
      omega
  | case6 => cases hscan
  | case7 => cases hscan
  | case8 =>
      rename_i ih
      have := ih hscan
      simp only [List.length_cons]
      omega

theorem length_first (c : Char) (rest : List Char) :
    (first c rest).2.length ≤ rest.length := by
  unfold first
  split
  · simp
  · split
    · simp only [List.length_cons]
      omega
    · simp only [List.length_cons]
      omega
    · simp only [List.length_cons]
      omega
    · split
      next hscan => exact length_quoted_scan hscan
      next => simp
    · simp only
      split
      · exact (List.dropWhile_sublist _).length_le
      · simp

/-- The tokens of a text, in reverse after `before`. -/
def scanAfter (before : List Token) (text : List Char) : List Token :=
  match text with
  | [] => before
  | c :: rest =>
      if isBlank c then scanAfter before rest
      else scanAfter ((first c rest).1 :: before) (first c rest).2
termination_by text.length
decreasing_by
  · simp
  · have := length_first c rest
    simp only [List.length_cons]
    omega

def scan (text : List Char) : List Token :=
  (scanAfter [] text).reverse

end Token

end GarbledCircuits.Json
