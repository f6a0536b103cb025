import GarbledCircuits.Json.Reading
import Mathlib.Data.List.TakeWhile
import Mathlib.Tactic

/-!
# Scanning JSON text

The text of a value is scanned as the tokens of the value.  A string literal
ends at its closing quote, as quotes within it are escaped, and a numeral ends
where the next token starts, as no other token starts like the inside of a
number.
-/

namespace GarbledCircuits

/-! ## String literals -/

namespace Quoted

/-- The ways in which a character may stand in a literal that is written. -/
inductive Denotes (c : Char) : List Char → Prop
  | plain (hquote : c ≠ '"') (hslash : c ≠ '\\') (hvisible : 32 ≤ c.toNat) :
      Denotes c [c]
  | short {escape : Char} (hshort : escape ≠ 'u')
      (hescape : shortEscape? escape = some c) : Denotes c ['\\', escape]
  | unit {high low : Char} (hcontrol : c.toNat < 32)
      (hunit : unit? '0' '0' high low = some c.toNat) :
      Denotes c ['\\', 'u', '0', '0', high, low]

theorem unit?_digits : ∀ value, value < 32 →
    unit? '0' '0' (Hex.digit (value / 16)) (Hex.digit (value % 16)) =
      some value := by
  decide

theorem denotes_encodeChar (c : Char) : Denotes c (encodeChar c) := by
  unfold encodeChar
  split_ifs with hquote hslash hline hreturn htab hback hform hcontrol
  · subst hquote
    exact .short (by decide) rfl
  · subst hslash
    exact .short (by decide) rfl
  · subst hline
    exact .short (by decide) rfl
  · subst hreturn
    exact .short (by decide) rfl
  · subst htab
    exact .short (by decide) rfl
  · refine .short (by decide) ?_
    rw [← Char.ofNat_toNat c, hback]
    rfl
  · refine .short (by decide) ?_
    rw [← Char.ofNat_toNat c, hform]
    rfl
  · exact .unit hcontrol (unit?_digits c.toNat hcontrol)
  · exact .plain hquote hslash (by omega)

variable {c : Char} {literal : List Char}

theorem Denotes.scan (hdenotes : Denotes c literal)
    (before rest : List Char) :
    scan before (literal ++ rest) = scan (literal.reverse ++ before) rest := by
  cases hdenotes with
  | plain hquote hslash hvisible =>
      have hnone : ¬ c.toNat < 32 := by omega
      simp [Quoted.scan, hslash, hnone]
  | short hshort hescape => simp [Quoted.scan, hshort, hescape]
  | unit hcontrol hunit => simp [Quoted.scan, hunit]

theorem Denotes.decodeAfter (hdenotes : Denotes c literal)
    (before rest : List Char) :
    decodeAfter before (literal ++ rest) = decodeAfter (c :: before) rest := by
  cases hdenotes with
  | plain hquote hslash hvisible => simp [Quoted.decodeAfter, hslash]
  | short hshort hescape => simp [Quoted.decodeAfter, hshort, hescape]
  | unit hcontrol hunit =>
      have hlow : c.toNat < 0xd800 := by omega
      simp [Quoted.decodeAfter, hunit, hlow]

theorem scan_flatMap_encodeChar (before text rest : List Char) :
    scan before (text.flatMap encodeChar ++ '"' :: rest) =
      some ((text.flatMap encodeChar).reverse ++ before, rest) := by
  induction text generalizing before with
  | nil => rfl
  | cons c text ih =>
      rw [List.flatMap_cons, List.append_assoc,
        (denotes_encodeChar c).scan, ih, List.reverse_append,
        List.append_assoc]

theorem decodeAfter_flatMap_encodeChar (before text : List Char) :
    decodeAfter before (text.flatMap encodeChar) =
      some (text.reverse ++ before) := by
  induction text generalizing before with
  | nil => rfl
  | cons c text ih =>
      rw [List.flatMap_cons, (denotes_encodeChar c).decodeAfter, ih,
        List.reverse_cons, List.append_assoc, List.singleton_append]

theorem decode?_encode (text : String) : decode? (encode text) = some text := by
  simp [decode?, encode, decodeAfter_flatMap_encodeChar]

end Quoted

/-! ## Numerals -/

namespace Json

namespace Token

open Decimal (digit digits)

theorem isDigit_digit : ∀ value, value < 10 → isDigit (digit value) := by
  decide

theorem exists_eq_digit {c : Char} (hc : isDigit c) :
    ∃ value < 10, c = digit value := by
  have hbounds : 48 ≤ c.toNat ∧ c.toNat ≤ 57 := of_decide_eq_true hc
  refine ⟨c.toNat - 48, by omega, ?_⟩
  rw [digit, Nat.add_sub_of_le hbounds.1, Char.ofNat_toNat]

theorem isDigit_of_mem_digits (n : Nat) : ∀ c ∈ digits n, isDigit c := by
  fun_induction digits n with
  | case1 n hn =>
      intro c hc
      rw [List.mem_singleton.mp hc]
      exact isDigit_digit n hn
  | case2 n hn ih =>
      intro c hc
      rcases List.mem_append.mp hc with hfront | hlast
      · exact ih c hfront
      · rw [List.mem_singleton.mp hlast]
        exact isDigit_digit _ (by omega)

theorem inNumber_of_isDigit {c : Char} (hc : isDigit c) : inNumber c := by
  simp [inNumber, hc]

theorem isNumber_digits (n : Nat) : isNumber (digits n) := by
  have hall := isDigit_of_mem_digits n
  cases hdigits : digits n with
  | nil => exact absurd hdigits (Decimal.digits_ne_nil n)
  | cons c rest =>
      rw [hdigits, List.forall_mem_cons] at hall
      obtain ⟨hc, hrest⟩ := hall
      have hdrop : rest.dropWhile isDigit = [] :=
        List.dropWhile_eq_nil_iff.mpr hrest
      have hsign : c ≠ '-' := by
        rintro rfl
        exact absurd hc (by decide)
      by_cases hzero : c = '0'
      · have hn : n = 0 := by
          by_contra hn
          apply Decimal.head?_digits_ne_zero hn
          rw [hdigits, hzero]
          rfl
        rw [hn] at hdigits
        have hnil : rest = [] := by
          rw [digits] at hdigits
          simp at hdigits
          exact hdigits.2
        rw [hzero, hnil]
        rfl
      · simp [isNumber, isUnsigned, hsign, hzero, digitsThen, hc, hdrop,
          isFraction, isExponent]

theorem first_digit {value : Nat} (hvalue : value < 10) (rest : List Char) :
    first (digit value) rest =
      if isNumber (digit value :: rest.takeWhile inNumber) then
        (.number (digit value :: rest.takeWhile inNumber),
          rest.dropWhile inNumber)
      else (.broken, []) := by
  interval_cases value <;> rfl

/-- A numeral ends where the text goes on with something else. -/
theorem first_digits {n : Nat} {c : Char} {tail rest : List Char}
    (hdigits : digits n = c :: tail) (hrest : rest.takeWhile inNumber = []) :
    first c (tail ++ rest) = (.number (digits n), rest) := by
  have hall := isDigit_of_mem_digits n
  rw [hdigits, List.forall_mem_cons] at hall
  obtain ⟨hc, htail⟩ := hall
  obtain ⟨value, hvalue, rfl⟩ := exists_eq_digit hc
  have htake : (tail ++ rest).takeWhile inNumber = tail := by
    rw [List.takeWhile_append_of_pos fun c hc =>
      inNumber_of_isDigit (htail c hc), hrest, List.append_nil]
  have hdrop : (tail ++ rest).dropWhile inNumber = rest := by
    have happend :
        tail ++ (tail ++ rest).dropWhile inNumber = tail ++ rest := by
      nth_rewrite 1 [← htake]
      exact List.takeWhile_append_dropWhile
    exact List.append_cancel_left happend
  rw [first_digit hvalue, htake, hdrop, ← hdigits, if_pos (isNumber_digits n)]

/-! ## Texts of values -/

theorem scanAfter_append (before extra : List Token) (text : List Char) :
    scanAfter (before ++ extra) text = scanAfter before text ++ extra := by
  fun_induction scanAfter before text with
  | case1 before => simp [scanAfter]
  | case2 before c rest hblank ih =>
      rw [scanAfter, if_pos hblank]
      exact ih
  | case3 before c rest hblank ih =>
      rw [scanAfter, if_neg hblank]
      exact ih

theorem scan_of_first {c : Char} {text rest : List Char} {token : Token}
    (hblank : isBlank c = false) (hfirst : first c text = (token, rest)) :
    scan (c :: text) = token :: scan rest := by
  have hstep : scanAfter [] (c :: text) = scanAfter ([] ++ [token]) rest := by
    rw [scanAfter, hblank, hfirst]
    rfl
  rw [scan, hstep, scanAfter_append, List.reverse_append]
  rfl

def spell : Token → List Char
  | openArray => ['[']
  | closeArray => [']']
  | openObject => ['\x7b']
  | closeObject => ['\x7d']
  | comma => [',']
  | colon => [':']
  | null => ['n', 'u', 'l', 'l']
  | bool true => ['t', 'r', 'u', 'e']
  | bool false => ['f', 'a', 'l', 's', 'e']
  | number literal => literal
  | string literal => '"' :: literal ++ ['"']
  | broken => []

def spellAll (tokens : List Token) : List Char :=
  tokens.flatMap spell

theorem scan_number (n : Nat) {rest : List Char}
    (hrest : rest.takeWhile inNumber = []) :
    scan (digits n ++ rest) = .number (digits n) :: scan rest := by
  have hall := isDigit_of_mem_digits n
  cases hdigits : digits n with
  | nil => exact absurd hdigits (Decimal.digits_ne_nil n)
  | cons c tail =>
      have hfirst := first_digits hdigits hrest
      rw [hdigits] at hall hfirst
      obtain ⟨value, hvalue, rfl⟩ :=
        exists_eq_digit (hall c List.mem_cons_self)
      have hblank : isBlank (digit value) = false := by
        interval_cases value <;> rfl
      exact scan_of_first hblank hfirst

theorem scan_string (text rest : List Char) :
    scan ('"' :: text.flatMap Quoted.encodeChar ++ '"' :: rest) =
      .string (text.flatMap Quoted.encodeChar) :: scan rest := by
  have hfirst : first '"'
      (text.flatMap Quoted.encodeChar ++ '"' :: rest) =
        (.string (text.flatMap Quoted.encodeChar), rest) := by
    simp [first, mark?, Quoted.scan_flatMap_encodeChar]
  exact scan_of_first rfl hfirst

end Token

mutual

def tokens : Json → List Token
  | .null => [.null]
  | .bool value => [.bool value]
  | .number value => [.number (Decimal.digits value)]
  | .string text => [.string (Quoted.encode text).toList]
  | .array items => .openArray :: itemTokens [] items ++ [.closeArray]
  | .object fields => .openObject :: fieldTokens [] fields ++ [.closeObject]

/-- The tokens of some values, the first of which comes after `mark`. -/
def itemTokens (mark : List Token) : List Json → List Token
  | [] => []
  | item :: items => mark ++ tokens item ++ itemTokens [.comma] items

def fieldTokens (mark : List Token) : List (String × Json) → List Token
  | [] => []
  | (name, value) :: fields =>
      mark ++ .string (Quoted.encode name).toList :: .colon :: tokens value ++
        fieldTokens [.comma] fields

end

theorem toList_quote (text : String) :
    (quote text).toList =
      Token.spell (.string (Quoted.encode text).toList) := by
  simp [quote, Token.spell]

mutual

theorem toList_write (out : String) (value : Json) :
    (write out value).toList =
      out.toList ++ Token.spellAll (tokens value) := by
  cases value with
  | null => simp [write, tokens, Token.spellAll, Token.spell]
  | bool value =>
      cases value <;> simp [write, tokens, Token.spellAll, Token.spell]
  | number value =>
      simp [write, tokens, Token.spellAll, Token.spell, Decimal.render]
  | string text =>
      simp [write, tokens, Token.spellAll, Token.spell, toList_quote]
  | array items =>
      have hitems := toList_writeItems (out ++ "[") "" [] rfl items
      simp [write, tokens, hitems, Token.spellAll, Token.spell]
  | object fields =>
      have hfields := toList_writeFields (out ++ "\x7b") "" [] rfl fields
      simp [write, tokens, hfields, Token.spellAll, Token.spell]

theorem toList_writeItems (out mark : String) (marks : List Token)
    (hmark : mark.toList = Token.spellAll marks) (items : List Json) :
    (writeItems out mark items).toList =
      out.toList ++ Token.spellAll (itemTokens marks items) := by
  cases items with
  | nil => simp [writeItems, itemTokens, Token.spellAll]
  | cons item items =>
      have hitem := toList_write (out ++ mark) item
      have hitems := toList_writeItems (write (out ++ mark) item) "," [.comma]
        rfl items
      simp [writeItems, itemTokens, Token.spellAll, hitem, hitems, hmark]

theorem toList_writeFields (out mark : String) (marks : List Token)
    (hmark : mark.toList = Token.spellAll marks)
    (fields : List (String × Json)) :
    (writeFields out mark fields).toList =
      out.toList ++ Token.spellAll (fieldTokens marks fields) := by
  match fields with
  | [] => simp [writeFields, fieldTokens, Token.spellAll]
  | (name, value) :: fields =>
      have hvalue := toList_write (out ++ mark ++ quote name ++ ":") value
      have hfields := toList_writeFields
        (write (out ++ mark ++ quote name ++ ":") value) "," [.comma] rfl fields
      simp [writeFields, fieldTokens, Token.spellAll, Token.spell, hvalue,
        hfields, hmark, toList_quote]

end

open Token (scan scan_of_first inNumber spellAll)

theorem takeWhile_inNumber_items {rest : List Char}
    (hrest : rest.takeWhile inNumber = []) (items : List Json) :
    (spellAll (itemTokens [.comma] items) ++ rest).takeWhile inNumber = [] := by
  cases items with
  | nil => exact hrest
  | cons item items => rfl

theorem takeWhile_inNumber_fields {rest : List Char}
    (hrest : rest.takeWhile inNumber = []) (fields : List (String × Json)) :
    (spellAll (fieldTokens [.comma] fields) ++ rest).takeWhile inNumber =
      [] := by
  cases fields with
  | nil => exact hrest
  | cons field fields => rfl

-- A numeral goes on as long as the text does with characters of numbers, so
-- each value needs a text after it that starts with no such character.  After
-- an item or a field this is a comma or the end of its container.
mutual

theorem scan_tokens (value : Json) (rest : List Char)
    (hrest : rest.takeWhile inNumber = []) :
    scan (spellAll (tokens value) ++ rest) = tokens value ++ scan rest := by
  cases value with
  | null => exact scan_of_first rfl rfl
  | bool value =>
      cases value
      · exact scan_of_first rfl rfl
      · exact scan_of_first rfl rfl
  | number value =>
      simpa [tokens, spellAll, Token.spell] using Token.scan_number value hrest
  | string text =>
      simpa [tokens, spellAll, Token.spell, Quoted.encode] using
        Token.scan_string text.toList rest
  | array items =>
      have hclose : scan (']' :: rest) = .closeArray :: scan rest :=
        scan_of_first rfl rfl
      have hitems := scan_itemTokens [] (fun _ => rfl) items (']' :: rest) rfl
      have hopen :
          scan ('[' :: (spellAll (itemTokens [] items) ++ ']' :: rest)) =
            .openArray ::
              scan (spellAll (itemTokens [] items) ++ ']' :: rest) :=
        scan_of_first rfl rfl
      rw [hitems, hclose] at hopen
      simpa [tokens, spellAll, Token.spell] using hopen
  | object fields =>
      have hclose : scan ('\x7d' :: rest) = .closeObject :: scan rest :=
        scan_of_first rfl rfl
      have hfields :=
        scan_fieldTokens [] (fun _ => rfl) fields ('\x7d' :: rest) rfl
      have hopen :
          scan ('\x7b' ::
              (spellAll (fieldTokens [] fields) ++ '\x7d' :: rest)) =
            .openObject ::
              scan (spellAll (fieldTokens [] fields) ++ '\x7d' :: rest) :=
        scan_of_first rfl rfl
      rw [hfields, hclose] at hopen
      simpa [tokens, spellAll, Token.spell] using hopen

theorem scan_itemTokens (marks : List Token)
    (hmarks : ∀ text, scan (spellAll marks ++ text) = marks ++ scan text)
    (items : List Json) (rest : List Char)
    (hrest : rest.takeWhile inNumber = []) :
    scan (spellAll (itemTokens marks items) ++ rest) =
      itemTokens marks items ++ scan rest := by
  cases items with
  | nil => rfl
  | cons item items =>
      have hcomma : ∀ text,
          scan (spellAll [.comma] ++ text) = [.comma] ++ scan text :=
        fun text => scan_of_first rfl rfl
      have hitems := scan_itemTokens [.comma] hcomma items rest hrest
      have hitem := scan_tokens item
        (spellAll (itemTokens [.comma] items) ++ rest)
        (takeWhile_inNumber_items hrest items)
      have hmark := hmarks (spellAll (tokens item) ++
        (spellAll (itemTokens [.comma] items) ++ rest))
      rw [hitem, hitems] at hmark
      simpa [itemTokens, spellAll] using hmark

theorem scan_fieldTokens (marks : List Token)
    (hmarks : ∀ text, scan (spellAll marks ++ text) = marks ++ scan text)
    (fields : List (String × Json)) (rest : List Char)
    (hrest : rest.takeWhile inNumber = []) :
    scan (spellAll (fieldTokens marks fields) ++ rest) =
      fieldTokens marks fields ++ scan rest := by
  match fields with
  | [] => rfl
  | (name, value) :: fields =>
      have hcomma : ∀ text,
          scan (spellAll [.comma] ++ text) = [.comma] ++ scan text :=
        fun text => scan_of_first rfl rfl
      have hfields := scan_fieldTokens [.comma] hcomma fields rest hrest
      have hvalue := scan_tokens value
        (spellAll (fieldTokens [.comma] fields) ++ rest)
        (takeWhile_inNumber_fields hrest fields)
      rw [hfields] at hvalue
      have hcolon : ∀ text, scan (':' :: text) = .colon :: scan text :=
        fun text => scan_of_first rfl rfl
      have hname := Token.scan_string name.toList
        (':' :: (spellAll (tokens value) ++
          (spellAll (fieldTokens [.comma] fields) ++ rest)))
      rw [hcolon, hvalue] at hname
      have hmark := hmarks
        ('"' :: name.toList.flatMap Quoted.encodeChar ++ '"' ::
          ':' :: (spellAll (tokens value) ++
            (spellAll (fieldTokens [.comma] fields) ++ rest)))
      rw [hname] at hmark
      simpa [fieldTokens, spellAll, Token.spell, Quoted.encode] using hmark

end

theorem scan_render (value : Json) :
    scan value.render.toList = tokens value := by
  have htokens := scan_tokens value [] rfl
  have hnil : scan [] = [] := by
    rw [scan, Token.scanAfter]
    rfl
  rw [render, toList_write]
  simpa [hnil] using htokens

end Json

end GarbledCircuits
