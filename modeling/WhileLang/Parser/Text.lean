import WhileLang.Parser.Basic
import WhileLang.Text.Decimal

/-!
# Parsers for Plain Text

Parsers whose input is a list of characters. A number can be any beginning of
a run of digits, the longest first, as long as it has at most 64 bits; a name
is always the whole run of letters and digits.

## Main definitions

* `Parser.literal`: A given text.
* `Parser.number`: A number.
* `Parser.word`: A name of lower-case letters and digits.
-/

namespace WhileLang

namespace Parser

/-- A given text. -/
def literal (expected : List Char) : Parser Char (List Char) :=
  fun input => if expected.isPrefixOf input then [(expected, input.drop expected.length)] else []

/-- The non-empty beginnings of a list, longest first, each with the rest of the list. -/
def splits : List Char → List (List Char × List Char)
  | [] => []
  | c :: cs => (splits cs).map (fun s => (c :: s.1, s.2)) ++ [([c], cs)]

/-- The longest number of signed 64 bits is below this bound. -/
def numberBound : Nat := 0x8000000000000000

/-- A number of at most 64 bits, by any beginning of a run of digits. -/
def number : Parser Char Nat :=
  fun input =>
    let rest := input.dropWhile Char.isDigit
    -- A beginning that is too large is passed over, a shorter one may fit.
    (splits (input.takeWhile Char.isDigit)).filterMap fun s =>
      match Decimal.readNat? s.1 with
      | some n => if n < numberBound then some (n, s.2 ++ rest) else none
      | none => none

/-- A character that a name can go on with. -/
def isWordChar (c : Char) : Bool :=
  c.isLower || c.isDigit

/-- A lower-case letter and all lower-case letters and digits behind it. -/
def word : Parser Char (List Char) :=
  fun input =>
    match input.head? with
    | some c =>
      if c.isLower then [(input.takeWhile isWordChar, input.dropWhile isWordChar)] else []
    | none => []

end Parser

end WhileLang
