import WhileLang.Text.Graphic

/-!
# Escaped Text

How characters are written inside messages and dumps, so that a reader can
see which character is meant. A backslash and the chosen quotes are preceded
by a backslash, four controls have a letter, and every other character that
is not graphic is written by its code point in hexadecimal.

Which quotes have to be escaped depends on the quotes around the text, and is
a parameter: inside `"…"` an apostrophe needs no backslash, inside `'…'` a
double quote needs none, and where no quotes surround the text both are
escaped.

## Main definitions

* `escapeChar`: One character, as written between the given quotes.
* `escapeString`: A text, each of its characters escaped.
* `quoteChar`: A character between apostrophes.
* `quoteString`: A text between double quotes.
-/

namespace WhileLang

namespace Text

/-- The code point in lower-case hexadecimal, between braces. -/
def escapeCode (c : Char) : String :=
  "\\u\x7b" ++ String.ofList (Nat.toDigits 16 c.toNat) ++ "\x7d"

/-- A character as it is written where the given quotes have to be escaped. -/
def escapeChar (quotes : List Char) (c : Char) : String :=
  if c = '\x00' then "\\0"
  else if c = '\t' then "\\t"
  else if c = '\r' then "\\r"
  else if c = '\n' then "\\n"
  else if c = '\\' ∨ c ∈ quotes then String.ofList ['\\', c]
  -- A quote that needs no backslash is graphic and stays as it is.
  else if isGraphic c then String.singleton c
  else escapeCode c

/-- A text with every character escaped. -/
def escapeString (quotes : List Char) (s : String) : String :=
  String.join (s.toList.map (escapeChar quotes))

/-- A character between apostrophes. -/
def quoteChar (c : Char) : String :=
  "'" ++ escapeChar ['\''] c ++ "'"

/-- A text between double quotes. -/
def quoteString (s : String) : String :=
  "\"" ++ escapeString ['"'] s ++ "\""

end Text

end WhileLang
