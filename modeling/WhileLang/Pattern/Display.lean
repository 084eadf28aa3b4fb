import WhileLang.Pattern.Basic
import WhileLang.Text.Decimal
import WhileLang.Text.Escape

/-!
# Printed Patterns

How a pattern is written in messages and dumps. Choices and sequences are in
parentheses, sets in square brackets, repetition follows its body and
complement and name precede it. Characters are escaped with both quotes,
since nothing surrounds them.

## Main definitions

* `Pattern.display`: A pattern as text.
-/

namespace WhileLang

namespace Pattern

/-- A character of a pattern. -/
def displayChar (c : Char) : String :=
  Text.escapeChar ['\'', '"'] c

/-- The members of a set, one after the other. -/
def displaySet (s : CharSet) : String :=
  String.join (s.chars.map displayChar)

/-- A repetition count, or the two of them, in braces. -/
def displayBounds (bounds : String) : String :=
  "\x7b" ++ bounds ++ "\x7d"

/-- A pattern as text. -/
def display : Pattern → String
  | .never => "∅"
  | .empty => "ε"
  | .char c => displayChar c
  | .alt p q => "(" ++ p.display ++ "|" ++ q.display ++ ")"
  | .seq p q => "(" ++ p.display ++ q.display ++ ")"
  | .star p => p.display ++ "*"
  | .oneOf s => "[" ++ displaySet s ++ "]"
  | .noneOf s => "[^" ++ displaySet s ++ "]"
  | .plus p => p.display ++ "+"
  | .opt p => p.display ++ "?"
  | .times p n => p.display ++ displayBounds (Decimal.natText n)
  | .range p n m => p.display ++ displayBounds (Decimal.natText n ++ "," ++ Decimal.natText m)
  | .not p => "!" ++ p.display
  | .tagged name p => "<" ++ name ++ ">" ++ p.display

end Pattern

end WhileLang
