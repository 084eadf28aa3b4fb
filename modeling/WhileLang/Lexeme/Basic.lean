import WhileLang.Text.Position
import WhileLang.Value.Mismatch

/-!
# Lexemes

The pieces into which a scanner cuts a text. A rule gives a name to a
pattern; a lexeme is a piece of text that the pattern of a rule matches. Some
rules are there only to be skipped, such as those for blanks and comments.

A scanner tries all rules at once. They are joined into one choice of named
patterns, in the order of the table, so that the value of a match tells which
rule it came from and an earlier rule wins over a later one.

## Main definitions

* `Rule`: A named pattern.
* `Rule.combine`: All rules of a table as one pattern.
* `Lexeme`: A piece of text and the rule that matched it.
* `LexError`: Why a text cannot be cut into lexemes or tokens.
* `LexError.message`: The wording.
-/

namespace WhileLang

/-- A kind of lexeme. -/
structure Rule where
  name : String
  pattern : Pattern
  isSkipped : Bool
deriving DecidableEq, Inhabited

/-- The rules of a table as one pattern, which prefers the earlier ones. -/
def Rule.combine (rules : List Rule) : Pattern :=
  .alts (rules.map fun r => .tagged r.name r.pattern)

/-- A piece of text that a rule matched. -/
structure Lexeme where
  rule : String
  text : List Char
  span : Span
  /-- Whether it is left out of what the scanner reports. -/
  isSkipped : Bool
deriving DecidableEq, Inhabited

/-- Why a text cannot be cut into lexemes, or a lexeme is no token. -/
inductive LexError where
  /-- No rule matches anything that begins with the character at the place. -/
  | noMatchingRule (c : Char) (place : Position)
  | invalidInteger (literal : String) (offset : Nat)
  /-- There is no rule, or no kind of token, of that name. -/
  | unknownRule (rule : String)
  | mismatch (cause : Mismatch)

/-- The wording of an error. -/
def LexError.message : LexError → String
  | .noMatchingRule c place =>
    "No token rule matches '" ++ String.singleton c ++ "' at line " ++ Decimal.natText place.line
      ++ ", column " ++ Decimal.natText place.column
      ++ " (position " ++ Decimal.natText place.offset ++ ")"
  | .invalidInteger literal offset =>
    "Invalid integer literal '" ++ literal ++ "' at position " ++ Decimal.natText offset
  | .unknownRule rule => "Match produced by unknown rule '" ++ rule ++ "'"
  | .mismatch cause => "Lexer invariant violated: " ++ cause.message

end WhileLang
