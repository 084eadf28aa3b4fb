import WhileLang.Pattern.Display
import WhileLang.Value.Basic

/-!
# Mismatches of Values and Patterns

What can go wrong when a value is asked for or rebuilt: the value does not
have the shape that a pattern calls for, or the pattern does not match the
empty text and so has no value for it. Neither happens to the values of an
actual match.

## Main definitions

* `Shape`: What a value was expected to look like.
* `Mismatch`: The two causes.
* `Mismatch.message`: Their wording.
-/

namespace WhileLang

/-- What a value was expected to look like. -/
inductive Shape where
  /-- One round of a repetition and the rounds after it. -/
  | repetitionStep
  | repetition
  | sequence
  | alternative
  | character
  | complement
  /-- The value of a pattern that consumes something. -/
  | nonEmpty
  | tagged
  /-- The value of a pattern that matches nothing. -/
  | emptyLanguage
  /-- A named part below the choice of rules. -/
  | taggedRule
  /-- A value of exactly the text it was built for. -/
  | matchedText
deriving DecidableEq, Repr

/-- The shape, as messages name it. -/
def Shape.name : Shape → String
  | .repetitionStep => "repetition step"
  | .repetition => "repetition"
  | .sequence => "sequence"
  | .alternative => "alternative"
  | .character => "character"
  | .complement => "complement"
  | .nonEmpty => "non-empty"
  | .tagged => "tagged"
  | .emptyLanguage => "empty language"
  | .taggedRule => "tagged rule"
  | .matchedText => "matched text"

/-- Why there is no value. -/
inductive Mismatch where
  | shape (expected : Shape) (found : Value)
  | notNullable (pattern : Pattern)

/-- The wording of a mismatch. -/
def Mismatch.message : Mismatch → String
  | .shape expected found =>
    "Value " ++ found.display ++ " does not fit a " ++ expected.name ++ " pattern"
  | .notNullable pattern => "Pattern " ++ pattern.display ++ " cannot match the empty string"

end WhileLang
