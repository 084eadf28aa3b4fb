import WhileLang.Pattern.Derivative
import WhileLang.Value.Mismatch

/-!
# Building Values Backwards

A match runs forwards, from derivative to derivative; its value is built
backwards. `emptyValue` says how the last pattern matches the empty text, and
`inject` undoes one step: from a value of the derivative by a character it
makes one of the pattern itself, with that character put back in front.

A choice prefers its left side for the empty text, and this is what gives an
earlier rule of a scanner precedence over a later one that matches as much.

## Main definitions

* `Pattern.emptyValue`: How a pattern matches the empty text.
* `Pattern.inject`: Puts one character back into a value.
-/

namespace WhileLang

namespace Pattern

/-- How the pattern matches the empty text. -/
def emptyValue : Pattern → Except Mismatch Value
  | .empty => return .void
  | .alt p q =>
    -- The left side is preferred if both match.
    if p.isNullable then return .left (← p.emptyValue) else return .right (← q.emptyValue)
  | .seq p q => return .seq (← p.emptyValue) (← q.emptyValue)
  | .star _ | .opt _ | .not _ => return .stars []
  | .plus p => return .stars [← p.emptyValue]
  | .times p n | .range p n _ =>
    if n = 0 then return .stars [] else return .stars (List.replicate n (← p.emptyValue))
  | .tagged name p => return .tagged name (← p.emptyValue)
  | .never => throw (.notNullable .never)
  | .char c => throw (.notNullable (.char c))
  | .oneOf s => throw (.notNullable (.oneOf s))
  | .noneOf s => throw (.notNullable (.noneOf s))

/-- One more round in front of those that the value of a repetition has. -/
def injectRound (inject : Value → Except Mismatch Value) : Value → Except Mismatch Value
  | .seq head (.stars rest) => return .stars ((← inject head) :: rest)
  | .seq _ other => throw (.shape .repetition other)
  | other => throw (.shape .repetitionStep other)

/-- Turns a value of the derivative by `c` into one of the pattern, which also takes `c`. -/
def inject : Pattern → Char → Value → Except Mismatch Value
  | .star p, c, v | .plus p, c, v | .times p _, c, v | .range p _ _, c, v =>
    injectRound (p.inject c) v
  -- An option went one round, which is all that its derivative is about.
  | .opt p, c, v => return .stars [← p.inject c v]
  -- The character belongs to the first part of a sequence, whether or not that part may be empty.
  | .seq p _, c, .seq v w => return .seq (← p.inject c v) w
  | .seq p _, c, .left (.seq v w) => return .seq (← p.inject c v) w
  | .seq _ _, _, .left other => throw (.shape .sequence other)
  -- The first part is empty and the character belongs to the second.
  | .seq p q, c, .right w => return .seq (← p.emptyValue) (← q.inject c w)
  | .seq _ _, _, other => throw (.shape .sequence other)
  | .alt p _, c, .left v => return .left (← p.inject c v)
  | .alt _ q, c, .right v => return .right (← q.inject c v)
  | .alt _ _, _, other => throw (.shape .alternative other)
  | .char _, c, .void | .oneOf _, c, .void | .noneOf _, c, .void => return .char c
  | .char _, _, other | .oneOf _, _, other | .noneOf _, _, other =>
    throw (.shape .character other)
  | .not _, c, .stars vs => return .stars (.char c :: vs)
  | .not _, _, other => throw (.shape .complement other)
  | .tagged name p, c, v => return .tagged name (← p.inject c v)
  | .never, _, v | .empty, _, v => throw (.shape .nonEmpty v)

end Pattern

end WhileLang
