import WhileLang.Pattern.Simplify
import WhileLang.Value.Injection

/-!
# Residuals

What is left of a pattern once a text has been read. Reading one character
takes the derivative and simplifies it; the way back for values undoes both.
Reading a text reads its characters one by one, and a pattern matches a text
if what is left of it matches the empty text.

Simplification after every character keeps the residual small, and it makes a
dead end visible: once nothing is left that could match, the residual is
`never` and stays so.

## Main definitions

* `Pattern.step`: The residual by one character, with the way back.
* `Pattern.residual`: The residual by a text.
* `Pattern.accepts`: The pattern matches the whole text.

## Theorems

* `Pattern.residual_never`: Nothing is left of a pattern that matches nothing.
* `Pattern.residual_cons`: Reading a text begins with its first character.
-/

namespace WhileLang

namespace Pattern

/-- What is left after one character, and how its values become values of the pattern. -/
def step (p : Pattern) (c : Char) : Reduction :=
  let q := (p.derivative c).simplify
  { pattern := q.pattern, restore := fun v => do p.inject c (← q.restore v) }

/-- What is left after a text. Nothing is left once the beginning of the text leaves nothing. -/
def residual (p : Pattern) : List Char → Pattern
  | [] => p
  | c :: cs =>
    let q := (p.step c).pattern
    -- A dead end stays one, so the rest of the text need not be read.
    if q = .never then .never else q.residual cs

/-- The pattern matches the whole text. -/
def accepts (p : Pattern) (cs : List Char) : Bool :=
  (p.residual cs).isNullable

/-- Nothing is left of a pattern that matches nothing. -/
theorem residual_never (cs : List Char) : residual .never cs = .never := by
  cases cs with
  | nil => rfl
  | cons c cs => rfl

/-- Reading a text begins with its first character. -/
theorem residual_cons (p : Pattern) (c : Char) (cs : List Char) :
    p.residual (c :: cs) = (p.step c).pattern.residual cs := by
  rw [residual]
  split
  · next h => rw [h, residual_never]
  · rfl

end Pattern

end WhileLang
