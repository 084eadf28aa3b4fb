import WhileLang.Value.Mismatch

/-!
# Simplified Patterns

Derivatives pile up parts that match nothing, parts that match only the empty
text, and choices between twice the same. `simplify` removes them. The
smaller pattern matches the same texts, but its values have another shape, so
it comes with a function that turns each of them into the value that the
larger pattern would have given.

Only choices, sequences, names and complements are entered. The value of a
complement is the list of its characters, whatever its body looks like, so
nothing has to be restored there.

## Main definitions

* `Reduction`: A pattern that stands for another one, and the way back for its values.
* `Pattern.simplify`: Removes what does not contribute.
-/

namespace WhileLang

/-- A pattern that was reached from another one. -/
structure Reduction where
  /-- The pattern that was reached. -/
  pattern : Pattern
  /-- Turns a value of that pattern into one of the pattern it was reached from. -/
  restore : Value → Except Mismatch Value

namespace Pattern

/-- Removes sides and parts that match nothing, parts that match only the empty text, and the
    second of two equal sides. -/
def simplify : Pattern → Reduction
  | .alt p q =>
    let a := p.simplify
    let b := q.simplify
    if a.pattern = .never then
      { pattern := b.pattern, restore := fun v => return .right (← b.restore v) }
    -- A right side that matches nothing, or the same as the left one, is never needed.
    else if b.pattern = .never ∨ a.pattern = b.pattern then
      { pattern := a.pattern, restore := fun v => return .left (← a.restore v) }
    else
      { pattern := .alt a.pattern b.pattern
        restore := fun
          | .left v => return .left (← a.restore v)
          | .right v => return .right (← b.restore v)
          | other => throw (.shape .alternative other) }
  | .seq p q =>
    let a := p.simplify
    let b := q.simplify
    if a.pattern = .never ∨ b.pattern = .never then
      -- There is no match, so there is no value to restore.
      { pattern := .never, restore := fun v => throw (.shape .emptyLanguage v) }
    -- The part that was removed took no characters; its value is rebuilt from the empty text.
    else if a.pattern = .empty then
      { pattern := b.pattern
        restore := fun v => return .seq (← a.restore .void) (← b.restore v) }
    else if b.pattern = .empty then
      { pattern := a.pattern
        restore := fun v => return .seq (← a.restore v) (← b.restore .void) }
    else
      { pattern := .seq a.pattern b.pattern
        restore := fun
          | .seq v w => return .seq (← a.restore v) (← b.restore w)
          | other => throw (.shape .sequence other) }
  | .tagged name p =>
    let a := p.simplify
    { pattern := .tagged name a.pattern
      restore := fun
        | .tagged found v => return .tagged found (← a.restore v)
        | other => throw (.shape .tagged other) }
  -- The values of a complement do not depend on what its body looks like.
  | .not p => { pattern := .not p.simplify.pattern, restore := pure }
  | p => { pattern := p, restore := pure }

end Pattern

end WhileLang
