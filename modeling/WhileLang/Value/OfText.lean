import WhileLang.Pattern.Residual

/-!
# The Value of a Text

The value by which a pattern matches a whole text. Going forwards, each
character turns the pattern into what is left of it; at the end the value of
the empty text is taken; and going backwards each step turns the value into
one that includes its character.

`valueOf` gives the value. `trace` also keeps the patterns of the way out and
the values of the way back, as far as it got.

## Main definitions

* `Pattern.valueOf`: The value by which the pattern matches the text.
* `Trace`: Patterns and values of a match.
* `Pattern.trace`: The match of a text, step by step.

## Theorems

* `Pattern.outcome_trace`: A trace ends with the value of the text.
-/

namespace WhileLang

/-- The steps of a match. -/
structure Trace where
  patterns : List Pattern
  /-- The values that were built, the latest first; the last one is that of the empty text. -/
  values : List Value
  /-- The latest value, or why there is none. -/
  outcome : Except Mismatch Value

namespace Pattern

/-- The value by which the pattern matches the text. -/
def valueOf (p : Pattern) : List Char → Except Mismatch Value
  | [] => p.emptyValue
  | c :: cs => do
    let next := p.step c
    next.restore (← next.pattern.valueOf cs)

/-- The match of a text, step by step. -/
def trace (p : Pattern) : List Char → Trace
  | [] => { patterns := [], values := p.emptyValue.toOption.toList, outcome := p.emptyValue }
  | c :: cs =>
    let next := p.step c
    let t := next.pattern.trace cs
    -- Once a step back has failed no further value is built.
    match t.outcome with
    | .ok v =>
      let w := next.restore v
      { patterns := next.pattern :: t.patterns
        values := w.toOption.toList ++ t.values
        outcome := w }
    | .error _ => { t with patterns := next.pattern :: t.patterns }

/-- A trace ends with the value of the text, or with the reason why there is none. -/
theorem outcome_trace (p : Pattern) (cs : List Char) : (p.trace cs).outcome = p.valueOf cs := by
  induction cs generalizing p with
  | nil => rfl
  | cons c cs ih =>
    rw [valueOf, ← ih, trace]
    cases ((p.step c).pattern.trace cs).outcome <;> rfl

end Pattern

end WhileLang
