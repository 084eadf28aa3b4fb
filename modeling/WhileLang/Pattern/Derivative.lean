import WhileLang.Pattern.Basic

/-!
# Derivatives

The derivative of a pattern by a character is the pattern of what may follow
that character: it matches a text if and only if the pattern itself matches
the character followed by the text.

A repetition uses up one round: the derivative of the body comes first and
the remaining rounds after it. A name is dropped, since it says nothing about
which texts match; a match gets it back when its value is rebuilt.

## Main definitions

* `Pattern.derivative`: What may follow a character.
-/

namespace WhileLang

namespace Pattern

/-- The pattern of what may follow the character. -/
def derivative : Pattern → Char → Pattern
  | .never, _ | .empty, _ => .never
  | .char d, c => if d = c then .empty else .never
  | .oneOf s, c => if c ∈ s then .empty else .never
  | .noneOf s, c => if c ∈ s then .never else .empty
  | .alt p q, c => .alt (p.derivative c) (q.derivative c)
  | .seq p q, c =>
    let head := .seq (p.derivative c) q
    -- If the first part may be empty, the character may belong to the second.
    if p.isNullable then .alt head (q.derivative c) else head
  | .star p, c => .seq (p.derivative c) (.star p)
  | .plus p, c => .seq (p.derivative c) (.star p)
  | .opt p, c => p.derivative c
  -- Bounded repetitions keep count of the rounds that are left.
  | .times p n, c => if n = 0 then .never else .seq (p.derivative c) (.times p (n - 1))
  | .range p n m, c => if m = 0 then .never else .seq (p.derivative c) (.range p (n - 1) (m - 1))
  | .not p, c => .not (p.derivative c)
  | .tagged _ p, c => p.derivative c

end Pattern

end WhileLang
