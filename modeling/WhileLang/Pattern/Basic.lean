import WhileLang.Pattern.CharSet

/-!
# Patterns

Regular expressions over characters. Beside the classical operations there
are sets of characters, bounded repetition, the complement, and named parts,
which match what their body matches and let a match be asked which part of
the pattern took part in it.

`isNullable` decides whether a pattern matches the empty text. A range counts
as matching it when its lower bound is zero, whatever its upper bound is.

## Main definitions

* `Pattern`: The patterns.
* `Pattern.literal`: Matches one text.
* `Pattern.alts`: The first of several patterns that matches.
* `Pattern.seqs`: Several patterns one after the other.
* `Pattern.size`: The number of nodes.
* `Pattern.isNullable`: The empty text matches.
-/

namespace WhileLang

/-- A regular expression over characters. -/
inductive Pattern where
  | never
  | empty
  | char (c : Char)
  | alt (p q : Pattern)
  | seq (p q : Pattern)
  | star (p : Pattern)
  | oneOf (s : CharSet)
  | noneOf (s : CharSet)
  | plus (p : Pattern)
  | opt (p : Pattern)
  /-- Exactly `n` repetitions. -/
  | times (p : Pattern) (n : Nat)
  /-- At least `n` and at most `m` repetitions. -/
  | range (p : Pattern) (n m : Nat)
  /-- Every text that the body does not match. -/
  | not (p : Pattern)
  /-- The body, under a name. -/
  | tagged (name : String) (p : Pattern)
deriving DecidableEq, Inhabited

namespace Pattern

/-- One of the listed characters. -/
def anyOf (cs : List Char) : Pattern :=
  .oneOf (.ofList cs)

/-- A character that is not listed. -/
def anyBut (cs : List Char) : Pattern :=
  .noneOf (.ofList cs)

/-- Several patterns one after the other; none at all is the empty text. -/
def seqs : List Pattern → Pattern
  | [] => .empty
  | [p] => p
  | p :: ps => .seq p (seqs ps)

/-- A choice of several patterns, the earlier ones further left; a choice of none matches
    nothing. -/
def alts : List Pattern → Pattern
  | [] => .never
  | [p] => p
  | p :: ps => .alt p (alts ps)

/-- Exactly the given text. -/
def literal (cs : List Char) : Pattern :=
  seqs (cs.map .char)

/-- The number of nodes of a pattern. -/
def size : Pattern → Nat
  | .never | .empty | .char _ | .oneOf _ | .noneOf _ => 1
  | .alt p q | .seq p q => 1 + p.size + q.size
  | .star p | .plus p | .opt p | .times p _ | .range p _ _ | .not p | .tagged _ p => 1 + p.size

/-- The pattern matches the empty text. -/
def isNullable : Pattern → Bool
  | .never | .char _ | .oneOf _ | .noneOf _ => false
  | .empty | .star _ | .opt _ => true
  | .alt p q => p.isNullable || q.isNullable
  | .seq p q => p.isNullable && q.isNullable
  | .plus p | .tagged _ p => p.isNullable
  | .times p n | .range p n _ => n == 0 || p.isNullable
  | .not p => !p.isNullable

theorem size_pos (p : Pattern) : 0 < p.size := by
  cases p <;> simp only [size] <;> omega

end Pattern

end WhileLang
