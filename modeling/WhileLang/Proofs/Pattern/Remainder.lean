import Mathlib.Logic.Basic
import WhileLang.Proofs.Pattern.Normal
import WhileLang.Proofs.Value.Preferred

/-!
# Simplifying Once

What a scan is left with, said without the scan. Reading a text simplifies
after every character; the remainder of a text is simplified only once, after
all derivatives were taken. Both are the same pattern, not just patterns that
match the same texts. A derivative that is taken of a simplified pattern may
look different from one that is taken of the pattern itself, but what is left
of it when it is simplified is not.

So nothing that is said of remainders needs a pattern in between, and plain
derivatives pass through choices, complements and names without change. For a
sequence there is a law of the first character, which is that of derivatives,
and the law of a round makes it one for all repetitions.

## Main definitions

* `Pattern.remainder`: What is left after a text, simplified in the end.

## Theorems

* `Pattern.simplified_derivative_simplified`: Simplifying before a derivative
  makes no difference after it.
* `Pattern.residual_eq_remainder`: Simplifying on the way makes none in the end.
* `Pattern.remainder_append`: A text is read in two parts.
* `Pattern.remainder_alt`, `Pattern.remainder_seq_cons`,
  `Pattern.Round.remainder_cons`: The remainders of composed patterns.
-/

namespace WhileLang

namespace Pattern

/-- What is left after a text, simplified in the end. -/
def remainder (p : Pattern) (cs : List Char) : Pattern :=
  (p.derivatives cs).simplified

variable {p q r : Pattern} {c : Char} {cs us vs : List Char}

section Characters

theorem derivative_char (d c : Char) :
    (char d).derivative c = empty ∨ (char d).derivative c = never :=
  ite_eq_or_eq _ _ _

theorem derivative_oneOf (s : CharSet) (c : Char) :
    (oneOf s).derivative c = empty ∨ (oneOf s).derivative c = never :=
  ite_eq_or_eq _ _ _

theorem derivative_noneOf (s : CharSet) (c : Char) :
    (noneOf s).derivative c = empty ∨ (noneOf s).derivative c = never :=
  (ite_eq_or_eq _ _ _).symm

end Characters

theorem isNullable_simplified (p : Pattern) : p.simplified.isNullable = p.isNullable :=
  Bool.eq_iff_iff.mpr (matches_simplify p [])

section Derivative

theorem simplified_derivative_joinAlt (p q : Pattern) (c : Char) :
    ((joinAlt p q).derivative c).simplified =
      joinAlt (p.derivative c).simplified (q.derivative c).simplified := by
  rcases joinAlt_cases p q with ⟨rfl, h⟩ | ⟨rfl | rfl, h⟩ | ⟨-, h⟩
  · rw [h]
    exact joinAlt_never_left.symm
  · rw [h]
    exact joinAlt_never_right.symm
  · rw [h, joinAlt_self]
  · rw [h, derivative, simplified_alt]

theorem derivative_seq (p q : Pattern) (c : Char) :
    (seq p q).derivative c =
      if p.isNullable then alt (seq (p.derivative c) q) (q.derivative c)
      else seq (p.derivative c) q := by
  rw [derivative]

theorem simplified_derivative_seq (p q : Pattern) (c : Char) :
    ((seq p q).derivative c).simplified =
      if p.isNullable then
        joinAlt (joinSeq (p.derivative c).simplified q.simplified) (q.derivative c).simplified
      else joinSeq (p.derivative c).simplified q.simplified := by
  rw [derivative_seq]
  by_cases hp : p.isNullable = true
  · rw [if_pos hp, if_pos hp, simplified_alt, simplified_seq]
  · rw [if_neg hp, if_neg hp, simplified_seq]

/-- A part that is left out leaves no trace in the derivative. -/
theorem simplified_derivative_joinSeq (p q : Pattern) (c : Char) :
    ((joinSeq p q).derivative c).simplified = ((seq p q).derivative c).simplified := by
  have hnever : never.simplified = never := rfl
  have hempty : empty.simplified = empty := rfl
  rcases joinSeq_cases p q with ⟨rfl | rfl, h⟩ | ⟨rfl, h⟩ | ⟨rfl, h⟩ | ⟨-, h⟩
  · rw [h, simplified_derivative_seq, derivative, hnever, joinSeq_never_left, joinAlt_never_left]
    rfl
  · rw [h, simplified_derivative_seq, derivative, hnever, joinSeq_never_right, joinAlt_self,
      ite_self]
  · rw [h, simplified_derivative_seq, derivative, hnever, joinSeq_never_left, joinAlt_never_left]
    rfl
  · rw [h, simplified_derivative_seq, derivative, hnever, hempty, joinSeq_empty_right,
      joinAlt_never_right, ite_self]
  · rw [h]

/-- Simplifying before a derivative makes no difference to what is left after it. -/
theorem simplified_derivative_simplified (p : Pattern) (c : Char) :
    (p.simplified.derivative c).simplified = (p.derivative c).simplified := by
  induction p with
  | alt p q ihp ihq =>
      rw [simplified_alt, simplified_derivative_joinAlt, ihp, ihq, derivative, simplified_alt]
  | seq p q ihp ihq =>
      rw [simplified_seq, simplified_derivative_joinSeq, simplified_derivative_seq,
        simplified_derivative_seq, ihp, ihq, simplified_simplified, isNullable_simplified]
  | not p ih =>
      rw [simplified_not, derivative, derivative, simplified_not, simplified_not, ih]
  | tagged name p ih => exact ih
  | _ => rfl

end Derivative

section Texts

theorem derivatives_append : p.derivatives (us ++ vs) = (p.derivatives us).derivatives vs :=
  List.foldl_append

/-- What is left matches what completes the text. -/
theorem matches_derivatives : (p.derivatives us).Matches vs ↔ p.Matches (us ++ vs) := by
  rw [Matches, Matches, derivatives_append]

theorem remainder_nil : p.remainder [] = p.simplified := rfl

theorem remainder_cons : p.remainder (c :: cs) = (p.derivative c).remainder cs := rfl

/-- A pattern that is simplified before the text is read leaves the same. -/
theorem remainder_simplified (p : Pattern) (cs : List Char) :
    p.simplified.remainder cs = p.remainder cs := by
  induction cs generalizing p with
  | nil => rw [remainder_nil, remainder_nil, simplified_simplified]
  | cons c cs ih =>
      rw [remainder_cons, remainder_cons, ← ih, simplified_derivative_simplified, ih]

/-- A text is read in two parts. -/
theorem remainder_append : p.remainder (us ++ vs) = (p.remainder us).remainder vs := by
  have hus : (p.derivatives us).remainder vs = (p.remainder us).remainder vs :=
    (remainder_simplified _ vs).symm
  rw [← hus, remainder, derivatives_append, ← remainder]

/-- Simplifying on the way makes no difference in the end. -/
theorem residual_eq_remainder (hcs : cs ≠ []) : p.residual cs = p.remainder cs := by
  induction cs generalizing p with
  | nil => exact absurd rfl hcs
  | cons c cs ih =>
      have hstep : (p.step c).pattern = (p.derivative c).simplified := rfl
      rw [residual_cons, hstep, remainder_cons]
      by_cases hnil : cs = []
      · rw [hnil]
        rfl
      · rw [ih hnil, remainder_simplified]

end Texts

section Composed

theorem derivatives_never (cs : List Char) : never.derivatives cs = never := by
  induction cs with
  | nil => rfl
  | cons c cs ih => exact ih

theorem derivatives_alt (p q : Pattern) (cs : List Char) :
    (alt p q).derivatives cs = alt (p.derivatives cs) (q.derivatives cs) := by
  induction cs generalizing p q with
  | nil => rfl
  | cons c cs ih => exact ih _ _

theorem derivatives_not (p : Pattern) (cs : List Char) :
    (Pattern.not p).derivatives cs = .not (p.derivatives cs) := by
  induction cs generalizing p with
  | nil => rfl
  | cons c cs ih => exact ih _

theorem remainder_never (cs : List Char) : never.remainder cs = never := by
  rw [remainder, derivatives_never]
  rfl

theorem remainder_empty_cons (c : Char) (cs : List Char) : empty.remainder (c :: cs) = never :=
  remainder_never cs

theorem remainder_alt (p q : Pattern) (cs : List Char) :
    (alt p q).remainder cs = joinAlt (p.remainder cs) (q.remainder cs) := by
  rw [remainder, derivatives_alt, simplified_alt, remainder, remainder]

theorem remainder_not (p : Pattern) (cs : List Char) :
    (Pattern.not p).remainder cs = .not (p.remainder cs) := by
  rw [remainder, derivatives_not, simplified_not, remainder]

/-- The first character of a sequence may belong to its second part if the first part may be
    empty. -/
theorem remainder_seq_cons (p q : Pattern) (c : Char) (cs : List Char) :
    (seq p q).remainder (c :: cs) =
      if p.isNullable then joinAlt ((seq (p.derivative c) q).remainder cs) (q.remainder (c :: cs))
      else (seq (p.derivative c) q).remainder cs := by
  rw [remainder_cons, derivative_seq]
  by_cases hp : p.isNullable = true
  · rw [if_pos hp, if_pos hp, remainder_alt, remainder_cons]
  · rw [if_neg hp, if_neg hp]

/-- The first character of a repetition belongs to its first round. -/
theorem Round.remainder_cons (hr : Round r p q) (c : Char) (cs : List Char) :
    r.remainder (c :: cs) = (seq (p.derivative c) q).remainder cs := by
  rw [Pattern.remainder_cons, hr.derivative_eq]

end Composed

end Pattern

end WhileLang
