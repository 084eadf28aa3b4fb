import Mathlib.Data.Finset.Dedup
import Mathlib.Data.Finset.Lattice.Fold
import WhileLang.Proofs.Pattern.AtMost
import WhileLang.Proofs.Pattern.Finite

/-!
# How Large Residuals Get

Simplification is meant to keep what a scan is left with small, and up to
similarity it does: finitely many patterns are ever left, so one that is not
larger than the largest of them says the same. The pattern itself need not be
that small. It can carry the same alternative many times over, since only two
equal sides of one choice are merged, and in a nested choice equal patterns
need not be the two sides of it.

Alternatives come from sequences and repetitions whose parts do not settle.
A pattern in which all of them settle is deterministic, and all that is left
of it is bounded without regard to similarity. Names, numbers and blanks are of
this kind.

The two stars of `seq (star p) (star p)` are the simplest pattern that is not:
every `p` may belong to either of them, and every one of them leaves one more
alternative.

## Main definitions

* `Pattern.Deterministic`: From the second character on, a character that goes
  on with a part does not begin what stands behind it.
* `Pattern.piled`: What two stars leave.

## Theorems

* `Pattern.Deterministic.exists_atMost`: What is left of a deterministic pattern
  is bounded.
* `Pattern.residual_bounded`: How far residuals are bounded.
* `Pattern.remainder_stars`: What two stars leave of a text.
* `Pattern.residual_stars_not_bounded`: It is not bounded.
-/

namespace WhileLang

namespace Pattern

/-- From its second character on, a part that may end or go on with a character is not followed by
    one that may begin with it. -/
def Deterministic : Pattern → Prop
  | .alt p q => p.Deterministic ∧ q.Deterministic
  | .seq p q => p.Deterministic ∧ q.Deterministic ∧ ∀ c, Settles (p.derivative c) q
  | .star p | .plus p | .times p _ | .range p _ _ =>
    p.Deterministic ∧ ∀ c, Settles (p.derivative c) p
  | .opt p | .not p | .tagged _ p => p.Deterministic
  | _ => True

variable {p : Pattern}

/-- What is left of a deterministic pattern is bounded. -/
theorem Deterministic.exists_atMost (h : p.Deterministic) : ∃ n, p.AtMost n := by
  induction p with
  | never => exact ⟨1, Single.atMost fun c => Or.inr rfl⟩
  | empty => exact ⟨1, Single.atMost fun c => Or.inr rfl⟩
  | char d => exact ⟨1, (single_char d).atMost⟩
  | oneOf s => exact ⟨1, (single_oneOf s).atMost⟩
  | noneOf s => exact ⟨1, (single_noneOf s).atMost⟩
  | alt p q ihp ihq =>
      rcases ihp h.1 with ⟨m, hp⟩
      rcases ihq h.2 with ⟨n, hq⟩
      exact ⟨_, hp.alt hq⟩
  | seq p q ihp ihq =>
      rcases ihp h.1 with ⟨m, hp⟩
      rcases ihq h.2.1 with ⟨n, hq⟩
      exact ⟨_, hp.seq hq h.2.2⟩
  | star p ih =>
      rcases ih h.1 with ⟨n, hp⟩
      exact ⟨_, Repeats.star.atMost hp h.2⟩
  | plus p ih =>
      rcases ih h.1 with ⟨n, hp⟩
      exact ⟨_, Repeats.plus.atMost hp h.2⟩
  | times p k ih =>
      rcases ih h.1 with ⟨n, hp⟩
      exact ⟨_, (Repeats.times k).atMost hp h.2⟩
  | range p k l ih =>
      rcases ih h.1 with ⟨n, hp⟩
      exact ⟨_, (Repeats.range k l).atMost hp h.2⟩
  | opt p ih =>
      rcases ih h with ⟨n, hp⟩
      exact ⟨n, hp.of_derivative_eq fun c => rfl⟩
  | not p ih =>
      rcases ih h with ⟨n, hp⟩
      exact ⟨_, hp.not⟩
  | tagged name p ih =>
      rcases ih h with ⟨n, hp⟩
      exact ⟨n, hp.of_derivative_eq fun c => rfl⟩

/-- What is left is bounded once equal alternatives count only once, however they are grouped; and
    what is left of a deterministic pattern is bounded as it is. -/
theorem residual_bounded (p : Pattern) :
    (∃ B, ∀ cs, ∃ q, q.size ≤ B ∧ Similar (p.residual cs) q) ∧
      (p.Deterministic → ∃ B, ∀ cs, (p.residual cs).size ≤ B) := by
  constructor
  · rcases exists_similar_residual p with ⟨S, hS⟩
    refine ⟨S.toFinset.sup size, fun cs => ?_⟩
    rcases hS cs with ⟨q, hq, hsim⟩
    exact ⟨q, Finset.le_sup (List.mem_toFinset.mpr hq), hsim⟩
  · intro h
    rcases h.exists_atMost with ⟨n, hn⟩
    exact ⟨max p.size n, size_residual_le hn⟩

/-- A semicolon that may be missing ends a row of letters, and no letter is one. -/
theorem residual_bounded_of_row :
    (seq (star (char 'a')) (opt (char ';'))).Deterministic ∧
      ∃ B, ∀ cs, ((seq (star (char 'a')) (opt (char ';'))).residual cs).size ≤ B := by
  have hrow : (seq (star (char 'a')) (opt (char ';'))).Deterministic := by
    refine ⟨⟨trivial, (matchesChars_char 'a').settles trivial⟩, trivial, ?_⟩
    refine settles_derivative trivial trivial fun us c vs ws _ _ hgoes hbegins => ?_
    have hc : c = 'a' := (matches_star_chars (matchesChars_char 'a')).mp hgoes c (by simp)
    rcases (matchesChars_char ';' (c :: ws)).mp hbegins with ⟨d, hd, rfl⟩
    rw [hc] at hd
    exact absurd (List.cons.inj hd).1 (by decide)
  exact ⟨hrow, (residual_bounded (seq (star (char 'a')) (opt (char ';')))).2 hrow⟩

section Stars

/-- Two stars of a character, and the second one again for each character that was read. -/
def piled (c : Char) : Nat → Pattern
  | 0 => seq (star (char c)) (star (char c))
  | n + 1 => alt (piled c n) (star (char c))

theorem size_piled (c : Char) (n : Nat) : (piled c n).size = 5 + 3 * n := by
  induction n with
  | zero => rfl
  | succ n ih =>
      rw [piled, size, ih, size, size]
      omega

theorem remainder_star (c : Char) : (star (char c)).remainder [c] = star (char c) := by
  rw [remainder_cons, derivative, derivative, if_pos rfl]
  rfl

theorem remainder_piled (c : Char) (n : Nat) : (piled c n).remainder [c] = piled c (n + 1) := by
  induction n with
  | zero =>
      have hnullable : (star (char c)).isNullable = true := rfl
      have hfirst : (seq ((star (char c)).derivative c) (star (char c))).remainder [] =
          seq (star (char c)) (star (char c)) := by
        rw [derivative, derivative, if_pos rfl]
        rfl
      rw [piled, remainder_seq_cons, if_pos hnullable, hfirst, remainder_star]
      rfl
  | succ n ih =>
      -- The new choice is larger than the star beside it, so the two are not merged.
      have hsize : (piled c (n + 1)).size ≠ (star (char c)).size := by
        rw [size_piled, size, size]
        omega
      have hne : piled c (n + 1) ≠ star (char c) := fun h => hsize (congrArg size h)
      rw [piled, remainder_alt, ih, remainder_star, joinAlt,
        if_neg (by rw [piled]; exact Pattern.noConfusion), if_neg (by simp [hne])]
      rfl

/-- Every character leaves one more star. -/
theorem remainder_stars (c : Char) (n : Nat) :
    (seq (star (char c)) (star (char c))).remainder (List.replicate n c) = piled c n := by
  induction n with
  | zero => rfl
  | succ n ih => rw [List.replicate_succ', remainder_append, ih, remainder_piled]

/-- What is left of two stars grows without bound. -/
theorem residual_stars_not_bounded :
    ¬ ∃ B, ∀ cs, ((seq (star (char 'a')) (star (char 'a'))).residual cs).size ≤ B := by
  rintro ⟨B, hB⟩
  have hlarge := hB (List.replicate (B + 1) 'a')
  rw [residual_eq_remainder (by simp), remainder_stars, size_piled] at hlarge
  omega

end Stars

end Pattern

end WhileLang
