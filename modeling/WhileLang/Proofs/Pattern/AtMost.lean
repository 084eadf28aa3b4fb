import Mathlib.Data.List.Induction
import Mathlib.Order.Nat
import WhileLang.Proofs.Pattern.Chars
import WhileLang.Proofs.Pattern.Live
import WhileLang.Proofs.Value.Posix

/-!
# Bounds on Remainders

How large the remainders of a pattern get, from how large those of its parts
get. Only for sequences this takes more than adding up. When the first part
of a sequence may end, the next character may go on with it or begin the
second part, and if both are possible the choice between them is there from
then on. One part settles before the other if a character that goes on with
the first one never begins the second one. What is left of the sequence is
then either what is left of the first part, and the second part behind it, or
something that is left of the second part alone.

The rounds of a repetition follow one another like the parts of a sequence,
and if they settle, what is left is at most one round, and the repetition
behind it. A pattern of single characters is used up by the first one. There
is no need to ask that it settles, and a repetition of it does not grow at all.

The bounds are said of texts that are not empty. What is left behind the
first character may be smaller than the pattern, and is without its name.

## Main definitions

* `Pattern.AtMost`: What is left behind the first character has a size of at
  most the number.
* `Pattern.Settles`: A character that goes on with the first pattern does not
  begin the second one.
* `Pattern.Single`: A character uses the pattern up.

## Theorems

* `Pattern.settles_derivative`: Whether live patterns settle is a matter of the
  texts they match.
* `Pattern.remainder_seq_of_settles`: What is left of a sequence is left of one
  of its parts.
* `Pattern.AtMost.seq`, `Pattern.AtMost.alt`, `Pattern.Repeats.atMost`: Bounds
  for composed patterns.
* `Pattern.Single.atMost_seq`, `Pattern.Single.atMost_star`: Bounds behind
  single characters.
-/

namespace WhileLang

namespace Pattern

/-- The size of what is left behind at least one character. -/
def AtMost (p : Pattern) (n : Nat) : Prop :=
  ∀ c cs, (p.remainder (c :: cs)).size ≤ n

/-- Behind a text of the first pattern, a character that goes on with it does not begin the second
    pattern. -/
def Settles (p q : Pattern) : Prop :=
  ∀ us c, p.Matches us → p.remainder (us ++ [c]) = never ∨ q.remainder [c] = never

/-- A character uses the pattern up, whether it is matched or not. -/
def Single (p : Pattern) : Prop :=
  ∀ c, p.remainder [c] = empty ∨ p.remainder [c] = never

variable {p q r : Pattern} {c : Char} {cs us vs : List Char} {m n : Nat}

section Sequences

/-- One more character of a sequence whose parts are done. -/
theorem remainder_joinSeq (p q : Pattern) (cs : List Char) (c : Char) :
    (joinSeq (p.remainder cs) q.simplified).remainder [c] =
      if p.Matches cs then
        joinAlt (joinSeq (p.remainder (cs ++ [c])) q.simplified) (q.remainder [c])
      else joinSeq (p.remainder (cs ++ [c])) q.simplified := by
  have hmatches : (p.remainder cs).isNullable = true ↔ p.Matches cs := by
    rw [remainder, isNullable_simplified, Matches]
  have hstep : ((joinSeq (p.remainder cs) q.simplified).derivative c).simplified =
      ((seq (p.remainder cs) q.simplified).derivative c).simplified :=
    simplified_derivative_joinSeq _ _ c
  have hfirst : ((p.remainder cs).derivative c).simplified = p.remainder (cs ++ [c]) := by
    rw [remainder_append]
    rfl
  have hsecond : (q.simplified.derivative c).simplified = q.remainder [c] :=
    simplified_derivative_simplified q c
  rw [simplified_derivative_seq, hfirst, hsecond, simplified_simplified] at hstep
  simp only [hmatches] at hstep
  exact hstep

/-- What is left of a sequence is left of one of its parts. -/
theorem remainder_seq_of_settles (h : Settles p q) (cs : List Char) :
    (seq p q).remainder cs = joinSeq (p.remainder cs) q.simplified ∨
      ∃ us d vs, us ++ d :: vs = cs ∧ (seq p q).remainder cs = q.remainder (d :: vs) := by
  induction cs using List.reverseRecOn with
  | nil => exact Or.inl simplified_seq
  | append_singleton cs c ih =>
      rw [remainder_append]
      rcases ih with hfirst | ⟨us, d, vs, rfl, hsecond⟩
      · rw [hfirst, remainder_joinSeq]
        by_cases hcs : p.Matches cs
        · rw [if_pos hcs]
          rcases h cs c hcs with hdead | hdead
          · rw [hdead, joinSeq_never_left, joinAlt_never_left]
            exact Or.inr ⟨cs, c, [], rfl, rfl⟩
          · rw [hdead, joinAlt_never_right]
            exact Or.inl rfl
        · rw [if_neg hcs]
          exact Or.inl rfl
      · rw [hsecond, ← remainder_append]
        exact Or.inr ⟨us, d, vs ++ [c], (List.append_assoc us (d :: vs) [c]).symm, rfl⟩

end Sequences

section Texts

/-- For live patterns it is a matter of the texts they match. -/
theorem settles_of_live (hp : p.Live) (hq : q.Live)
    (h : ∀ us c vs ws, p.Matches us → p.Matches (us ++ c :: vs) → ¬ q.Matches (c :: ws)) :
    Settles p q := by
  intro us c hus
  by_cases hdead : p.remainder (us ++ [c]) = never
  · exact Or.inl hdead
  · right
    rw [hp.remainder_eq_never_iff, not_not] at hdead
    rcases hdead with ⟨vs, hvs⟩
    rw [hq.remainder_eq_never_iff]
    rintro ⟨ws, hws⟩
    rw [List.append_assoc] at hvs
    exact h us c vs ws hus hvs hws

/-- Behind the first character, only texts that are not empty matter. -/
theorem settles_derivative (hp : p.Live) (hq : q.Live)
    (h : ∀ us c vs ws, us ≠ [] → p.Matches us → p.Matches (us ++ c :: vs) → ¬ q.Matches (c :: ws))
    (d : Char) : Settles (p.derivative d) q :=
  settles_of_live (hp.derivative d) hq fun us c vs ws =>
    h (d :: us) c vs ws (List.cons_ne_nil d us)

/-- Behind a single character nothing goes on with a pattern of single characters. -/
theorem MatchesChars.settles {P : Char → Prop} (hchars : p.MatchesChars P) (hp : p.Live)
    (d : Char) : Settles (p.derivative d) q := by
  intro us c hus
  refine Or.inl ((hp.derivative d).remainder_eq_never_iff.mpr ?_)
  rintro ⟨vs, hvs⟩
  rcases (hchars (d :: (us ++ [c] ++ vs))).mp hvs with ⟨e, he, -⟩
  have hnil : us ++ [c] ++ vs = [] := (List.cons.inj he).2
  simp at hnil

end Texts

section Sizes

/-- What is left of a sequence is not larger than the second part behind something that is left of
    the first one, or not larger than what is left of the second part. -/
theorem size_remainder_seq_le (h : Settles p q) (hp : (p.remainder cs).size ≤ m)
    (hq : ∀ us d vs, us ++ d :: vs = cs → (q.remainder (d :: vs)).size ≤ n) :
    ((seq p q).remainder cs).size ≤ max (1 + m + q.size) n := by
  rcases remainder_seq_of_settles h cs with hfirst | ⟨us, d, vs, hcs, hsecond⟩
  · have hjoin := size_joinSeq_le (p := p.remainder cs) (q := q.simplified)
    have hsize := size_simplified_le q
    rw [hfirst]
    omega
  · rw [hsecond]
    exact (hq us d vs hcs).trans (Nat.le_max_right _ _)

theorem AtMost.mono (h : p.AtMost m) (hmn : m ≤ n) : p.AtMost n :=
  fun c cs => (h c cs).trans hmn

/-- A pattern that has the derivatives of another one leaves the same behind a character. -/
theorem AtMost.of_derivative_eq (hp : p.AtMost n) (h : ∀ c, q.derivative c = p.derivative c) :
    q.AtMost n := by
  intro c cs
  rw [remainder_cons, h, ← remainder_cons]
  exact hp c cs

theorem AtMost.not (hp : p.AtMost n) : (not p).AtMost (1 + n) := by
  intro c cs
  have hbody := hp c cs
  rw [remainder_not, size]
  omega

/-- Before the first character the pattern itself is left. -/
theorem size_residual_le (h : p.AtMost n) (cs : List Char) :
    (p.residual cs).size ≤ max p.size n := by
  cases cs with
  | nil => exact Nat.le_max_left _ _
  | cons c cs =>
      rw [residual_eq_remainder (List.cons_ne_nil c cs)]
      exact (h c cs).trans (Nat.le_max_right _ _)

/-- What is left of a choice is left of its sides. -/
theorem AtMost.alt (hp : p.AtMost m) (hq : q.AtMost n) : (alt p q).AtMost (1 + m + n) := by
  intro c cs
  have hjoin := size_joinAlt_le (p := p.remainder (c :: cs)) (q := q.remainder (c :: cs))
  have hleft := hp c cs
  have hright := hq c cs
  rw [remainder_alt]
  omega

/-- Sides that do not begin with the same character are never left together. -/
theorem AtMost.alt_of_disjoint (hp : p.AtMost m) (hq : q.AtMost n)
    (h : ∀ c, p.remainder [c] = never ∨ q.remainder [c] = never) :
    (Pattern.alt p q).AtMost (max m n) := by
  intro c cs
  have hleft := hp c cs
  have hright := hq c cs
  rw [← List.singleton_append, remainder_append] at hleft hright
  rw [← List.singleton_append, remainder_append, remainder_alt]
  rcases h c with hc | hc
  · rw [hc, joinAlt_never_left]
    exact hright.trans (Nat.le_max_right m n)
  · rw [hc, joinAlt_never_right]
    exact hleft.trans (Nat.le_max_left m n)

theorem atMost_alts {ps : List Pattern} (h : ∀ p ∈ ps, p.AtMost p.size) :
    (alts ps).AtMost (alts ps).size := by
  induction ps with
  | nil =>
      intro c cs
      rw [alts, remainder_never]
  | cons p ps ih =>
      rw [List.forall_mem_cons] at h
      cases ps with
      | nil => exact h.1
      | cons q ps => exact h.1.alt (ih h.2)

/-- A sequence that settles from its first character on. -/
theorem AtMost.seq_of_settles (h : Settles p q) (hp : p.AtMost m) (hq : q.AtMost n) :
    (Pattern.seq p q).AtMost (max (1 + m + q.size) n) :=
  fun c cs => size_remainder_seq_le h (hp c cs) fun _ d vs _ => hq d vs

/-- What is left once the first character belongs to the first part. -/
theorem AtMost.head (hp : p.AtMost m) (hq : q.AtMost n) (h : ∀ c, Settles (p.derivative c) q)
    (c : Char) (cs : List Char) :
    ((Pattern.seq (p.derivative c) q).remainder cs).size ≤ max (1 + m + q.size) n :=
  size_remainder_seq_le (h c) (hp c cs) fun _ d vs _ => hq d vs

/-- The first character may belong to either part, and then both go on side by side. -/
theorem AtMost.seq (hp : p.AtMost m) (hq : q.AtMost n) (h : ∀ c, Settles (p.derivative c) q) :
    (seq p q).AtMost (1 + max (1 + m + q.size) n + n) := by
  intro c cs
  have hleft := hp.head hq h c cs
  have hright := hq c cs
  rw [remainder_seq_cons]
  split
  · have hjoin := size_joinAlt_le
      (p := (Pattern.seq (p.derivative c) q).remainder cs) (q := q.remainder (c :: cs))
    omega
  · omega

/-- A first part that is not empty has the first character for itself. -/
theorem AtMost.seq_of_not_isNullable (hnil : ¬ p.isNullable = true) (hp : p.AtMost m)
    (hq : q.AtMost n) (h : ∀ c, Settles (p.derivative c) q) :
    (Pattern.seq p q).AtMost (max (1 + m + q.size) n) := by
  intro c cs
  rw [remainder_seq_cons, if_neg hnil]
  exact hp.head hq h c cs

end Sizes

section Repetitions

theorem Repeats.size_eq (h : Repeats p r) : r.size = 1 + p.size := by
  cases h <;> rfl

/-- A repetition goes a round or allows none. -/
theorem Repeats.round_or (h : Repeats p r) :
    Round r p r.afterRound ∨ ∀ c, r.derivative c = never := by
  by_cases hround : Round r p r.afterRound
  · exact Or.inl hround
  · refine Or.inr fun c => ?_
    cases h with
    | star => exact absurd (.star p) hround
    | plus => exact absurd (.plus p) hround
    | times n =>
        cases n with
        | zero => rfl
        | succ n => exact absurd (.times p n) hround
    | range n m =>
        cases m with
        | zero => rfl
        | succ m => exact absurd (.range p n m) hround

/-- A character that begins no round of a repetition does not begin the repetition. -/
theorem Repeats.remainder_eq_never (h : Repeats p r) (hc : p.remainder [c] = never) :
    r.remainder [c] = never := by
  have hderivative : (p.derivative c).simplified = never := hc
  rcases h.round_or with hround | hnone
  · rw [hround.remainder_cons, remainder_nil, simplified_seq, hderivative, joinSeq_never_left]
  · rw [remainder_cons, hnone, remainder_never]

/-- What is left of a repetition is not larger than what is left of a round, with the repetition
    behind it. -/
theorem Repeats.atMost (h : Repeats p r) (hp : p.AtMost n)
    (hsettles : ∀ c, Settles (p.derivative c) p) : r.AtMost (2 + n + p.size) := by
  intro c cs
  -- What is left may belong to a later round, so the induction is on the length of the text.
  induction hlen : cs.length using Nat.strong_induction_on generalizing c cs r with
  | _ len ih =>
      rcases h.round_or with hround | hnone
      · have hlater : Settles (p.derivative c) r.afterRound := fun us d hus =>
          (hsettles c us d hus).imp_right h.afterRound.remainder_eq_never
        have hrest : ∀ us d vs, us ++ d :: vs = cs →
            (r.afterRound.remainder (d :: vs)).size ≤ 2 + n + p.size := by
          rintro us d vs rfl
          refine ih vs.length ?_ h.afterRound d vs rfl
          rw [← hlen, List.length_append, List.length_cons]
          omega
        have hseq := size_remainder_seq_le hlater (hp c cs) hrest
        rw [h.afterRound.size_eq] at hseq
        rw [hround.remainder_cons]
        omega
      · have hpos : never.size = 1 := rfl
        rw [remainder_cons, hnone, remainder_never]
        omega

end Repetitions

section Singles

theorem single_of_derivative (h : ∀ c, p.derivative c = empty ∨ p.derivative c = never) :
    Single p := by
  intro c
  rw [remainder_cons, remainder_nil]
  rcases h c with hc | hc
  · rw [hc]
    exact Or.inl rfl
  · rw [hc]
    exact Or.inr rfl

theorem single_char (d : Char) : Single (char d) :=
  single_of_derivative (derivative_char d)

theorem single_oneOf (s : CharSet) : Single (oneOf s) :=
  single_of_derivative (derivative_oneOf s)

theorem single_noneOf (s : CharSet) : Single (noneOf s) :=
  single_of_derivative (derivative_noneOf s)

theorem Single.alt (hp : Single p) (hq : Single q) : Single (alt p q) := by
  intro c
  rw [remainder_alt]
  rcases hp c with hp | hp
  · rcases hq c with hq | hq
    · rw [hp, hq, joinAlt_self]
      exact Or.inl rfl
    · rw [hp, hq, joinAlt_never_right]
      exact Or.inl rfl
  · rw [hp, joinAlt_never_left]
    exact hq c

/-- Behind the first character of a pattern of single characters there is nothing but the end. -/
theorem Single.atMost (h : Single p) : p.AtMost 1 := by
  intro c cs
  rw [← List.singleton_append, remainder_append]
  rcases h c with hc | hc
  · rw [hc]
    cases cs with
    | nil => exact Nat.le_refl 1
    | cons d cs =>
        rw [remainder_empty_cons]
        exact Nat.le_refl 1
  · rw [hc, remainder_never]
    exact Nat.le_refl 1

/-- Behind the first character of a sequence that begins with a single character there is only its
    second part. -/
theorem Single.atMost_seq (h : Single p) (hnil : ¬ p.isNullable = true) (hq : q.AtMost n) :
    (seq p q).AtMost (max q.size n) := by
  intro c cs
  have hfirst : (p.derivative c).simplified = p.remainder [c] := rfl
  rw [remainder_seq_cons, if_neg hnil, ← remainder_simplified, simplified_seq, hfirst]
  rcases h c with hc | hc
  · rw [hc, joinSeq_empty_left, remainder_simplified]
    cases cs with
    | nil => exact (size_simplified_le q).trans (Nat.le_max_left _ _)
    | cons d cs => exact (hq d cs).trans (Nat.le_max_right _ _)
  · rw [hc, joinSeq_never_left, remainder_never]
    exact q.size_pos.trans_le (Nat.le_max_left _ _)

/-- Rounds of single characters leave the repetition as it is. -/
theorem Single.remainder_star (h : Single p) (cs : List Char) :
    (star p).remainder cs = star p ∨ (star p).remainder cs = never := by
  induction cs with
  | nil => exact Or.inl rfl
  | cons c cs ih =>
      have hfirst : (p.derivative c).simplified = p.remainder [c] := rfl
      have hstar : (star p).simplified = star p := rfl
      rw [(Round.star p).remainder_cons, ← remainder_simplified, simplified_seq, hfirst, hstar]
      rcases h c with hc | hc
      · rw [hc, joinSeq_empty_left]
        exact ih
      · rw [hc, joinSeq_never_left, remainder_never]
        exact Or.inr rfl

theorem Single.atMost_star (h : Single p) : (star p).AtMost (star p).size := by
  intro c cs
  rcases h.remainder_star (c :: cs) with hcs | hcs
  · rw [hcs]
  · rw [hcs]
    exact (star p).size_pos

theorem atMost_literal (w : List Char) : (literal w).AtMost (literal w).size := by
  induction w with
  | nil => exact Single.atMost fun c => Or.inr rfl
  | cons c w ih =>
      cases w with
      | nil => exact (single_char c).atMost
      | cons d w =>
          have hrest : (literal (c :: d :: w)).size = 1 + 1 + (literal (d :: w)).size := rfl
          refine ((single_char c).atMost_seq Bool.false_ne_true ih).mono ?_
          omega

end Singles

end Pattern

end WhileLang
