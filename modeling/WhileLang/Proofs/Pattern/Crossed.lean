import WhileLang.Proofs.Value.Preferred

/-!
# Ranges with Crossed Bounds

A range whose lower bound is above its upper bound allows no number of rounds,
so nothing should match it. What it does match depends on its body. The test
for the empty text looks at the lower bound and at the body, and not at the
upper bound, so a range of a body that may be empty counts as empty itself.
With other bodies nothing ever matches.

A round takes one from both bounds, and crossed bounds stay crossed. The upper
bound is used up first, and until then the rounds go on as those of a
repetition with as many rounds as the upper bound says. So this is what a
crossed range is, once its body may be empty (`matches_range_of_lt`).

The law of a round, `Round.matches_cons`, is the same for all repetitions, so
the two are compared round by round.

## Theorems

* `Pattern.matches_range_of_lt`: What crossed bounds amount to.
* `Pattern.accepts_crossed_range`: What the scan accepts with crossed bounds, and
  when it is nothing.
* `Pattern.crossed_range_accepts_nil`: A range with crossed bounds that matches
  the empty text.
-/

namespace WhileLang

namespace Pattern

variable {p : Pattern} {c : Char} {cs : List Char} {n m : Nat}

/-- Without rounds there is no character. -/
theorem not_matches_range_zero : ¬ (range p n 0).Matches (c :: cs) :=
  not_matches_never cs

theorem not_matches_times_zero : ¬ (times p 0).Matches (c :: cs) :=
  not_matches_never cs

/-- Whether a range with crossed bounds matches the empty text is left to its body. -/
theorem matches_range_nil_of_lt (h : m < n) :
    (range p n m).Matches [] ↔ p.isNullable = true := by
  have hn : (n == 0) = false := by
    rw [beq_eq_false_iff_ne]
    omega
  rw [matches_nil, isNullable, hn, Bool.false_or]

/-- A range with crossed bounds matches what the upper bound allows, if its body may be empty, and
    nothing otherwise. -/
theorem matches_range_of_lt (h : m < n) :
    (range p n m).Matches cs ↔ p.isNullable = true ∧ (times p m).Matches cs := by
  -- Both bounds lose a round at a time, until the upper one is used up.
  induction m generalizing n cs with
  | zero =>
      cases cs with
      | nil => simp [matches_range_nil_of_lt h, matches_nil, isNullable]
      | cons c cs => simp [not_matches_range_zero, not_matches_times_zero]
  | succ m ih =>
      cases cs with
      | nil =>
          rw [matches_range_nil_of_lt h, matches_nil, isNullable, Bool.or_eq_true]
          exact ⟨fun hp => ⟨hp, Or.inr hp⟩, fun hp => hp.1⟩
      | cons c cs =>
          have hrest : ∀ v, (range p (n - 1) m).Matches v ↔
              p.isNullable = true ∧ (times p m).Matches v := fun v => ih (by omega)
          rw [(Round.range p n m).matches_cons, (Round.times p m).matches_cons]
          constructor
          · intro hcs
            obtain ⟨u, v, huv, hu, hv⟩ := hcs
            have hv' := (hrest v).mp hv
            exact ⟨hv'.1, u, v, huv, hu, hv'.2⟩
          · intro hcs
            obtain ⟨hp, u, v, huv, hu, hv⟩ := hcs
            exact ⟨u, v, huv, hu, (hrest v).mpr ⟨hp, hv⟩⟩

/-- The scan accepts with crossed bounds what as many rounds as the upper bound says take of a body
    that may be empty. So it accepts nothing with other bodies, and only with those. -/
theorem accepts_crossed_range (p : Pattern) (n m : Nat) (h : m < n) :
    (∀ cs, (range p n m).accepts cs = (p.isNullable && (times p m).accepts cs)) ∧
      ((∀ cs, (range p n m).accepts cs = false) ↔ p.isNullable = false) := by
  have haccepts : ∀ cs, (range p n m).accepts cs = (p.isNullable && (times p m).accepts cs) := by
    intro cs
    rw [Bool.eq_iff_iff, Bool.and_eq_true, accepts_iff_matches, accepts_iff_matches]
    exact matches_range_of_lt h
  refine ⟨haccepts, ?_, ?_⟩
  · intro hnone
    -- The empty text is one of those that are not accepted.
    have hnil := hnone []
    rw [← Bool.not_eq_true, accepts_iff_matches, matches_range_nil_of_lt h] at hnil
    simpa using hnil
  · intro hp cs
    rw [haccepts cs, hp, Bool.false_and]

/-- Three rounds at least and one at most, of a body that may be empty: there is one round then. -/
theorem accepts_crossed_range_of_opt :
    1 < 3 ∧ (range (opt (char 'a')) 3 1).accepts ['a'] = true ∧
      (range (opt (char 'a')) 3 1).accepts ['a', 'a'] = false := by
  have hbounds : 1 < 3 := by decide
  have haccepts := (accepts_crossed_range (opt (char 'a')) 3 1 hbounds).1
  refine ⟨hbounds, ?_, ?_⟩
  · rw [haccepts]
    decide
  · rw [haccepts]
    decide

/-- No number of rounds is at least two and at most one, but the empty text is accepted. -/
theorem crossed_range_accepts_nil : 1 < 2 ∧ (range empty 2 1).accepts [] = true := by
  decide

end Pattern

end WhileLang
