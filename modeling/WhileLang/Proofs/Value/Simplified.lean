import WhileLang.Proofs.Value.Rebuilt

/-!
# Simplification Cannot Be Seen

Matching without simplification: the derivatives are taken as they are, and
the value is built back along them with `inject` alone. The patterns on this
way and those that the scan passes through part after the first character, so
the two computations cannot be compared step by step. They are compared by
what they come to. Both end in the preferred value of the text, and a text
has only one.

The same holds of a pattern that is simplified before the text is read. Its
value has another shape, and `restore` turns it into the value of the pattern
it came from.

Nothing is asked of the bounds of a repetition.

## Main definitions

* `Pattern.plainValueOf`: The value of a text, with no simplification on the
  way.

## Theorems

* `Pattern.accepts_eq_isNullable_derivatives`: The scan and the plain
  derivatives give the same answer.
* `Pattern.accepts_simplify`: So does a simplified pattern.
* `Pattern.plainValueOf_prefers`: The value built along plain derivatives is
  the preferred one.
* `Pattern.plainValueOf_eq_valueOf`: It is the value that the scan builds.
* `Pattern.simplify_invisible`: Neither answer nor value depends on
  simplification.
-/

namespace WhileLang

namespace Pattern

/-- The value by which the pattern matches the text, built along plain derivatives. -/
def plainValueOf (p : Pattern) : List Char → Except Mismatch Value
  | [] => p.emptyValue
  | c :: cs => do p.inject c (← (p.derivative c).plainValueOf cs)

variable {p : Pattern} {cs : List Char}

/-- The scan and the plain derivatives give the same answer. -/
theorem accepts_eq_isNullable_derivatives (p : Pattern) (cs : List Char) :
    p.accepts cs = (p.derivatives cs).isNullable :=
  Bool.eq_iff_iff.mpr accepts_iff_matches

/-- A pattern that is simplified before the scan accepts the same texts. -/
theorem accepts_simplify (p : Pattern) (cs : List Char) :
    p.simplify.pattern.accepts cs = p.accepts cs := by
  rw [Bool.eq_iff_iff, accepts_iff_matches, accepts_iff_matches, matches_simplify]

/-- The value built along plain derivatives is the preferred one. -/
theorem plainValueOf_prefers (h : p.Matches cs) :
    ∃ v, p.plainValueOf cs = .ok v ∧ p.Prefers cs v := by
  -- The rest of the text is matched by a derivative, so the induction is about all patterns.
  induction cs generalizing p with
  | nil => exact emptyValue_prefers h
  | cons c cs ih =>
      rcases ih (matches_cons.mp h) with ⟨v, hv, hpv⟩
      rcases inject_prefers hpv with ⟨w, hw, hpw⟩
      refine ⟨w, ?_, hpw⟩
      rw [plainValueOf, hv]
      exact hw

/-- The value built along plain derivatives is the one that the scan builds. -/
theorem plainValueOf_eq_valueOf (h : p.Matches cs) : p.plainValueOf cs = p.valueOf cs := by
  rcases plainValueOf_prefers h with ⟨v, hv, hpv⟩
  rcases valueOf_prefers h with ⟨w, hw, hpw⟩
  rw [hv, hw, hpv.unique hpw]

/-- The value of a simplified pattern is restored to that of the pattern itself. -/
theorem restore_valueOf_simplify (h : p.Matches cs) :
    ∃ v w, p.valueOf cs = .ok v ∧ p.simplify.pattern.valueOf cs = .ok w ∧
      p.simplify.restore w = .ok v := by
  rcases valueOf_prefers h with ⟨v, hv, hpv⟩
  rcases valueOf_prefers ((matches_simplify p cs).mpr h) with ⟨w, hw, hpw⟩
  -- Restoring gives a preferred value of the pattern, and there is only one.
  rcases restore_prefers hpw with ⟨v', hv', hpv'⟩
  refine ⟨v, w, hv, hw, ?_⟩
  rw [hv', hpv'.unique hpv]

/-- The answer for a text does not depend on simplification, neither before the text is read nor
    while it is read, and the value of a match does not either. -/
theorem simplify_invisible (p : Pattern) (cs : List Char) :
    p.accepts cs = (p.derivatives cs).isNullable ∧
      p.simplify.pattern.accepts cs = (p.derivatives cs).isNullable ∧
      (p.accepts cs = true → ∃ v w, p.valueOf cs = .ok v ∧ p.plainValueOf cs = .ok v ∧
        p.simplify.pattern.valueOf cs = .ok w ∧ p.simplify.pattern.plainValueOf cs = .ok w ∧
        p.simplify.restore w = .ok v) := by
  refine ⟨accepts_eq_isNullable_derivatives p cs, ?_, ?_⟩
  · rw [accepts_simplify, accepts_eq_isNullable_derivatives]
  · intro h
    have hp : p.Matches cs := accepts_iff_matches.mp h
    have hsimple : p.simplify.pattern.Matches cs := (matches_simplify p cs).mpr hp
    rcases restore_valueOf_simplify hp with ⟨v, w, hv, hw, hrestore⟩
    refine ⟨v, w, hv, ?_, hw, ?_, hrestore⟩
    · rw [plainValueOf_eq_valueOf hp, hv]
    · rw [plainValueOf_eq_valueOf hsimple, hw]

/-- A part that takes nothing, a side that matches nothing and the second of two equal sides are
    removed from beside a range with crossed bounds; the value has them all the same. -/
theorem simplify_invisible_of_merged :
    (alt (alt (seq empty (char 'a')) (alt (char 'a') never)) (range (char 'a') 2 1)).accepts ['a'] =
        true ∧
      (alt (alt (seq empty (char 'a')) (alt (char 'a') never)) (range (char 'a') 2 1)).plainValueOf
          ['a'] = .ok (.left (.left (.seq .void (.char 'a')))) ∧
      (alt (alt (seq empty (char 'a')) (alt (char 'a') never))
          (range (char 'a') 2 1)).simplify.restore (.left (.char 'a')) =
        .ok (.left (.left (.seq .void (.char 'a')))) := by
  have h : (alt (alt (seq empty (char 'a')) (alt (char 'a') never))
      (range (char 'a') 2 1)).accepts ['a'] = true := by decide
  rcases (simplify_invisible _ ['a']).2.2 h with ⟨v, w, hv, hplain, hw, -, hrestore⟩
  cases hv
  cases hw
  exact ⟨h, hplain, hrestore⟩

end Pattern

end WhileLang
