/-!
# The Last Cut of a Text

A text can be cut in two at many places. `lastCut?` looks for the last place
at which both parts together pass a test, and so for the longest beginning
that does. The beginning is never empty; a caller that admits an empty one
takes it where nothing else is found.

The recursion goes down the text with the test narrowed to what begins with
the character passed, so that a cut further back is found before the cut
behind the first character is tried.

## Main definitions

* `Text.lastCut?`: The longest beginning for which a text passes a test.

## Theorems

* `Text.lastCut?_eq_some`: What is found passes, and nothing longer does.
* `Text.lastCut?_eq_none`: If nothing is found, no beginning passes.
-/

namespace WhileLang

namespace Text

/-- The longest beginning, not an empty one, which passes a test together with what is behind
    it. -/
def lastCut? (ok : List Char → List Char → Bool) : List Char → Option (List Char × List Char)
  | [] => none
  | c :: cs =>
    match lastCut? (fun u t => ok (c :: u) t) cs with
    | some (u, t) => some (c :: u, t)
    | none => if ok [c] cs then some ([c], cs) else none

variable {ok : List Char → List Char → Bool} {cs u t : List Char}

/-- If nothing is found, no beginning passes. -/
theorem lastCut?_eq_none (h : lastCut? ok cs = none) :
    ∀ u t, u ≠ [] → u ++ t = cs → ok u t = false := by
  induction cs generalizing ok with
  | nil =>
      intro u t hu hut
      exact absurd (List.append_eq_nil_iff.mp hut).1 hu
  | cons c cs ih =>
      intro u t hu hut
      rw [lastCut?] at h
      split at h
      · cases h
      · next hnone =>
        cases u with
        | nil => exact absurd rfl hu
        | cons d u =>
            rcases List.cons.inj hut with ⟨rfl, hcs⟩
            cases u with
            | nil =>
                have ht : t = cs := hcs
                rw [ht]
                by_cases hok : ok [d] cs = true
                · rw [if_pos hok] at h
                  cases h
                · exact Bool.eq_false_iff.mpr hok
            | cons e u => exact ih hnone (e :: u) t (List.cons_ne_nil e u) hcs

/-- What is found passes, and nothing longer does. -/
theorem lastCut?_eq_some (h : lastCut? ok cs = some (u, t)) :
    u ++ t = cs ∧ u ≠ [] ∧ ok u t = true ∧
      ∀ w x, w ≠ [] → w ++ x = t → ok (u ++ w) x = false := by
  induction cs generalizing ok u with
  | nil => cases h
  | cons c cs ih =>
      rw [lastCut?] at h
      split at h
      · next u' t' hsome =>
        rcases Prod.mk.inj (Option.some.inj h) with ⟨rfl, rfl⟩
        rcases ih hsome with ⟨hcs, -, hok, hlonger⟩
        exact ⟨congrArg (c :: ·) hcs, List.cons_ne_nil c u', hok, hlonger⟩
      · next hnone =>
        split at h
        · next hok =>
          rcases Prod.mk.inj (Option.some.inj h) with ⟨rfl, rfl⟩
          exact ⟨rfl, List.cons_ne_nil c [], hok, lastCut?_eq_none hnone⟩
        · cases h

end Text

end WhileLang
