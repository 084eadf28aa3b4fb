import WhileLang.Parser.Basic
import WhileLang.Parser.Items

/-!
# Repetition

Parsers for any number of steps. A repetition works level by level: the
first level holds the parses it starts from, and each further level all ways
to add one step to a parse of the level before. A step that leaves as much as
it was given is dropped, so that the inputs get shorter from level to level
and the last level is empty. The parses with more steps are preferred, and
within a level the order of the level before decides.

`many`, `sepBy1` and `chainLeft` differ in where they start and in what they
do with the value of a step: the first two collect the values, the third
combines each with what has been built so far.

## Main definitions

* `Parser.extend`: One more step on each parse of a level.
* `Parser.grow`: All levels that grow from a first one, the last one in front.
* `Parser.many`: Any number of parses of a parser, collected.
* `Parser.sepBy1`: One parse or more, with separators between them.
* `Parser.chainLeft`: Operands with operators between them, combined from the left.

## Theorems

* `Parser.mem_extend`: What a level consists of.
* `Parser.reach_extend_lt`: Inputs get shorter from level to level.
-/

namespace WhileLang

namespace Parser

variable {τ α β ω : Type}

/-- All ways to add one step to one of the parses, if the step leaves less than it was given. -/
def extend (step : α → Parser τ α) (level : List (α × List τ)) : List (α × List τ) :=
  level.flatMap fun r => (step r.1 r.2).filter fun s => s.2.length < r.2.length

/-- The length of the longest input that a parse of the level leaves. -/
def reach (level : List (α × List τ)) : Nat :=
  level.foldr (fun r n => max r.2.length n) 0

theorem length_le_reach {level : List (α × List τ)} {r : α × List τ} (h : r ∈ level) :
    r.2.length ≤ reach level := by
  induction level with
  | nil => exact absurd h List.not_mem_nil
  | cons s level ih =>
    rw [reach, List.foldr_cons, ← reach]
    rcases List.mem_cons.mp h with rfl | h
    · exact Nat.le_max_left _ _
    · exact Nat.le_trans (ih h) (Nat.le_max_right _ _)

theorem reach_lt {level : List (α × List τ)} {n : Nat} (hpos : 0 < n)
    (h : ∀ r ∈ level, r.2.length < n) : reach level < n := by
  induction level with
  | nil => exact hpos
  | cons r level ih =>
    rw [List.forall_mem_cons] at h
    rw [reach, List.foldr_cons, ← reach]
    exact Nat.max_lt.mpr ⟨h.1, ih h.2⟩

/-- The parses of a level are steps from the level before that leave less. -/
theorem mem_extend {step : α → Parser τ α} {level : List (α × List τ)} {s : α × List τ} :
    s ∈ extend step level ↔ ∃ r ∈ level, s ∈ step r.1 r.2 ∧ s.2.length < r.2.length := by
  simp only [extend, List.mem_flatMap, List.mem_filter, decide_eq_true_eq]

/-- Inputs get shorter from level to level. -/
theorem reach_extend_lt {step : α → Parser τ α} {level : List (α × List τ)}
    (h : extend step level ≠ []) : reach (extend step level) < reach level := by
  have hlt : ∀ s ∈ extend step level, s.2.length < reach level := by
    intro s hs
    obtain ⟨r, hr, -, hlen⟩ := mem_extend.mp hs
    exact Nat.lt_of_lt_of_le hlen (length_le_reach hr)
  -- There is a parse in the new level, so the old one reaches further than nothing.
  obtain ⟨s, hs⟩ := List.exists_mem_of_ne_nil _ h
  exact reach_lt (Nat.zero_lt_of_lt (hlt s hs)) hlt

/-- All levels that grow from a first one, later levels in front of earlier ones, and all of them
    in front of what is given. -/
def grow (step : α → Parser τ α) (level below : List (α × List τ)) : List (α × List τ) :=
  let next := extend step level
  -- More steps are preferred, so the levels pile up with the last one in front.
  if _h : next = [] then level ++ below else grow step next (level ++ below)
termination_by reach level
decreasing_by exact reach_extend_lt _h

/-- Any number of parses one after the other, longest first. -/
def many (p : Parser τ α) : Parser τ (Items α) :=
  fun input => grow (fun xs => map xs.push p) [(.empty, input)] []

/-- One parse or more with separators between them, longest first. -/
def sepBy1 (p : Parser τ α) (sep : Parser τ β) : Parser τ (Items α) :=
  fun input => grow (fun xs => map xs.push (right sep p)) (map Items.empty.push p input) []

/-- Operands with operators between them, combined from the left, longest first. -/
def chainLeft (p : Parser τ α) (op : Parser τ ω) (combine : α → ω → α → α) : Parser τ α :=
  fun input =>
    grow (fun x => map (fun r => combine x r.1 r.2) (andThen op p)) (p input) []

end Parser

end WhileLang
