import Mathlib.Logic.Relation
import WhileLang.Parser.Repeat

/-!
# The Parses of a Parser

Which parses the combinators give, whatever their order. For a repetition
these are the parses at the end of a chain: it begins at a parse of the first
level, and each link is a step that leaves less. The levels in which the
chains are worked off do not show any more.

A recursive parser calls itself on less, so what is to be shown of its parses
may be taken for granted of those of the calls. `fix_induction` is this
induction, with the calls as an arbitrary parser of which nothing is known
but what it does on shorter inputs.

## Main definitions

* `Parser.Extends`: One more step of a repetition.
* `Parser.Below`: What holds of the parses of short inputs.

## Theorems

* `Parser.mem_satisfy`, `Parser.mem_right`, `Parser.mem_left`,
  `Parser.mem_opt`: The parses of the combinators.
* `Parser.mem_grow`: The parses of a repetition are the ends of chains.
* `Parser.fix_induction`: Induction for a recursive parser.
-/

namespace WhileLang

namespace Parser

variable {τ α β : Type} {input rest : List τ} {a : α} {b : β}

theorem mem_satisfy {f : τ → Option α} :
    (a, rest) ∈ satisfy f input ↔ ∃ t, input = t :: rest ∧ f t = some a := by
  cases input with
  | nil => exact iff_of_false List.not_mem_nil fun ⟨t, h, _⟩ => nomatch h
  | cons t input =>
      simp only [satisfy, List.mem_map, Option.mem_toList, Prod.mk.injEq, List.cons.injEq]
      constructor
      · rintro ⟨_, h, rfl, rfl⟩
        exact ⟨t, ⟨rfl, rfl⟩, h⟩
      · rintro ⟨_, ⟨rfl, rfl⟩, h⟩
        exact ⟨a, h, rfl, rfl⟩

theorem mem_right {p : Parser τ α} {q : Parser τ β} :
    (b, rest) ∈ right p q input ↔ ∃ a mid, (a, mid) ∈ p input ∧ (b, rest) ∈ q mid := by
  simp only [right, mem_map, Prod.exists, mem_andThen]
  constructor
  · rintro ⟨a, _, ⟨mid, hp, hq⟩, rfl⟩
    exact ⟨a, mid, hp, hq⟩
  · rintro ⟨a, mid, hp, hq⟩
    exact ⟨a, b, ⟨mid, hp, hq⟩, rfl⟩

theorem mem_left {p : Parser τ α} {q : Parser τ β} :
    (a, rest) ∈ left p q input ↔ ∃ mid, (a, mid) ∈ p input ∧ ∃ b, (b, rest) ∈ q mid := by
  simp only [left, mem_map, Prod.exists, mem_andThen]
  constructor
  · rintro ⟨_, b, ⟨mid, hp, hq⟩, rfl⟩
    exact ⟨mid, hp, b, hq⟩
  · rintro ⟨mid, hp, b, hq⟩
    exact ⟨a, b, ⟨mid, hp, hq⟩, rfl⟩

theorem mem_opt {p : Parser τ α} {o : Option α} :
    (o, rest) ∈ opt p input ↔
      (∃ a, o = some a ∧ (a, rest) ∈ p input) ∨ o = none ∧ rest = input := by
  simp only [opt, List.mem_append, List.mem_map, List.mem_singleton, Prod.mk.injEq, Prod.exists]
  constructor
  · rintro (⟨a, _, h, rfl, rfl⟩ | h)
    · exact Or.inl ⟨a, rfl, h⟩
    · exact Or.inr h
  · rintro (⟨a, rfl, h⟩ | h)
    · exact Or.inl ⟨a, rest, h, rfl, rfl⟩
    · exact Or.inr h

/-- One more step of a repetition, which leaves less. -/
def Extends (step : α → Parser τ α) (r s : α × List τ) : Prop :=
  s ∈ step r.1 r.2 ∧ s.2.length < r.2.length

/-- The parses of a repetition are the ends of the chains of steps from the first level. -/
theorem mem_grow {step : α → Parser τ α} {level below : List (α × List τ)} {s : α × List τ} :
    s ∈ grow step level below ↔
      s ∈ below ∨ ∃ r ∈ level, Relation.ReflTransGen (Extends step) r s := by
  fun_induction grow step level below with
  | case1 level below next hnext =>
      -- No parse of the level can be extended, so the chains have no links.
      rw [List.mem_append, or_comm]
      refine or_congr_right ⟨fun h => ⟨s, h, .refl⟩, ?_⟩
      rintro ⟨r, hr, hchain⟩
      cases hchain using Relation.ReflTransGen.head_induction_on with
      | refl => exact hr
      | head hlink _ =>
          have hmem := mem_extend.mpr ⟨r, hr, hlink⟩
          rw [show extend step level = [] from hnext] at hmem
          exact absurd hmem List.not_mem_nil
  | case2 level below next hnext ih =>
      rw [ih, List.mem_append]
      constructor
      · rintro ((h | h) | ⟨t, ht, hchain⟩)
        · exact Or.inr ⟨s, h, .refl⟩
        · exact Or.inl h
        · rcases mem_extend.mp ht with ⟨r, hr, hlink⟩
          exact Or.inr ⟨r, hr, .head hlink hchain⟩
      · rintro (h | ⟨r, hr, hchain⟩)
        · exact Or.inl (Or.inr h)
        · cases hchain using Relation.ReflTransGen.head_induction_on with
          | refl => exact Or.inl (Or.inl hr)
          | head hlink hchain => exact Or.inr ⟨_, mem_extend.mpr ⟨r, hr, hlink⟩, hchain⟩

/-- Something holds of the parses of every input that is shorter than the bound. -/
def Below (n : Nat) (P : List τ → List (α × List τ) → Prop) (p : Parser τ α) : Prop :=
  ∀ input, input.length < n → P input (p input)

/-- What holds of the parses of a recursive parser up to some length if it holds of those of its
    calls up to the length before. -/
theorem fix_induction {f : Parser τ α → Parser τ α} {P : List τ → List (α × List τ) → Prop}
    (h : ∀ n p, Below n P p → Below (n + 1) P (f p)) (n : Nat) : Below n P (fix f) := by
  induction n with
  | zero => intro input hlt; exact absurd hlt (Nat.not_lt_zero _)
  | succ n ih =>
      intro input hlt
      rw [fix_eq]
      -- The calls are on inputs that are shorter than this one.
      refine h input.length _ ?_ input (Nat.lt_succ_self _)
      intro rest hrest
      simp only [if_pos hrest]
      exact ih rest (Nat.lt_of_lt_of_le hrest (Nat.le_of_lt_succ hlt))

end Parser

end WhileLang
