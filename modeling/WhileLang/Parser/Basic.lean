/-!
# Parsers That Return All Parses

A parser maps an input to every way in which it can parse a beginning of it:
a list of values, each with the rest of the input behind it. The order of the
list is an order of preference. No parse at all is failure.

The input is a list of tokens of any kind. A parser consumes if each of its
parses leaves less than it was given; a repetition ignores steps that do not,
and a recursive definition may only call itself on less.

## Main definitions

* `Parser`: From an input to its parses.
* `Parser.orElse`, `Parser.andThen`, `Parser.map`, `Parser.opt`: The combinators.
* `Parser.satisfy`: One token of a kind.
* `Parser.fix`: A parser defined in terms of itself.
* `Parser.resolve`: The preferred parse that leaves nothing.

## Theorems

* `Parser.mem_andThen`: The parses of two parsers one after the other.
* `Parser.fix_eq`: A recursive parser calls itself on less only.
-/

namespace WhileLang

/-- From an input to the parses of its beginnings, each with what is left. -/
abbrev Parser (τ α : Type) := List τ → List (α × List τ)

namespace Parser

variable {τ α β : Type}

/-- The parses of the first parser, then those of the second. -/
def orElse (p q : Parser τ α) : Parser τ α :=
  fun input => p input ++ q input

/-- Each parse of the first parser, followed by each of the second on what is left. -/
def andThen (p : Parser τ α) (q : Parser τ β) : Parser τ (α × β) :=
  fun input => (p input).flatMap fun r => (q r.2).map fun s => ((r.1, s.1), s.2)

/-- The parses with their values changed. -/
def map (f : α → β) (p : Parser τ α) : Parser τ β :=
  fun input => (p input).map fun r => (f r.1, r.2)

/-- Both, for the value of the second. -/
def right (p : Parser τ α) (q : Parser τ β) : Parser τ β :=
  map Prod.snd (andThen p q)

/-- Both, for the value of the first. -/
def left (p : Parser τ α) (q : Parser τ β) : Parser τ α :=
  map Prod.fst (andThen p q)

/-- The parses of the parser, then the empty one. -/
def opt (p : Parser τ α) : Parser τ (Option α) :=
  fun input => (p input).map (fun r => (some r.1, r.2)) ++ [(none, input)]

/-- One token that has a value. -/
def satisfy (f : τ → Option α) : Parser τ α
  | [] => []
  | t :: rest => (f t).toList.map fun a => (a, rest)

/-- The parser that is defined by `f` in terms of itself. It may call itself only on inputs that
    are shorter than its own. -/
def fix (f : Parser τ α → Parser τ α) (input : List τ) : List (α × List τ) :=
  f (fun rest => if _h : rest.length < input.length then fix f rest else []) input
termination_by input.length

/-- The value of the first parse that leaves nothing. -/
def resolve (results : List (α × List τ)) : Option α :=
  (results.find? (·.2.isEmpty)).map (·.1)

@[simp] theorem mem_orElse {p q : Parser τ α} {input : List τ} {r : α × List τ} :
    r ∈ orElse p q input ↔ r ∈ p input ∨ r ∈ q input :=
  List.mem_append

@[simp] theorem mem_andThen {p : Parser τ α} {q : Parser τ β} {input : List τ}
    {a : α} {b : β} {rest : List τ} :
    ((a, b), rest) ∈ andThen p q input ↔ ∃ mid, (a, mid) ∈ p input ∧ (b, rest) ∈ q mid := by
  simp only [andThen, List.mem_flatMap, List.mem_map, Prod.mk.injEq, Prod.exists]
  -- The place between the two parses is the rest that the first one leaves.
  constructor
  · rintro ⟨a', mid, hp, b', rest', hq, ⟨rfl, rfl⟩, rfl⟩
    exact ⟨mid, hp, hq⟩
  · rintro ⟨mid, hp, hq⟩
    exact ⟨a, mid, hp, b, rest, hq, ⟨rfl, rfl⟩, rfl⟩

@[simp] theorem mem_map {f : α → β} {p : Parser τ α} {input : List τ} {b : β} {rest : List τ} :
    (b, rest) ∈ map f p input ↔ ∃ a, (a, rest) ∈ p input ∧ f a = b := by
  simp only [map, List.mem_map, Prod.mk.injEq, Prod.exists]
  constructor
  · rintro ⟨a, _, h, rfl, rfl⟩
    exact ⟨a, h, rfl⟩
  · rintro ⟨a, h, rfl⟩
    exact ⟨a, rest, h, rfl, rfl⟩

/-- A recursive parser is its definition, with itself in place of the calls on less. -/
theorem fix_eq (f : Parser τ α → Parser τ α) (input : List τ) :
    fix f input =
      f (fun rest => if rest.length < input.length then fix f rest else []) input := by
  rw [fix]
  simp only [dite_eq_ite]

end Parser

end WhileLang
