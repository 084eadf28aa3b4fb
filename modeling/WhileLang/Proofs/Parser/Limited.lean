import WhileLang.Proofs.Parser.Folded
import WhileLang.Proofs.Parser.Results

/-!
# Parsers Within a Limit

What a parse leaves, and parsers that may fail to come to an end.

A parser here is a function of its input, so there is no question whether it
ends. The question can be asked of a run that counts: one that makes every
call as it stands, and has no result once the calls are nested too deeply or a
loop has too many rounds. `Limited` is a parser with such runs. It has the
combinators of parsers, with everything beyond the limit going through to the
outside, and `Gives` says that it has a result for an input, and which one.
Each combinator gives what it should if its parts do, on those inputs on which
they are run.

For a loop this depends on what its steps leave. `Leaves` says it of a parser
on one input: a suffix, and a shorter one unless the parser may take nothing.
As nothing is said of other inputs, it can be shown by recursion on the input.

## Main definitions

* `Parser.Leaves`: What the parses of an input leave.
* `Limited`: Parsers that may go beyond a limit, and their combinators.
* `Limited.Gives`: A parser stays within its limit, and has these parses.

## Theorems

* `Parser.leaves_andThen`: Of two parsers, one that takes something is enough.
* `Parser.leaves_grow`: Loops leave what their first parser leaves, or less.
* `Limited.gives_grow`: A loop ends after as many rounds as there is input.
* `Limited.gives_loop`: Loops give the parses of the repetition.
-/

namespace WhileLang

namespace Parser

variable {τ α β : Type} {p : Parser τ α} {q : Parser τ β} {input : List τ} {b c : Bool}

/-- Each parse leaves a suffix of the input, and a shorter one unless it may take nothing. -/
def Leaves (takesNothing : Bool) (p : Parser τ α) (input : List τ) : Prop :=
  ∀ r ∈ p input, r.2 <:+ input ∧ (takesNothing = false → r.2.length < input.length)

theorem Leaves.weaken (h : Leaves b p input) : Leaves true p input :=
  fun r hr => ⟨(h r hr).1, nofun⟩

theorem leaves_satisfy {f : τ → Option α} : Leaves b (satisfy f) input := by
  rintro ⟨a, rest⟩ hr
  rcases mem_satisfy.mp hr with ⟨t, rfl, -⟩
  exact ⟨List.suffix_cons t rest, fun _ => Nat.lt_succ_self _⟩

theorem leaves_orElse {q : Parser τ α} (h : Leaves b p input) (h' : Leaves c q input) :
    Leaves (b || c) (orElse p q) input := by
  intro r hr
  rw [Bool.or_eq_false_iff]
  rcases mem_orElse.mp hr with hr | hr
  · exact ⟨(h r hr).1, fun hbc => (h r hr).2 hbc.1⟩
  · exact ⟨(h' r hr).1, fun hbc => (h' r hr).2 hbc.2⟩

theorem leaves_andThen (h : Leaves b p input) (h' : ∀ r ∈ p input, Leaves c q r.2) :
    Leaves (b && c) (andThen p q) input := by
  rintro ⟨⟨x, y⟩, rest⟩ hr
  rcases mem_andThen.mp hr with ⟨mid, hp, hq⟩
  have hmid := h _ hp
  have hrest := h' _ hp _ hq
  refine ⟨hrest.1.trans hmid.1, fun hbc => ?_⟩
  have hle := hmid.1.length_le
  have hle' := hrest.1.length_le
  -- One of the two takes a token, and the other one gives none back.
  rcases Bool.and_eq_false_iff.mp hbc with hb | hc
  · exact Nat.lt_of_le_of_lt hle' (hmid.2 hb)
  · exact Nat.lt_of_lt_of_le (hrest.2 hc) hle

theorem leaves_map {f : α → β} (h : Leaves b p input) : Leaves b (map f p) input := by
  rintro ⟨y, rest⟩ hr
  rcases mem_map.mp hr with ⟨x, hx, -⟩
  exact h _ hx

theorem leaves_opt (h : Leaves b p input) : Leaves true (opt p) input := by
  rintro ⟨o, rest⟩ hr
  rcases mem_opt.mp hr with ⟨x, -, hx⟩ | ⟨-, rfl⟩
  · exact h.weaken _ hx
  · exact ⟨List.suffix_refl _, nofun⟩

/-- Where nothing has been parsed yet, everything is left. -/
theorem leaves_start {a : α} : Leaves true (fun input => [(a, input)]) input := by
  intro r hr
  rw [List.mem_singleton.mp hr]
  exact ⟨List.suffix_refl _, nofun⟩

/-- What is left at the end of a loop is a suffix of what is left at its beginning. -/
theorem leaves_grow {step : α → Parser τ α} (h : Leaves b p input)
    (hstep : ∀ r ∈ p input, ∀ x rest, rest.length ≤ r.2.length → Leaves true (step x) rest) :
    Leaves b (fun input => grow step (p input) []) input := by
  intro s hs
  rcases mem_grow.mp hs with hs | ⟨r, hr, hchain⟩
  · exact absurd hs List.not_mem_nil
  · have hsuffix : s.2 <:+ r.2 := by
      clear hs
      -- The chain is followed from its beginning, so the inputs of its steps are suffixes.
      induction hchain with
      | refl => exact List.suffix_refl _
      | @tail t s _ hlink ih => exact ((hstep r hr t.1 t.2 ih.length_le) s hlink.1).1.trans ih
    have hfirst := h r hr
    exact ⟨hsuffix.trans hfirst.1, fun hb => Nat.lt_of_le_of_lt hsuffix.length_le (hfirst.2 hb)⟩

end Parser

/-- A parser that may go beyond a limit, and then has no result. -/
abbrev Limited (τ α : Type) := List τ → Option (List (α × List τ))

namespace Limited

variable {τ α β : Type}

/-- Beyond the limit. -/
def exceeded : Limited τ α :=
  fun _ => none

/-- The parses of the first parser, then those of the second. -/
def orElse (p q : Limited τ α) : Limited τ α := fun input => do
  return (← p input) ++ (← q input)

/-- Each parse of the first parser, followed by each of the second on what is left. -/
def andThen (p : Limited τ α) (q : Limited τ β) : Limited τ (α × β) := fun input => do
  (← p input).flatMapM fun r => do return (← q r.2).map fun s => ((r.1, s.1), s.2)

/-- The parses with their values changed. -/
def map (f : α → β) (p : Limited τ α) : Limited τ β := fun input => do
  return (← p input).map fun r => (f r.1, r.2)

/-- The parses of the parser, then the empty one. -/
def opt (p : Limited τ α) : Limited τ (Option α) := fun input => do
  return (← p input).map (fun r => (some r.1, r.2)) ++ [(none, input)]

/-- All ways to add one step to one of the parses, if the step leaves less than it was given. -/
def extend (step : α → Limited τ α) (level : List (α × List τ)) : Option (List (α × List τ)) :=
  level.flatMapM fun r => do return (← step r.1 r.2).filter fun s => s.2.length < r.2.length

/-- The levels that grow from a first one, in no more than so many rounds. -/
def grow (step : α → Limited τ α) (rounds : Nat) (level below : List (α × List τ)) :
    Option (List (α × List τ)) :=
  match rounds with
  | 0 => none
  | rounds + 1 => do
    let next ← extend step level
    if next = [] then return level ++ below else grow step rounds next (level ++ below)

/-- The loop that begins with the parses of a parser. -/
def loop (rounds : Nat) (step : α → Limited τ α) (first : Limited τ α) : Limited τ α :=
  fun input => do grow step rounds (← first input) []

/-- The parser stays within its limit on the input, and has the parses of the other one. -/
def Gives (p : Limited τ α) (q : Parser τ α) (input : List τ) : Prop :=
  p input = some (q input)

variable {p : Limited τ α} {q : Parser τ α} {p' : Limited τ β} {q' : Parser τ β}
  {input : List τ}

theorem flatMapM_eq_some {f : α → Option (List β)} {g : α → List β} {xs : List α}
    (h : ∀ x ∈ xs, f x = some (g x)) : xs.flatMapM f = some (xs.flatMap g) := by
  induction xs with
  | nil => rfl
  | cons x xs ih =>
      rw [List.forall_mem_cons] at h
      rw [List.flatMapM_cons, h.1, ih h.2]
      rfl

theorem gives_orElse {p' : Limited τ α} {q' : Parser τ α} (h : Gives p q input)
    (h' : Gives p' q' input) : Gives (orElse p p') (Parser.orElse q q') input := by
  unfold Gives at *
  simp [orElse, Parser.orElse, h, h']

theorem gives_andThen (h : Gives p q input) (h' : ∀ r ∈ q input, Gives p' q' r.2) :
    Gives (andThen p p') (Parser.andThen q q') input := by
  unfold Gives at *
  simp only [andThen, Parser.andThen, h, Option.bind_eq_bind, Option.bind_some]
  refine flatMapM_eq_some fun r hr => ?_
  simp [h' r hr]

theorem gives_map {f : α → β} (h : Gives p q input) :
    Gives (map f p) (Parser.map f q) input := by
  unfold Gives at *
  simp [map, Parser.map, h]

theorem gives_opt (h : Gives p q input) : Gives (opt p) (Parser.opt q) input := by
  unfold Gives at *
  simp [opt, Parser.opt, h]

section Loops

variable {step : α → Limited τ α} {step' : α → Parser τ α} {level : List (α × List τ)}

theorem extend_eq_some (h : ∀ r ∈ level, Gives (step r.1) (step' r.1) r.2) :
    extend step level = some (Parser.extend step' level) := by
  refine flatMapM_eq_some fun r hr => ?_
  rw [show step r.1 r.2 = some (step' r.1 r.2) from h r hr]
  rfl

/-- A loop whose steps stay within the limit ends after as many rounds as there is input, and one
    more. -/
theorem gives_grow {rounds : Nat} (hrounds : Parser.reach level < rounds)
    (h : ∀ r ∈ level, ∀ x rest, rest.length ≤ r.2.length → Gives (step x) (step' x) rest)
    (below : List (α × List τ)) :
    grow step rounds level below = some (Parser.grow step' level below) := by
  induction rounds generalizing level below with
  | zero => exact absurd hrounds (Nat.not_lt_zero _)
  | succ rounds ih =>
      have hnext : extend step level = some (Parser.extend step' level) :=
        extend_eq_some fun r hr => h r hr r.1 r.2 (Nat.le_refl _)
      rw [grow, hnext, Option.bind_eq_bind, Option.bind_some]
      by_cases hend : Parser.extend step' level = []
      · rw [if_pos hend, Parser.grow_of_extend_eq_nil hend]
        rfl
      · rw [if_neg hend, Parser.grow_of_extend_ne_nil hend]
        -- The parses of the next level leave less than some parse of this one.
        refine ih ?_ (fun s hs x rest hrest => ?_) _
        · have := Parser.reach_extend_lt hend
          omega
        · rcases Parser.mem_extend.mp hs with ⟨r, hr, -, hlt⟩
          exact h r hr x rest (by omega)

/-- A loop from parses that leave no more than the input gives the parses of the repetition, if its
    steps give what they should wherever they may begin. -/
theorem gives_loop {first : Limited τ α} {first' : Parser τ α} {rounds : Nat} {b : Bool}
    (hrounds : input.length < rounds) (h : Gives first first' input)
    (hleaves : Parser.Leaves b first' input)
    (hstep : ∀ r ∈ first' input, ∀ x rest, rest.length ≤ r.2.length →
      Gives (step x) (step' x) rest) :
    Gives (loop rounds step first) (fun input => Parser.grow step' (first' input) []) input := by
  have hreach : Parser.reach (first' input) < rounds := by
    refine Parser.reach_lt (by omega) fun r hr => ?_
    have := (hleaves r hr).1.length_le
    omega
  unfold Gives at h
  simp only [Gives, loop, h, Option.bind_eq_bind, Option.bind_some]
  exact gives_grow hreach hstep []

end Loops

end Limited

end WhileLang
