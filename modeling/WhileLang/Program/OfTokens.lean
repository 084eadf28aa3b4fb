import WhileLang.Program.Grammar

/-!
# Reading Programs

A list of tokens is a program if the grammar can parse all of it, and the
preferred such parse is the program. Otherwise the error is at the token
right behind the longest opening that can be parsed, where an opening is a
list of statements with or without a last semicolon.

## Main definitions

* `ParseError`: Why tokens are no program.
* `Program.ofTokens`: The program of a list of tokens.

## Theorems

* `Program.shortest_mem`: The shortest of several rests is one of them.
* `Program.length_shortest_le`: None of them is shorter.
-/

namespace WhileLang

/-- Why tokens are no program. -/
inductive ParseError where
  | unexpectedToken (token : Token)
  | noParse
deriving DecidableEq, Repr

/-- The wording of an error. -/
def ParseError.message : ParseError → String
  | .unexpectedToken token =>
    "Unexpected " ++ token.kind.display ++ " at line " ++ Decimal.natText token.span.start.line
      ++ ", column " ++ Decimal.natText token.span.start.column
  | .noParse => "Cannot parse an empty token stream"

namespace Program

variable {τ : Type}

/-- The first of the shortest of several lists, the given one included. -/
def shortest (first : List τ) (others : List (List τ)) : List τ :=
  others.foldl (fun best next => if next.length < best.length then next else best) first

/-- The shortest of several lists is one of them. -/
theorem shortest_mem (first : List τ) (others : List (List τ)) :
    shortest first others ∈ first :: others := by
  induction others generalizing first with
  | nil => exact List.mem_singleton.mpr rfl
  | cons next others ih =>
    rw [shortest, List.foldl_cons, ← shortest]
    -- It is the better of the first two, or one of the others.
    rcases List.mem_cons.mp (ih (if next.length < first.length then next else first)) with h | h
    · rw [h]
      split
      · exact List.mem_cons_of_mem _ List.mem_cons_self
      · exact List.mem_cons_self
    · exact List.mem_cons_of_mem _ (List.mem_cons_of_mem _ h)

/-- None of them is shorter. -/
theorem length_shortest_le (first : List τ) (others : List (List τ)) :
    ∀ s ∈ first :: others, (shortest first others).length ≤ s.length := by
  induction others generalizing first with
  | nil => intro s hs; rw [List.mem_singleton.mp hs]; exact Nat.le_refl _
  | cons next others ih =>
    rw [shortest, List.foldl_cons, ← shortest]
    have hbest := ih (if next.length < first.length then next else first)
    -- The better of the first two is no longer than either of them.
    simp only [List.forall_mem_cons] at hbest ⊢
    refine ⟨?_, ?_, hbest.2⟩ <;> refine Nat.le_trans hbest.1 ?_ <;> split <;> omega

/-- The error of tokens that are no program: the token behind the longest opening. -/
def errorOf (tokens : List Token) : ParseError :=
  match (shortest tokens ((Grammar.opening tokens).map (·.2))).head? with
  | some token => .unexpectedToken token
  | none => .noParse

/-- The program of a list of tokens. -/
def ofTokens (tokens : List Token) : Except ParseError Block :=
  match Parser.resolve (Grammar.program tokens) with
  | some block => .ok block
  | none => .error (errorOf tokens)

end Program

end WhileLang
