import WhileLang.Program.OfTokens
import WhileLang.Proofs.Grammar.Statements
import WhileLang.Proofs.Grammar.Unique

/-!
# The Program of a List of Tokens

Tokens are a program exactly if the grammar derives them, whatever they are:
also tokens that no text has, like one behind the mark at the end. Their
program is what the derivation stands for in which every `else` belongs to the
nearest `if`. There is one such derivation, and all other derivations of the
same tokens come from it by moving an `else` from one `if` to another.

The parser returns the first of all complete parses, and this is the one of
such a derivation. That there is one to return follows from any derivation,
and which one it is follows from uniqueness.

## Main definitions

* `StmtTree.Derives`: A derivation of a list of tokens.

## Theorems

* `Program.ofTokens_eq_ok_iff`: The program of a list of tokens.
* `Program.ofTokens_of_nearest`: A derivation with every `else` at the nearest
  `if` tells the program.
* `Program.ofTokens_grammar`: Which lists are programs, which programs they
  are, and how their derivations are related.
-/

namespace WhileLang

/-- The tokens are those that are derived. -/
def StmtTree.Derives (d : StmtTree .program) (ts : List Token) : Prop :=
  d.yield = ts.map Token.kind

namespace StmtTree

variable {ts : List Token} {d d' : StmtTree .program}

/-- There is only one derivation with every `else` at the nearest `if`. -/
theorem Derives.unique (h : d.Derives ts) (h' : d'.Derives ts) (hd : d.Nearest)
    (hd' : d'.Nearest) : d = d' := by
  unfold Derives at h h'
  have hyield : d.yield ++ [] = d'.yield ++ [] := by rw [h, h']
  exact (d.yield_inj d' hd hd' trivial trivial hyield).1

/-- With every `else` moved to the nearest `if`, a derivation is still one of the same tokens. -/
theorem Derives.settle (h : d.Derives ts) : d.settle.Derives ts := by
  unfold Derives
  rw [← (reattached_settle d).yield_eq]
  exact h

/-- All derivations of the same tokens are reattachments of each other, since they settle to the
    same one. -/
theorem Derives.reattached (h : d.Derives ts) (h' : d'.Derives ts) : d.Reattached d' := by
  have hsettle := h.settle.unique h'.settle (nearest_settle d) (nearest_settle d')
  have hd' := (reattached_settle d').symm
  rw [← hsettle] at hd'
  exact (reattached_settle d).trans hd'

end StmtTree

namespace Program

variable {ts : List Token}

theorem ofTokens_eq_ok {b : Block} :
    ofTokens ts = .ok b ↔ Parser.resolve (Grammar.program ts) = some b := by
  unfold ofTokens
  cases Parser.resolve (Grammar.program ts) with
  | none => exact iff_of_false nofun nofun
  | some c => rw [Except.ok.injEq, Option.some.injEq]

/-- A program that is returned is that of a derivation with every `else` at the nearest `if`. -/
theorem exists_nearest {b : Block} (h : ofTokens ts = .ok b) :
    ∃ d : StmtTree .program, d.Derives ts ∧ d.Nearest ∧ d.value = b := by
  rw [ofTokens_eq_ok, Parser.resolve_eq_some] at h
  rcases h with ⟨rest, hfirst⟩
  have hrest := List.isEmpty_iff.mp (Parser.mem_of_first? hfirst).2
  rcases Grammar.preferred_program ts _ b rest hfirst with ⟨d, hvalue, hreads, hnear, -⟩
  rw [hrest] at hreads
  exact ⟨d, reads_all.mp hreads, hnear, hvalue⟩

/-- Tokens that have a derivation have a program. -/
theorem exists_ofTokens {d : StmtTree .program} (h : d.Derives ts) :
    ∃ b, ofTokens ts = .ok b := by
  have hmem := Grammar.derived_program ts d [] (reads_all.mpr h)
  rcases Parser.exists_first? List.isEmpty hmem rfl with ⟨⟨b, rest⟩, hfirst⟩
  exact ⟨b, ofTokens_eq_ok.mpr (Parser.resolve_eq_some.mpr ⟨rest, hfirst⟩)⟩

/-- A derivation with every `else` at the nearest `if` tells the program. -/
theorem ofTokens_of_nearest {d : StmtTree .program} (h : d.Derives ts) (hd : d.Nearest) :
    ofTokens ts = .ok d.value := by
  rcases exists_ofTokens h with ⟨b, hb⟩
  rcases exists_nearest hb with ⟨d', h', hd', hvalue⟩
  rw [hb, ← hvalue, h.unique h' hd hd']

/-- The program of a list of tokens. -/
theorem ofTokens_eq_ok_iff {b : Block} :
    ofTokens ts = .ok b ↔
      ∃ d : StmtTree .program, d.Derives ts ∧ d.Nearest ∧ d.value = b := by
  constructor
  · exact exists_nearest
  · rintro ⟨d, h, hd, rfl⟩
    exact ofTokens_of_nearest h hd

/-- Tokens have a program exactly if they have a derivation. The program is that of the one
    derivation in which every `else` belongs to the nearest `if`, and all derivations of the same
    tokens differ only in which `if` an `else` belongs to. -/
theorem ofTokens_grammar (ts : List Token) :
    ((∃ b, ofTokens ts = .ok b) ↔ ∃ d : StmtTree .program, d.Derives ts) ∧
      (∀ b, ofTokens ts = .ok b ↔
        ∃ d : StmtTree .program, d.Derives ts ∧ d.Nearest ∧ d.value = b) ∧
      ∀ d d' : StmtTree .program, d.Derives ts → d'.Derives ts →
        d.Reattached d' ∧ (d.Nearest → d'.Nearest → d = d') := by
  refine ⟨⟨?_, ?_⟩, fun b => ofTokens_eq_ok_iff, fun d d' h h' => ⟨h.reattached h', h.unique h'⟩⟩
  · rintro ⟨b, hb⟩
    rcases exists_nearest hb with ⟨d, h, -⟩
    exact ⟨d, h⟩
  · rintro ⟨d, h⟩
    exact exists_ofTokens h

/-- The tokens of two branches and one `else`. -/
def danglingElse : List Token :=
  [.keyword .ifKw, .keyword .trueKw, .keyword .thenKw, .keyword .ifKw, .keyword .falseKw,
    .keyword .thenKw, .keyword .skipKw, .keyword .elseKw, .keyword .skipKw, .eof].map
      fun k => ⟨k, default⟩

/-- A program that consists of a single statement. -/
def singleStatement (s : StmtTree .statement) : StmtTree .program :=
  .program (.filled (.statements s .noOthers) false)

/-- The derivation with the `else` at the second branch. -/
def innerElse : StmtTree .program :=
  singleStatement (.ifThen (.const true)
    (.single (.ifThenElse (.const false) (.single .skip) (.single .skip))))

/-- The derivation with the `else` at the first branch. -/
def outerElse : StmtTree .program :=
  singleStatement (.ifThenElse (.const true)
    (.single (.ifThen (.const false) (.single .skip))) (.single .skip))

/-- An `else` behind two branches belongs to the second one, and that is all the grammar leaves
    open. -/
theorem ofTokens_grammar_of_danglingElse :
    innerElse ≠ outerElse ∧ outerElse.Reattached innerElse ∧
      ofTokens danglingElse =
        .ok [.ifElse (.const true) [.ifElse (.const false) [.skip] [.skip]] []] := by
  have h : innerElse.Derives danglingElse := rfl
  have h' : outerElse.Derives danglingElse := rfl
  rcases ofTokens_grammar danglingElse with ⟨-, hprogram, hrelated⟩
  refine ⟨nofun, (hrelated outerElse innerElse h' h).1, ?_⟩
  exact (hprogram _).mpr ⟨innerElse, h, ⟨⟨rfl, trivial, trivial⟩, trivial⟩, rfl⟩

end Program

end WhileLang
