import WhileLang.Program.Grammar
import WhileLang.Proofs.Parser.Chains
import WhileLang.Proofs.Parser.Forms

/-!
# The Grammar Ends by Itself

Every part of the grammar takes a token, except for perhaps statements with
perhaps a semicolon behind them. So all recursion in it is on less, and it
would end without the guard of `fix`: through parentheses, conditions,
branches and the bodies of loops, on every list of tokens, whether it is a
program or not.

The grammar is written down once more as forms, name by name as it is written
as parsers, with the recursion left open as calls of three names. That the
forms are the grammar is true by unfolding. What they take and where they call
themselves is then a matter of evaluation (`grounded_rule`): a condition may
begin with an expression, so it has the higher rank, and everything else that
is called stands behind a token. What the guard cuts off are only calls that
the forms never make (`obeys_rule`).

## Main definitions

* `Grammar.Nonterminal`: The parts that call themselves.
* `Grammar.rule`: Their forms.
* `Parser.Consumes`: Each parse leaves a proper suffix.
* `Grammar.Ends`: A form comes to an end without a guard.

## Theorems

* `Grammar.grounded_rule`: No rule calls itself where it begins.
* `Grammar.obeys_rule`: The parsers are those of the rules.
* `Grammar.consumes_and_ends`: What the parts of the grammar leave, and that
  they end.
-/

namespace WhileLang

/-- Each parse leaves a proper suffix of the input. -/
def Parser.Consumes {τ α : Type} (p : Parser τ α) : Prop :=
  ∀ input, ∀ r ∈ p input, r.2 <:+ input ∧ r.2 ≠ input

namespace Grammar

open WhileLang.Parser

/-- The parts of the grammar that call themselves. -/
inductive Nonterminal : Type → Type where
  | expression : Nonterminal Arith
  | condition : Nonterminal Cond
  | statement : Nonterminal Stmt

/-- The form of a part of the grammar. -/
abbrev GrammarForm := Form Token Nonterminal

section Forms

/-- A reserved word. -/
def wordForm (k : Keyword) : GrammarForm Unit :=
  .token (keyword k) ⟨_, rfl⟩

/-- A symbol. -/
def symbolForm (x : Symbol) : GrammarForm Unit :=
  .token (symbol x) ⟨_, rfl⟩

/-- A name. -/
def nameForm : GrammarForm String :=
  .token identifier ⟨_, rfl⟩

/-- What stands between parentheses. -/
def parenthesizedForm {α : Type} (p : GrammarForm α) : GrammarForm α :=
  .left (.right (symbolForm .lparen) p) (symbolForm .rparen)

/-- An operand of a product. -/
def factorForm : GrammarForm Arith :=
  .orElse (parenthesizedForm (.call .expression))
    (.orElse (.map .var nameForm) (.map .num (.token number ⟨_, rfl⟩)))

/-- A product. -/
def termForm : GrammarForm Arith :=
  .chainLeft factorForm (.token multiplicative ⟨_, rfl⟩) fun l o r => .op o l r

/-- A sum. -/
def expressionForm : GrammarForm Arith :=
  .chainLeft termForm (.token additive ⟨_, rfl⟩) fun l o r => .op o l r

/-- A comparison of two expressions. -/
def comparedForm : GrammarForm Cond :=
  .map (fun r => .compare r.1.2 r.1.1 r.2)
    (.andThen (.andThen (.call .expression) (.token comparison ⟨_, rfl⟩)) (.call .expression))

/-- A condition. -/
def conditionForm : GrammarForm Cond :=
  .orElse
    (.orElse (.map (fun _ => .const true) (wordForm .trueKw))
      (.map (fun _ => .const false) (wordForm .falseKw)))
    (.orElse comparedForm (parenthesizedForm (.call .condition)))

/-- A name and the expression that is assigned to it. -/
def assignmentForm : GrammarForm (String × Arith) :=
  .andThen (.left nameForm (symbolForm .assign)) (.call .expression)

/-- Statements separated by semicolons. -/
def statementsForm : GrammarForm (Items Stmt) :=
  .sepBy1 (.call .statement) (symbolForm .semicolon)

/-- Perhaps statements, and perhaps a semicolon behind them. -/
def openingForm : GrammarForm (Items Stmt) :=
  .map (fun xs => xs.getD .empty) (.left (.opt statementsForm) (.opt (symbolForm .semicolon)))

/-- Statements in braces or a single one. -/
def blockForm : GrammarForm Block :=
  .orElse
    (.map Items.toList (.left (.right (symbolForm .lbrace) openingForm) (symbolForm .rbrace)))
    (.map (fun s => [s]) (.call .statement))

/-- A choice between blocks. -/
def ifForm : GrammarForm Stmt :=
  .map (fun r => .ifElse r.1.1 r.1.2 (r.2.getD []))
    (.andThen
      (.andThen (.left (.right (wordForm .ifKw) (.call .condition)) (wordForm .thenKw)) blockForm)
      (.opt (.right (wordForm .elseKw) blockForm)))

/-- A loop with a condition. -/
def whileForm : GrammarForm Stmt :=
  .map (fun r => .whileDo r.1 r.2)
    (.andThen (.left (.right (wordForm .whileKw) (.call .condition)) (.opt (wordForm .doKw)))
      blockForm)

/-- A counting loop. -/
def forForm : GrammarForm Stmt :=
  .map (fun r => .forTo r.1.1.1 r.1.1.2 r.1.2 r.2)
    (.andThen
      (.left
        (.andThen (.left (.right (wordForm .forKw) assignmentForm) (wordForm .toKw))
          (.call .expression))
        (.opt (wordForm .doKw)))
      blockForm)

/-- A statement that reads. -/
def readForm : GrammarForm Stmt :=
  .map .read (.right (wordForm .readKw) (.orElse nameForm (parenthesizedForm nameForm)))

/-- A statement that writes. -/
def writeForm : GrammarForm Stmt :=
  .right (wordForm .writeKw)
    (.orElse (.map .print (.token string ⟨_, rfl⟩)) (.map .write (.call .expression)))

/-- A statement. -/
def statementForm : GrammarForm Stmt :=
  .orElse
    (.orElse
      (.orElse (.map (fun _ => .skip) (wordForm .skipKw))
        (.map (fun r => .assign r.1 r.2) assignmentForm))
      (.orElse ifForm whileForm))
    (.orElse (.orElse forForm readForm) writeForm)

end Forms

/-- The forms of the parts that call themselves. -/
def rule : ∀ α, Nonterminal α → GrammarForm α
  | _, .expression => expressionForm
  | _, .condition => conditionForm
  | _, .statement => statementForm

/-- A part may begin with one of a lower rank: a condition may begin with an expression. -/
def rank : ∀ α, Nonterminal α → Nat
  | _, .expression | _, .statement => 0
  | _, .condition => 1

/-- Parsers for the parts that call themselves. -/
def parsers (e : Parser Token Arith) (c : Parser Token Cond) (s : Parser Token Stmt) :
    ∀ α, Nonterminal α → Parser Token α
  | _, .expression => e
  | _, .condition => c
  | _, .statement => s

/-- The parsers of the grammar. -/
abbrev grammarParsers : ∀ α, Nonterminal α → Parser Token α :=
  parsers expression condition statement

/-- Every rule takes a token, and none of them calls itself where it begins. -/
theorem grounded_rule : Form.Grounded rule rank 2 where
  rank_lt _ n := by cases n <;> decide
  takes _ n := by cases n <;> rfl
  guarded _ n := by cases n <;> rfl

/-- On so many tokens, a rule may call itself on less only. -/
theorem lt_of_mayCall_self {α : Type} {n : Nonterminal α} {k l : Nat}
    (h : Form.MayCall rank l (rank α n) n k) : k < l :=
  h.resolve_right fun h => Nat.lt_irrefl _ h.2

/-- The parsers of the grammar are those of the rules, because the calls that the guard cuts off
    are not made. -/
theorem obeys_rule : Form.Obeys rule rank grammarParsers := by
  intro α n input
  cases n with
  | expression =>
      -- The form is that of the grammar for any parser in place of the calls.
      have hform : ∀ e, expressionOf e = expressionForm.parses (parsers e condition statement) :=
        fun _ => rfl
      refine ⟨_, (fix_eq expressionOf input).trans (congrFun (hform _) input), ?_⟩
      intro β n' rest hcall
      cases n' with
      | expression => exact if_pos (lt_of_mayCall_self hcall)
      | condition | statement => rfl
  | condition =>
      have hform : ∀ c, conditionOf c = conditionForm.parses (parsers expression c statement) :=
        fun _ => rfl
      refine ⟨_, (fix_eq conditionOf input).trans (congrFun (hform _) input), ?_⟩
      intro β n' rest hcall
      cases n' with
      | condition => exact if_pos (lt_of_mayCall_self hcall)
      | expression | statement => rfl
  | statement =>
      have hform : ∀ s, statementOf s = statementForm.parses (parsers expression condition s) :=
        fun _ => rfl
      refine ⟨_, (fix_eq statementOf input).trans (congrFun (hform _) input), ?_⟩
      intro β n' rest hcall
      cases n' with
      | statement => exact if_pos (lt_of_mayCall_self hcall)
      | expression | condition => rfl

variable {α : Type} {form : GrammarForm α} {p : Parser Token α}

/-- Run without a guard, the form comes to an end on every list of tokens, and it has the parses of
    the parser. Calls are nested no deeper than twice the number of tokens and two, and no loop has
    more rounds than that. -/
def Ends (form : GrammarForm α) (p : Parser Token α) : Prop :=
  ∀ input n, 2 * (input.length + 1) ≤ n → form.run n (Form.runs rule n) input = some (p input)

/-- A form that is built on the parts of the grammar comes to an end. -/
theorem ends_of_parses (h : form.parses grammarParsers = p) : Ends form p := by
  intro input n hn
  rw [← h]
  exact (Form.gives_of_grounded grounded_rule obeys_rule (by decide) form input hn).1

/-- What such a form leaves is a suffix, and a shorter one if it is not nullable. -/
theorem leaves_of_parses (h : form.parses grammarParsers = p) (input : List Token) :
    Leaves form.nullable p input := by
  rw [← h]
  exact (Form.gives_of_grounded grounded_rule obeys_rule (by decide) form input
    (Nat.le_refl _)).2

/-- A form that is not nullable takes a token. -/
theorem consumes_of_parses (h : form.parses grammarParsers = p) (hnull : form.nullable = false) :
    p.Consumes := by
  intro input r hr
  have hleaves := leaves_of_parses h input r hr
  refine ⟨hleaves.1, fun heq => ?_⟩
  have hlt := hleaves.2 hnull
  rw [heq] at hlt
  exact Nat.lt_irrefl _ hlt

/-- What a parse leaves is a suffix of the tokens, and a proper one for every part of the grammar
    but perhaps statements with perhaps a semicolon. With that, the recursion through parentheses,
    conditions, branches and bodies and the loops in it come to an end by themselves on every list
    of tokens. The loops of the repetitions end for other parsers too. -/
theorem consumes_and_ends :
    (expression.Consumes ∧ term.Consumes ∧ factor.Consumes ∧ condition.Consumes ∧
      assignment.Consumes ∧ statement.Consumes ∧ statements.Consumes ∧ block.Consumes ∧
      ∀ input, ∀ r ∈ opening input, r.2 <:+ input) ∧
    (Ends (.call .expression) expression ∧ Ends termForm term ∧ Ends factorForm factor ∧
      Ends (.call .condition) condition ∧ Ends assignmentForm assignment ∧
      Ends (.call .statement) statement ∧ Ends statementsForm statements ∧
      Ends blockForm block ∧ Ends openingForm opening) ∧
    ∀ {β : Type} (step : β → Parser Token β) (level : List (β × List Token)),
      ∃ n ≤ reach level + 1, EndsAfter step level n (grow step level []) := by
  have hexpression : (Form.call .expression : GrammarForm Arith).parses grammarParsers
    = expression := rfl
  have hcondition : (Form.call .condition : GrammarForm Cond).parses grammarParsers
    = condition := rfl
  have hstatement : (Form.call .statement : GrammarForm Stmt).parses grammarParsers
    = statement := rfl
  have hterm : termForm.parses grammarParsers = term := rfl
  have hfactor : factorForm.parses grammarParsers = factor := rfl
  have hassignment : assignmentForm.parses grammarParsers = assignment := rfl
  have hstatements : statementsForm.parses grammarParsers = statements := rfl
  have hblock : blockForm.parses grammarParsers = block := rfl
  have hopening : openingForm.parses grammarParsers = opening := rfl
  refine ⟨⟨?_, ?_, ?_, ?_, ?_, ?_, ?_, ?_, ?_⟩, ?_, fun step level => ?_⟩
  · exact consumes_of_parses hexpression rfl
  · exact consumes_of_parses hterm rfl
  · exact consumes_of_parses hfactor rfl
  · exact consumes_of_parses hcondition rfl
  · exact consumes_of_parses hassignment rfl
  · exact consumes_of_parses hstatement rfl
  · exact consumes_of_parses hstatements rfl
  · exact consumes_of_parses hblock rfl
  · exact fun input r hr => (leaves_of_parses hopening input r hr).1
  · exact ⟨ends_of_parses hexpression, ends_of_parses hterm, ends_of_parses hfactor,
      ends_of_parses hcondition, ends_of_parses hassignment, ends_of_parses hstatement,
      ends_of_parses hstatements, ends_of_parses hblock, ends_of_parses hopening⟩
  · exact exists_endsAfter step level

/-- The tokens of a condition in parentheses, and one that is left. -/
def parenthesizedTrue : List Token :=
  [.symbol .lparen, .keyword .trueKw, .symbol .rparen, .keyword .thenKw].map fun k => ⟨k, default⟩

/-- The parenthesis is taken for that of an expression first, and this comes to an end too. -/
theorem consumes_and_ends_of_parenthesizedTrue :
    condition parenthesizedTrue = [(.const true, parenthesizedTrue.drop 3)] ∧
      parenthesizedTrue.drop 3 <:+ parenthesizedTrue ∧
      (Form.call .condition : GrammarForm Cond).run 10 (Form.runs rule 10) parenthesizedTrue =
        some [(.const true, parenthesizedTrue.drop 3)] := by
  have hparse : condition parenthesizedTrue = [(.const true, parenthesizedTrue.drop 3)] := by
    with_unfolding_all rfl
  rcases consumes_and_ends with ⟨⟨-, -, -, hconsumes, -⟩, ⟨-, -, -, hends, -⟩, -⟩
  refine ⟨hparse, ?_, ?_⟩
  · refine (hconsumes parenthesizedTrue (.const true, parenthesizedTrue.drop 3) ?_).1
    rw [hparse]
    exact List.mem_singleton_self _
  · rw [hends parenthesizedTrue 10 (by decide), hparse]

end Grammar

end WhileLang
