import WhileLang.Proofs.Grammar.Trees

/-!
# Where Expressions End

Two derivations of an expression that derive the same tokens are the same, and
so are two derivations of a condition. This is shown with something behind the
tokens, because a part has to be told from what follows it: it `Stops` an
operand if the first token behind it is no operator that the operand could
have gone on with.

One pair of rules cannot be told apart by the first token. A parenthesis at the
start of a condition may belong to the condition or to an expression in it;
what is between the parentheses then differs further inside.

## Main definitions

* `Stops`: No operator that an operand could go on with comes first.

## Theorems

* `ArithTree.yield_inj`: Expressions and what is behind them.
* `CondTree.yield_rparen_ne`: Between parentheses, no condition is an expression.
* `CondTree.yield_inj`: Conditions and what is behind them.
-/

namespace WhileLang

/-- How weakly operators of the level bind. -/
def Level.rank : Level → Nat
  | .factor => 0
  | .term => 1
  | .expression => 2

theorem Level.rank_below_lt {l : Level} (hl : l ≠ .factor) : l.below.rank < l.rank := by
  cases l with
  | factor => exact absurd rfl hl
  | term | expression => decide

theorem Level.rank_le_expression (l : Level) : l.rank ≤ Level.expression.rank := by
  cases l <;> decide

theorem ArithOp.level_ne_factor (o : ArithOp) : o.level ≠ .factor := by
  cases o <;> decide

theorem ArithOp.symbol_inj {o o' : ArithOp} : o.symbol = o'.symbol ↔ o = o' := by
  cases o <;> cases o' <;> decide

theorem CompareOp.symbol_inj {o o' : CompareOp} : o.symbol = o'.symbol ↔ o = o' := by
  cases o <;> cases o' <;> decide

/-- What comes first is not an operator that an operand of the level could go on with. -/
def Stops (l : Level) (r : List TokenKind) : Prop :=
  ∀ o : ArithOp, o.level.rank ≤ l.rank → r.head? ≠ some (.symbol o.symbol)

theorem Stops.below {l : Level} {r : List TokenKind} (h : Stops l r) : Stops l.below r := by
  intro o ho
  refine h o (Nat.le_trans ho ?_)
  cases l <;> decide

theorem stops_cons {l : Level} {k : TokenKind} {r : List TokenKind}
    (h : ∀ o : ArithOp, k ≠ .symbol o.symbol) : Stops l (k :: r) := by
  intro o _ heq
  exact h o (Option.some.inj heq)

theorem stops_keyword {l : Level} {k : Keyword} {r : List TokenKind} :
    Stops l (.keyword k :: r) :=
  stops_cons nofun

/-- An operand cannot go on with an operator of the level above. -/
theorem stops_operator {l : Level} (hl : l ≠ .factor) {o : ArithOp} (ho : o.level = l)
    {r : List TokenKind} : Stops l.below (.symbol o.symbol :: r) := by
  intro o' ho' heq
  have hsymbol : o = o' := ArithOp.symbol_inj.mp (TokenKind.symbol.inj (Option.some.inj heq))
  have hlt := Level.rank_below_lt hl
  rw [← hsymbol, ho] at ho'
  omega

/-- The level whose operators a part of an expression could go on with. -/
def ArithPart.level : ArithPart → Level
  | .operand l | .links l => l

/-- The token can be the first one of an expression. -/
def TokenKind.startsExpression : TokenKind → Bool
  | .symbol .lparen | .identifier _ | .integer _ => true
  | _ => false

namespace ArithTree

variable {l : Level} {r r' : List TokenKind}

theorem exists_head : ∀ {l : Level} (d : ArithTree (.operand l)),
    ∃ k w, d.yield = k :: w ∧ k.startsExpression = true
  | _, .parens _ => ⟨_, _, rfl, rfl⟩
  | _, .name _ => ⟨_, _, rfl, rfl⟩
  | _, .number _ => ⟨_, _, rfl, rfl⟩
  | _, .chain _ first more => by
      rcases exists_head first with ⟨k, w, h, hk⟩
      refine ⟨k, w ++ more.yield, ?_, hk⟩
      rw [yield, h, List.cons_append]

/-- An operand begins with a factor. -/
theorem exists_factor : ∀ {l : Level} (d : ArithTree (.operand l)),
    ∃ (f : ArithTree (.operand .factor)) (w : List TokenKind), d.yield = f.yield ++ w
  | _, .parens e => ⟨.parens e, [], (List.append_nil _).symm⟩
  | _, .name x => ⟨.name x, [], (List.append_nil _).symm⟩
  | _, .number n => ⟨.number n, [], (List.append_nil _).symm⟩
  | _, .chain _ first more => by
      rcases exists_factor first with ⟨f, w, h⟩
      refine ⟨f, w ++ more.yield, ?_⟩
      rw [yield, h, List.append_assoc]

/-- The links of a level are not in an operand that they follow. -/
theorem stops_links (hl : l ≠ .factor) (more : ArithTree (.links l)) (hr : Stops l r) :
    Stops l.below (more.yield ++ r) := by
  cases more with
  | done => exact hr.below
  | link o ho operand more => exact stops_operator hl ho

/-- What an expression derives can be told from what is behind it. -/
theorem yield_inj {p : ArithPart} (d d' : ArithTree p) (hr : Stops p.level r)
    (hr' : Stops p.level r') (h : d.yield ++ r = d'.yield ++ r') : d = d' ∧ r = r' := by
  induction d generalizing r r' with
  | parens e ih =>
      cases d' with
      | parens e' =>
          simp only [yield, inParentheses, List.cons_append, List.append_assoc, List.cons.injEq,
            true_and, List.nil_append] at h
          have hclose : ∀ r, Stops .expression (.symbol .rparen :: r) := fun r =>
            stops_cons fun o => by cases o <;> simp [ArithOp.symbol]
          rcases ih e' (hclose r) (hclose r') h with ⟨rfl, hr⟩
          exact ⟨rfl, List.tail_eq_of_cons_eq hr⟩
      | chain hl => exact absurd rfl hl
      | _ => simp [yield, inParentheses] at h
  | name x =>
      cases d' with
      | name x' => simpa [yield] using h
      | chain hl => exact absurd rfl hl
      | _ => simp [yield, inParentheses] at h
  | number n =>
      cases d' with
      | number n' => simpa [yield] using h
      | chain hl => exact absurd rfl hl
      | _ => simp [yield, inParentheses] at h
  | chain hl first more ih ihmore =>
      cases d' with
      | chain _ first' more' =>
          simp only [yield, List.append_assoc] at h
          rcases ih first' (stops_links hl more hr) (stops_links hl more' hr') h with ⟨rfl, hmore⟩
          rcases ihmore more' hr hr' hmore with ⟨rfl, hrest⟩
          exact ⟨rfl, hrest⟩
      | _ => exact absurd rfl hl
  | done =>
      cases d' with
      | done => exact ⟨rfl, h⟩
      | link o ho operand more =>
          -- The operator would have to be what stops the left part.
          refine absurd ?_ (hr o (Nat.le_of_eq (congrArg Level.rank ho)))
          rw [show r = _ from h]
          rfl
  | link o ho operand more ih ihmore =>
      cases d' with
      | done =>
          refine absurd ?_ (hr' o (Nat.le_of_eq (congrArg Level.rank ho)))
          rw [show r' = _ from h.symm]
          rfl
      | link o' ho' operand' more' =>
          -- An operand is followed by links or by what follows the links: it is over there.
          have hl := ho ▸ o.level_ne_factor
          simp only [yield, List.cons_append, List.append_assoc, List.cons.injEq,
            TokenKind.symbol.injEq, ArithOp.symbol_inj] at h
          rcases h with ⟨rfl, h⟩
          rcases ih operand' (stops_links hl more hr) (stops_links hl more' hr') h with
            ⟨rfl, hmore⟩
          rcases ihmore more' hr hr' hmore with ⟨rfl, hrest⟩
          exact ⟨rfl, hrest⟩

end ArithTree

namespace CondTree

variable {r r' : List TokenKind}

theorem stops_compare {l : Level} (o : CompareOp) : Stops l (.symbol o.symbol :: r) :=
  stops_cons fun o' => by cases o <;> cases o' <;> simp [ArithOp.symbol, CompareOp.symbol]

theorem stops_rparen {l : Level} : Stops l (.symbol .rparen :: r) :=
  stops_cons fun o => by cases o <;> simp [ArithOp.symbol]

/-- An expression that begins with a parenthesis has an expression in it, which a condition in
    parentheses has not if no condition in parentheses is an expression further inside. -/
theorem parens_yield_ne {c : CondTree}
    (hc : ∀ (e : ExprTree) (r r' : List TokenKind),
      c.yield ++ .symbol .rparen :: r ≠ e.yield ++ .symbol .rparen :: r')
    (e : ExprTree) : (CondTree.parens c).yield ++ r ≠ e.yield ++ r' := by
  intro h
  rcases e.exists_factor with ⟨f, w, hf⟩
  rw [hf, List.append_assoc] at h
  cases f with
  | parens e' =>
      simp only [yield, ArithTree.yield, inParentheses, List.cons_append, List.append_assoc,
        List.cons.injEq, true_and, List.nil_append] at h
      exact hc e' _ _ h
  | chain hl => exact absurd rfl hl
  | _ => simp [yield, ArithTree.yield, inParentheses] at h

/-- Between parentheses, a condition is never an expression. -/
theorem yield_rparen_ne (c : CondTree) (e : ExprTree) (r r' : List TokenKind) :
    c.yield ++ .symbol .rparen :: r ≠ e.yield ++ .symbol .rparen :: r' := by
  induction c generalizing e r r' with
  | const b =>
      rcases e.exists_head with ⟨k, w, he, hk⟩
      rw [he]
      intro h
      rw [← List.head_eq_of_cons_eq h] at hk
      cases b <;> cases hk
  | compare o left right =>
      intro h
      simp only [yield, List.append_assoc, List.cons_append] at h
      have hr := (left.yield_inj e (stops_compare o) stops_rparen h).2
      cases o <;> cases List.head_eq_of_cons_eq hr
  | parens c ih => exact parens_yield_ne ih e

/-- What a condition derives can be told from what is behind it. -/
theorem yield_inj (c c' : CondTree) (hr : Stops .expression r) (hr' : Stops .expression r')
    (h : c.yield ++ r = c'.yield ++ r') : c = c' ∧ r = r' := by
  induction c generalizing c' r r' with
  | const b =>
      cases c' with
      | const b' => cases b <;> cases b' <;> simp_all [yield]
      | compare o left right =>
          rcases left.exists_head with ⟨k, w, hl, hk⟩
          rw [yield, yield, hl] at h
          rw [← List.head_eq_of_cons_eq h] at hk
          cases b <;> cases hk
      | parens c' => simp [yield, inParentheses] at h
  | compare o left right =>
      cases c' with
      | const b =>
          rcases left.exists_head with ⟨k, w, hl, hk⟩
          rw [yield, yield, hl] at h
          rw [List.head_eq_of_cons_eq h] at hk
          cases b <;> cases hk
      | compare o' left' right' =>
          simp only [yield, List.append_assoc, List.cons_append] at h
          rcases left.yield_inj left' (stops_compare o) (stops_compare o') h with ⟨rfl, hright⟩
          simp only [List.cons.injEq, TokenKind.symbol.injEq, CompareOp.symbol_inj] at hright
          rcases hright with ⟨rfl, hright⟩
          rcases right.yield_inj right' hr hr' hright with ⟨rfl, hrest⟩
          exact ⟨rfl, hrest⟩
      | parens c' =>
          refine absurd h.symm ?_
          rw [yield, List.append_assoc]
          exact parens_yield_ne c'.yield_rparen_ne left
  | parens c ih =>
      cases c' with
      | const b => simp [yield, inParentheses] at h
      -- Both begin with a parenthesis, so they are told apart by what is in it.
      | compare o left right =>
          refine absurd h ?_
          rw [yield.eq_def (.compare o left right), List.append_assoc]
          exact parens_yield_ne c.yield_rparen_ne left
      | parens c' =>
          simp only [yield, inParentheses, List.cons_append, List.append_assoc, List.cons.injEq,
            true_and, List.nil_append] at h
          rcases ih c' stops_rparen stops_rparen h with ⟨rfl, hrest⟩
          exact ⟨rfl, List.tail_eq_of_cons_eq hrest⟩

end CondTree

end WhileLang
