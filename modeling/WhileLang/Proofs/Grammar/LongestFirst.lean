import WhileLang.Proofs.Grammar.Ends
import WhileLang.Proofs.Grammar.Expressions
import WhileLang.Proofs.Parser.Ordered

/-!
# Expressions Are Parsed Longest First

An expression has as many parses as there are places at which it could end,
and their order is that of their length, the longest one first. No two of them
end at the same place. The same holds of terms, factors and conditions.

What carries this through the levels is that only the longest parse can be
followed by anything but an operator. An earlier end is one at which the
expression could have gone on, so there is an operator behind it, and neither
a closing parenthesis nor a comparison nor an operator that binds less. So of
the parses of an operand just one is continued, both in the chains of a level
and between parentheses.

A condition has two alternatives that begin with a parenthesis. Which of them
it is turns out further inside, but never both of them parse the same input.

## Main definitions

* `Grammar.Precedes`: A parse is longer than another one, which could have
  gone on.

## Theorems

* `Grammar.ordered_chain`: The rule that two levels have in common.
* `Grammar.not_mem_parenthesized_of_mem_compared`: A comparison is no
  condition in parentheses.
* `Grammar.ordered_expression`, `Grammar.ordered_condition`: The recursive
  parts.
* `Grammar.expressions_longestFirst`: Expressions, terms, factors and
  conditions.
-/

namespace WhileLang

namespace Grammar

open WhileLang.Parser

variable {α : Type} {l : Level} {input mid rest mid' rest' : List Token}

/-- A parse leaves less than another one, behind which there is an operator of the level or of one
    below. -/
def Precedes (l : Level) (rest rest' : List Token) : Prop :=
  rest.length < rest'.length ∧ ¬ Stops l (rest'.map Token.kind)

theorem Precedes.trans {rest'' : List Token} (h : Precedes l rest rest')
    (h' : Precedes l rest' rest'') : Precedes l rest rest'' :=
  ⟨Nat.lt_trans h.1 h'.1, h'.2⟩

theorem Precedes.of_below (h : Precedes l.below rest rest') : Precedes l rest rest' :=
  ⟨h.1, fun hstops => h.2 hstops.below⟩

/-- A parser that does not begin with an operator of the level has no parses behind any but the
    first one. -/
theorem eq_nil_of_precedes {p : Parser Token α}
    (hp : ∀ input, ∀ r ∈ p input, Stops l (input.map Token.kind)) (mid mid' : List Token)
    (h : Precedes l mid mid') : p mid' = [] :=
  List.eq_nil_iff_forall_not_mem.mpr fun r hr => h.2 (hp mid' r hr)

theorem stops_of_reads {k : TokenKind} {w : List TokenKind} (h : Reads (k :: w) input rest)
    (hstops : ∀ r, Stops l (k :: r)) : Stops l (input.map Token.kind) := by
  rw [← h.map_kind, List.cons_append]
  exact hstops _

theorem stops_of_mem_rparen : ∀ r ∈ symbol .rparen input, Stops l (input.map Token.kind) :=
  fun _ hr => stops_of_reads (mem_token.mp hr) fun _ => CondTree.stops_rparen

theorem stops_of_mem_comparison : ∀ r ∈ comparison input, Stops l (input.map Token.kind) :=
  fun r hr => stops_of_reads (mem_comparison.mp hr) fun _ => CondTree.stops_compare r.1

/-- There is one parse between parentheses, as only one is followed by the closing one. -/
theorem ordered_parenthesized {R : List Token → List Token → Prop} {p : Parser Token α}
    (h : ∀ input, Ordered (Precedes l) (p input)) : Ordered R (parenthesized p input) := by
  have hopen : ∀ input, Ordered (Precedes l) (right (symbol .lparen) p input) := fun input =>
    ordered_right (R := fun _ _ => False) ordered_satisfy (fun _ _ => False.elim) h
  exact ordered_left (hopen input) (eq_nil_of_precedes fun _ => stops_of_mem_rparen)
    fun _ => ordered_satisfy

/-- Two kinds of tokens do not both come first. -/
theorem not_reads_of_ne {k k' : TokenKind} {w w' : List TokenKind} (h : Reads (k :: w) input rest)
    (hk : k ≠ k') : ¬ Reads (k' :: w') input rest' := by
  intro h'
  have hkinds : k :: (w ++ rest.map Token.kind) = k' :: (w' ++ rest'.map Token.kind) :=
    h.map_kind.trans h'.map_kind.symm
  exact hk (List.head_eq_of_cons_eq hkinds)

/-- There is one parse of a factor. -/
theorem ordered_factorOf {R : List Token → List Token → Prop} {g : Parser Token Arith}
    (h : ∀ input, Ordered (Precedes .expression) (g input)) :
    Ordered R (factorOf g input) := by
  refine ordered_orElse (ordered_parenthesized h) (ordered_orElse
    (ordered_map.mpr ordered_satisfy) (ordered_map.mpr ordered_satisfy) ?_) ?_
  -- The alternatives begin with tokens of different kinds.
  · rintro ⟨a, rest⟩ hr ⟨b, rest'⟩ hs
    rcases mem_map.mp hr with ⟨x, hx, -⟩
    rcases mem_map.mp hs with ⟨m, hm, -⟩
    exact absurd (mem_number.mp hm) (not_reads_of_ne (mem_identifier.mp hx) nofun)
  · rintro ⟨a, rest⟩ hr ⟨b, rest'⟩ hs
    rcases mem_parenthesized.mp hr with ⟨mid, hopen, -⟩
    rcases mem_orElse.mp hs with hs | hs
    · rcases mem_map.mp hs with ⟨x, hx, -⟩
      exact absurd (mem_identifier.mp hx) (not_reads_of_ne hopen nofun)
    · rcases mem_map.mp hs with ⟨m, hm, -⟩
      exact absurd (mem_number.mp hm) (not_reads_of_ne hopen nofun)

/-- The rule that two levels have in common. Of the operands of the level below, all but the longest
    one are followed by an operator that binds too strongly for this level. -/
theorem ordered_chain {op : Parser Token ArithOp} {p : Parser Token Arith} (hl : l ≠ .factor)
    (hop : ParsesOps op l) (hone : ∀ {R} input, Ordered R (op input))
    (h : ∀ input, Ordered (Precedes l.below) (p input)) :
    Ordered (Precedes l) (chainLeft p op (fun x o y => .op o x y) input) := by
  have hfails : ∀ mid mid', Precedes l.below mid mid' → andThen op p mid' = [] := by
    intro mid mid' hmid
    refine andThen_eq_nil (eq_nil_of_precedes (fun input r hr => ?_) mid mid' hmid)
    rcases (hop _ _ _).mp hr with ⟨ho, hreads⟩
    exact stops_of_reads hreads fun _ => stops_operator hl ho
  have hstep : ∀ mid, ∀ s ∈ andThen op p mid, s.2.length < mid.length → Precedes l s.2 mid := by
    rintro mid ⟨⟨o, a⟩, rest⟩ hs hlt
    rcases mem_andThen.mp hs with ⟨mid', ho, -⟩
    rcases (hop _ _ _).mp ho with ⟨hlevel, hreads⟩
    refine ⟨hlt, fun hstops => hstops o (Nat.le_of_eq (congrArg Level.rank hlevel)) ?_⟩
    rw [← hreads.map_kind]
    rfl
  refine ordered_grow Precedes.trans Precedes.of_below hfails (fun mid => ?_) hstep (h input) ?_
  · exact ordered_andThen (R := fun _ _ => False) (hone mid) (fun _ _ => False.elim) h
  · rw [List.append_nil]
    exact (h input).imp Precedes.of_below

theorem ordered_termOf {g : Parser Token Arith}
    (h : ∀ input, Ordered (Precedes .expression) (g input)) :
    Ordered (Precedes .term) (termOf g input) :=
  ordered_chain (by decide) parsesOps_multiplicative (fun _ => ordered_satisfy)
    fun _ => ordered_factorOf h

/-- Of two parses of an expression, the one in front is longer, and the other one has an operator
    behind it. -/
theorem ordered_expression (input : List Token) :
    Ordered (Precedes .expression) (expression input) :=
  fix_forall List.Pairwise.nil (fun _ h _ _ =>
    ordered_chain (by decide) parsesOps_additive (fun _ => ordered_satisfy)
      fun _ => ordered_termOf h) input

/-- A comparison is no condition in parentheses, though both may begin with a parenthesis. -/
theorem not_mem_parenthesized_of_mem_compared {c c' : Cond} (h : (c, rest) ∈ compared input) :
    (c', rest') ∉ parenthesized condition input := by
  intro h'
  rcases mem_compared.mp h with ⟨o, left, right, -, hreads⟩
  rcases mem_parenthesized.mp h' with ⟨mid, hopen, mid', hc, hclose⟩
  rcases mem_condition.mp hc with ⟨d, -, hd⟩
  have hparens : Reads (CondTree.parens d).yield input rest' :=
    reads_inParentheses.mpr ⟨mid, hopen, mid', hd, hclose⟩
  -- The part on the left of the comparison would have to be what is in the parentheses.
  rcases reads_append.mp hreads with ⟨mid, hleft, -⟩
  exact CondTree.parens_yield_ne d.yield_rparen_ne left
    (hparens.map_kind.trans hleft.map_kind.symm)

theorem ordered_compared : Ordered (Precedes .expression) (compared input) := by
  have hleft : ∀ input, Ordered (R := fun _ _ => False) (andThen expression comparison input) :=
    fun input => ordered_andThen (ordered_expression input)
      (eq_nil_of_precedes fun _ => stops_of_mem_comparison) fun _ => ordered_satisfy
  exact ordered_map.mpr (ordered_andThen (hleft input) (fun _ _ => False.elim) ordered_expression)

theorem reads_of_mem_word {c c' : Cond} {k : Keyword}
    (h : (c, rest) ∈ map (fun _ => c') (keyword k) input) : Reads [.keyword k] input rest := by
  rcases mem_map.mp h with ⟨_, hk, -⟩
  exact mem_token.mp hk

/-- A condition that is no truth value begins as an expression does. -/
theorem exists_start_of_mem {g : Parser Token Cond} {c : Cond}
    (h : (c, rest) ∈ orElse compared (parenthesized g) input) :
    ∃ k mid, Reads [k] input mid ∧ k.startsExpression = true := by
  rcases mem_orElse.mp h with h | h
  · rcases mem_compared.mp h with ⟨o, left, right, -, hreads⟩
    rcases reads_append.mp hreads with ⟨mid, hleft, -⟩
    rcases left.exists_head with ⟨k, w, hk, hstart⟩
    rw [hk] at hleft
    rcases reads_cons.mp hleft with ⟨mid', hreads, -⟩
    exact ⟨k, mid', hreads, hstart⟩
  · rcases mem_parenthesized.mp h with ⟨mid, hopen, -⟩
    exact ⟨_, mid, hopen, rfl⟩

/-- Conditions are ordered as comparisons are, since the other alternatives have one parse, and no
    two alternatives parse the same input. -/
theorem ordered_conditionOf {g : Parser Token Cond}
    (h : ∀ input, Ordered (Precedes .expression) (g input))
    (hg : ∀ input, g input ⊆ condition input) :
    Ordered (Precedes .expression) (conditionOf g input) := by
  refine ordered_orElse (ordered_orElse (ordered_map.mpr ordered_satisfy)
    (ordered_map.mpr ordered_satisfy) ?_)
    (ordered_orElse ordered_compared (ordered_parenthesized h) ?_) ?_
  · rintro ⟨c, rest⟩ hr ⟨c', rest'⟩ hs
    exact absurd (reads_of_mem_word hs) (not_reads_of_ne (reads_of_mem_word hr) nofun)
  · rintro ⟨c, rest⟩ hr ⟨c', rest'⟩ hs
    rcases mem_parenthesized.mp hs with ⟨mid, hopen, mid', hmid, hclose⟩
    exact absurd (mem_parenthesized.mpr ⟨mid, hopen, mid', hg mid hmid, hclose⟩)
      (not_mem_parenthesized_of_mem_compared hr)
  · rintro ⟨c, rest⟩ hr ⟨c', rest'⟩ hs
    rcases exists_start_of_mem hs with ⟨k, mid, hk, hstart⟩
    have hword : ∀ w, TokenKind.keyword w ≠ k := by
      rintro w rfl
      cases hstart
    rcases mem_orElse.mp hr with hr | hr
    · exact absurd hk (not_reads_of_ne (reads_of_mem_word hr) (hword _))
    · exact absurd hk (not_reads_of_ne (reads_of_mem_word hr) (hword _))

/-- Of two parses of a condition, the one in front is longer, and the other one has an operator
    behind it. -/
theorem ordered_condition (input : List Token) :
    Ordered (Precedes .expression) (condition input) :=
  fix_forall List.Pairwise.nil (fun _ h hg _ => ordered_conditionOf h hg) input

theorem longestFirst_of_precedes {results : List (α × List Token)}
    (h : Ordered (Precedes l) results) : LongestFirst results :=
  h.imp And.left

/-- Expressions, terms, factors and conditions are parsed longest first, and no two of their parses
    end at the same place. No input is parsed both as a comparison and as a condition in
    parentheses. -/
theorem expressions_longestFirst (input : List Token) :
    (LongestFirst (expression input) ∧ ((expression input).map Prod.snd).Nodup) ∧
      (LongestFirst (term input) ∧ ((term input).map Prod.snd).Nodup) ∧
      (LongestFirst (factor input) ∧ ((factor input).map Prod.snd).Nodup) ∧
      (LongestFirst (condition input) ∧ ((condition input).map Prod.snd).Nodup) ∧
      ∀ r ∈ compared input, ∀ s, s ∉ parenthesized condition input := by
  have hexpression : LongestFirst (expression input) :=
    longestFirst_of_precedes (ordered_expression input)
  have hterm : LongestFirst (term input) :=
    longestFirst_of_precedes (ordered_termOf ordered_expression)
  have hfactor : LongestFirst (factor input) := ordered_factorOf ordered_expression
  have hcondition : LongestFirst (condition input) :=
    longestFirst_of_precedes (ordered_condition input)
  exact ⟨⟨hexpression, hexpression.nodup⟩, ⟨hterm, hterm.nodup⟩, ⟨hfactor, hfactor.nodup⟩,
    ⟨hcondition, hcondition.nodup⟩, fun _ hr _ => not_mem_parenthesized_of_mem_compared hr⟩

end Grammar

end WhileLang
