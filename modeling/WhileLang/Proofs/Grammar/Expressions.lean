import WhileLang.Program.Grammar
import WhileLang.Proofs.Grammar.Trees
import WhileLang.Proofs.Parser.Results

/-!
# Expressions and Conditions Are Parsed as Derived

The parses of an expression are the openings of the input that an expression
derives, each with what the derivation stands for: nothing else is parsed, and
no derivation is missed. The same for conditions.

`Reads` connects the two sides. A derivation speaks of the kinds of its tokens
only, and a parser is given tokens; what is read between two places of the
input are tokens of the kinds that are derived. Since it splits as the derived
tokens do, a rule of the grammar and the parser that is made after it are
taken apart in the same way.

## Main definitions

* `Reads`: The input up to the rest consists of tokens of the given kinds.
* `Grammar.ArithParses`, `Grammar.CondParses`: The results are those of the derivations.

## Theorems

* `reads_append`: What is read in two pieces.
* `Grammar.mem_satisfy_kind`, `Grammar.parsesOps_satisfy`: Parsers for one token.
* `Grammar.arithParses_chain`: The rule that two levels have in common.
* `Grammar.mem_expression`, `Grammar.mem_condition`: Expressions and conditions.
-/

namespace WhileLang

/-- The input up to the rest consists of tokens of the given kinds. -/
def Reads (w : List TokenKind) (input rest : List Token) : Prop :=
  ∃ ts, ts.map Token.kind = w ∧ ts ++ rest = input

section

variable {v w : List TokenKind} {k : TokenKind} {input rest : List Token}

theorem reads_nil : Reads [] input rest ↔ rest = input := by
  constructor
  · rintro ⟨ts, hts, h⟩
    rw [List.map_eq_nil_iff] at hts
    rwa [hts] at h
  · rintro rfl
    exact ⟨[], rfl, rfl⟩

theorem reads_append :
    Reads (v ++ w) input rest ↔ ∃ mid, Reads v input mid ∧ Reads w mid rest := by
  constructor
  · rintro ⟨ts, hts, rfl⟩
    rcases List.map_eq_append_iff.mp hts with ⟨us, vs, rfl, rfl, rfl⟩
    exact ⟨vs ++ rest, ⟨us, rfl, (List.append_assoc ..).symm⟩, vs, rfl, rfl⟩
  · rintro ⟨_, ⟨us, rfl, rfl⟩, vs, rfl, rfl⟩
    exact ⟨us ++ vs, List.map_append, List.append_assoc ..⟩

theorem reads_cons :
    Reads (k :: w) input rest ↔ ∃ mid, Reads [k] input mid ∧ Reads w mid rest :=
  reads_append (v := [k])

theorem reads_singleton : Reads [k] input rest ↔ ∃ t, input = t :: rest ∧ t.kind = k := by
  constructor
  · rintro ⟨ts, hts, rfl⟩
    rcases List.map_eq_singleton_iff.mp hts with ⟨t, rfl, ht⟩
    exact ⟨t, rfl, ht⟩
  · rintro ⟨t, rfl, rfl⟩
    exact ⟨[t], rfl, rfl⟩

/-- Without a rest, the kinds of all tokens of the input are read. -/
theorem reads_all : Reads w input [] ↔ w = input.map Token.kind := by
  constructor
  · rintro ⟨ts, rfl, rfl⟩
    rw [List.append_nil]
  · rintro rfl
    exact ⟨input, rfl, List.append_nil _⟩

/-- What is read are the kinds of the first tokens, up to some number, and the rest is what is left
    of the input behind them. -/
theorem reads_iff_take :
    Reads w input rest ↔
      ∃ n ≤ input.length, w = (input.take n).map Token.kind ∧ rest = input.drop n := by
  constructor
  · rintro ⟨ts, rfl, rfl⟩
    refine ⟨ts.length, ?_, ?_, ?_⟩
    · rw [List.length_append]
      exact Nat.le_add_right _ _
    · rw [List.take_left]
    · rw [List.drop_left]
  · rintro ⟨n, -, rfl, rfl⟩
    exact ⟨input.take n, rfl, List.take_append_drop n input⟩

/-- The kinds of the input are those that are read and those of the rest. -/
theorem Reads.map_kind (h : Reads w input rest) :
    w ++ rest.map Token.kind = input.map Token.kind := by
  rcases h with ⟨ts, rfl, rfl⟩
  exact List.map_append.symm

theorem Reads.length_le (h : Reads w input rest) : rest.length ≤ input.length := by
  rcases h with ⟨ts, -, rfl⟩
  rw [List.length_append]
  exact Nat.le_add_left _ _

theorem Reads.rest_lt {n : Nat} (h : Reads w input rest) (hlt : input.length < n) :
    rest.length < n :=
  Nat.lt_of_le_of_lt h.length_le hlt

theorem Reads.length_lt (h : Reads (k :: w) input rest) : rest.length < input.length := by
  rcases reads_cons.mp h with ⟨mid, hk, hw⟩
  rcases reads_singleton.mp hk with ⟨t, rfl, -⟩
  exact Nat.lt_succ_of_le hw.length_le

/-- Behind a token, the rest is below the bound before. -/
theorem Reads.rest_lt_of_succ {n : Nat} (h : Reads (k :: w) input rest)
    (hlt : input.length < n + 1) : rest.length < n :=
  Nat.lt_of_lt_of_le h.length_lt (Nat.le_of_lt_succ hlt)

end

namespace Grammar

open WhileLang.Parser

variable {α : Type} {input rest : List Token} {n : Nat}

/-- A parser for the tokens of one kind, each kind with a value of its own. -/
theorem mem_satisfy_kind {f : Token → Option α} {a : α} {k : TokenKind}
    (h : ∀ t, f t = some a ↔ t.kind = k) : (a, rest) ∈ satisfy f input ↔ Reads [k] input rest := by
  rw [mem_satisfy, reads_singleton]
  exact exists_congr fun t => and_congr_right fun _ => h t

theorem mem_token {k : TokenKind} {u : Unit} : (u, rest) ∈ token k input ↔ Reads [k] input rest :=
  mem_satisfy_kind fun t => by simp

theorem mem_identifier {x : String} :
    (x, rest) ∈ identifier input ↔ Reads [.identifier x] input rest :=
  mem_satisfy_kind fun t => by cases t.kind <;> simp

theorem mem_number {m : Int32} : (m, rest) ∈ number input ↔ Reads [.integer m] input rest :=
  mem_satisfy_kind fun t => by cases t.kind <;> simp

/-- The value of a string literal is what it stands for. -/
theorem mem_string {s : String} :
    (s, rest) ∈ Grammar.string input ↔
      ∃ raw : String, String.ofList (Token.unescape raw.toList) = s ∧
        Reads [.string raw] input rest := by
  simp only [Grammar.string, mem_satisfy, reads_singleton]
  constructor
  · rintro ⟨⟨kind, span⟩, rfl, h⟩
    cases kind with
    | string raw => exact ⟨raw, Option.some.inj h, _, rfl, rfl⟩
    | _ => cases h
  · rintro ⟨raw, rfl, ⟨_, span⟩, rfl, rfl⟩
    exact ⟨_, rfl, rfl⟩

/-- A parser for the operators of a level. -/
def ParsesOps (op : Parser Token ArithOp) (l : Level) : Prop :=
  ∀ input o rest, (o, rest) ∈ op input ↔ o.level = l ∧ Reads [.symbol o.symbol] input rest

/-- A parser that takes just the symbols of the operators of the level. -/
theorem parsesOps_satisfy {l : Level} {f : Token → Option ArithOp}
    (h : ∀ t o, f t = some o ↔ o.level = l ∧ t.kind = .symbol o.symbol) :
    ParsesOps (satisfy f) l := by
  intro input o rest
  by_cases ho : o.level = l
  · rw [and_iff_right ho]
    exact mem_satisfy_kind fun t => (h t o).trans (and_iff_right ho)
  · refine iff_of_false (fun hmem => ?_) fun hreads => ho hreads.1
    rcases mem_satisfy.mp hmem with ⟨t, -, hsome⟩
    exact ho ((h t o).mp hsome).1

theorem parsesOps_additive : ParsesOps additive .expression := by
  refine parsesOps_satisfy fun t o => ?_
  constructor
  · intro h
    split at h <;> cases h <;> exact ⟨rfl, by assumption⟩
  · rintro ⟨ho, ht⟩
    rw [ht]
    cases o <;> first | rfl | cases ho

theorem parsesOps_multiplicative : ParsesOps multiplicative .term := by
  refine parsesOps_satisfy fun t o => ?_
  constructor
  · intro h
    split at h <;> cases h <;> exact ⟨rfl, by assumption⟩
  · rintro ⟨ho, ht⟩
    rw [ht]
    cases o <;> first | rfl | cases ho

theorem mem_comparison {o : CompareOp} :
    (o, rest) ∈ comparison input ↔ Reads [.symbol o.symbol] input rest := by
  refine mem_satisfy_kind fun t => ?_
  constructor
  · intro h
    split at h <;> cases h <;> assumption
  · intro ht
    rw [ht]
    cases o <;> rfl

theorem mem_parenthesized {p : Parser Token α} {a : α} :
    (a, rest) ∈ parenthesized p input ↔ ∃ mid, Reads [.symbol .lparen] input mid ∧
      ∃ mid', (a, mid') ∈ p mid ∧ Reads [.symbol .rparen] mid' rest := by
  simp only [parenthesized, symbol, mem_left, mem_right, mem_token]
  constructor
  · rintro ⟨mid', ⟨_, mid, hopen, hp⟩, _, hclose⟩
    exact ⟨mid, hopen, mid', hp, hclose⟩
  · rintro ⟨mid, hopen, mid', hp, hclose⟩
    exact ⟨mid', ⟨(), mid, hopen, hp⟩, (), hclose⟩

theorem reads_inParentheses {w : List TokenKind} :
    Reads (inParentheses w) input rest ↔ ∃ mid, Reads [.symbol .lparen] input mid ∧
      ∃ mid', Reads w mid mid' ∧ Reads [.symbol .rparen] mid' rest := by
  rw [inParentheses, reads_cons]
  simp only [reads_append]

/-- The results are those of the derivations of the level. -/
def ArithParses (l : Level) (input : List Token) (results : List (Arith × List Token)) : Prop :=
  ∀ a rest, (a, rest) ∈ results ↔
    ∃ d : ArithTree (.operand l), d.value = a ∧ Reads d.yield input rest

/-- Factors are parsed as derived, because the expressions in their parentheses are. -/
theorem arithParses_factorOf {g : Parser Token Arith} (h : Below n (ArithParses .expression) g) :
    Below (n + 1) (ArithParses .factor) (factorOf g) := by
  intro input hlt a rest
  simp only [factorOf, mem_orElse, mem_map, mem_parenthesized, mem_identifier, mem_number]
  constructor
  · rintro (⟨mid, hopen, mid', ha, hclose⟩ | ⟨x, hx, rfl⟩ | ⟨m, hm, rfl⟩)
    · have hmid := hopen.rest_lt_of_succ hlt
      rcases (h mid hmid a mid').mp ha with ⟨e, rfl, he⟩
      exact ⟨.parens e, rfl, reads_inParentheses.mpr ⟨mid, hopen, mid', he, hclose⟩⟩
    · exact ⟨.name x, rfl, hx⟩
    · exact ⟨.number m, rfl, hm⟩
  · rintro ⟨d, rfl, hd⟩
    cases d with
    | parens e =>
        rcases reads_inParentheses.mp hd with ⟨mid, hopen, mid', he, hclose⟩
        have hmid := hopen.rest_lt_of_succ hlt
        exact Or.inl ⟨mid, hopen, mid', (h mid hmid _ mid').mpr ⟨e, rfl, he⟩, hclose⟩
    | name x => exact Or.inr (Or.inl ⟨x, hd, rfl⟩)
    | number m => exact Or.inr (Or.inr ⟨m, hd, rfl⟩)
    | chain hl => exact absurd rfl hl

section

variable {l : Level} {op : Parser Token ArithOp} {p : Parser Token Arith}

/-- One more operator with its right operand. -/
def linkStep (op : Parser Token ArithOp) (p : Parser Token Arith) (x : Arith) :
    Parser Token Arith :=
  map (fun r => .op r.1 x r.2) (andThen op p)

/-- Operators and operands that are parsed one after the other are links that are derived. -/
theorem exists_links (hop : ParsesOps op l) (h : Below n (ArithParses l.below) p)
    {r s : Arith × List Token} (hchain : Relation.ReflTransGen (Extends (linkStep op p)) r s)
    (hlt : r.2.length < n) :
    ∃ m : ArithTree (.links l), r.1.combine m.value = s.1 ∧ Reads m.yield r.2 s.2 := by
  -- From the front, as links are: the chain behind the first link has the links behind it.
  induction hchain using Relation.ReflTransGen.head_induction_on with
  | refl => exact ⟨.done, rfl, reads_nil.mpr rfl⟩
  | @head r t hlink _ ih =>
      rcases hlink with ⟨hmem, hshort⟩
      rcases ih (Nat.lt_trans hshort hlt) with ⟨m, hm, hreads⟩
      rcases mem_map.mp hmem with ⟨⟨o, b⟩, hob, ht⟩
      rcases mem_andThen.mp hob with ⟨mid, ho, hb⟩
      rcases (hop _ _ _).mp ho with ⟨hlevel, ho⟩
      rcases (h mid (ho.rest_lt hlt) b t.2).mp hb with ⟨d, rfl, hd⟩
      refine ⟨.link o hlevel d m, ?_, reads_cons.mpr ⟨mid, ho, reads_append.mpr ⟨_, hd, hreads⟩⟩⟩
      rw [← hm, ← ht]
      rfl

/-- Links that are derived are parsed, one after the other. -/
theorem links_chain (hop : ParsesOps op l) (h : Below n (ArithParses l.below) p) :
    ∀ (m : ArithTree (.links l)) (x : Arith) {mid : List Token}, Reads m.yield mid rest →
      mid.length < n →
        Relation.ReflTransGen (Extends (linkStep op p)) (x, mid) (x.combine m.value, rest)
  | .done, x, mid, hreads, _ => by
      rw [reads_nil.mp hreads]
      exact .refl
  | .link o hlevel d more, x, mid, hreads, hlt => by
      rcases reads_cons.mp hreads with ⟨mid₁, ho, hreads⟩
      rcases reads_append.mp hreads with ⟨mid₂, hd, hmore⟩
      have hlt₁ := ho.rest_lt hlt
      refine .head ⟨mem_map.mpr ⟨(o, d.value), mem_andThen.mpr ⟨mid₁, (hop _ _ _).mpr ⟨hlevel, ho⟩,
        (h mid₁ hlt₁ _ _).mpr ⟨d, rfl, hd⟩⟩, rfl⟩, hd.rest_lt ho.length_lt⟩ ?_
      exact links_chain hop h more _ hmore (hd.rest_lt hlt₁)

/-- The rule that two levels have in common: operands of the level below with operators between
    them. -/
theorem arithParses_chain (hl : l ≠ .factor) (hop : ParsesOps op l)
    (h : Below n (ArithParses l.below) p) :
    Below n (ArithParses l) (chainLeft p op fun x o y => .op o x y) := by
  intro input hlt a rest
  have hgrow : (a, rest) ∈ chainLeft p op (fun x o y => .op o x y) input ↔
      (a, rest) ∈ ([] : List (Arith × List Token)) ∨ ∃ r ∈ p input,
        Relation.ReflTransGen (Extends (linkStep op p)) r (a, rest) := mem_grow
  rw [hgrow]
  constructor
  · rintro (h | ⟨⟨x, mid⟩, hx, hchain⟩)
    · exact absurd h List.not_mem_nil
    · rcases (h input hlt x mid).mp hx with ⟨first, rfl, hfirst⟩
      rcases exists_links hop h hchain (hfirst.rest_lt hlt) with ⟨more, rfl, hmore⟩
      exact ⟨.chain hl first more, rfl, reads_append.mpr ⟨mid, hfirst, hmore⟩⟩
  · rintro ⟨d, rfl, hd⟩
    cases d with
    | chain _ first more =>
        rcases reads_append.mp hd with ⟨mid, hfirst, hmore⟩
        refine Or.inr ⟨(first.value, mid), (h input hlt _ _).mpr ⟨first, rfl, hfirst⟩, ?_⟩
        exact links_chain hop h more _ hmore (hfirst.rest_lt hlt)
    | _ => exact absurd rfl hl

end

/-- Expressions are parsed as derived. -/
theorem arithParses_expression (n : Nat) : Below n (ArithParses .expression) expression := by
  -- Sums, products and factors are of one input; only what is in parentheses is a call on less.
  refine fix_induction (fun n g h => ?_) n
  have hterm : Below (n + 1) (ArithParses .term) (termOf g) :=
    arithParses_chain (by decide) parsesOps_multiplicative (arithParses_factorOf h)
  exact arithParses_chain (by decide) parsesOps_additive hterm

/-- The parses of expressions are those that are derived. -/
theorem mem_expression {a : Arith} :
    (a, rest) ∈ expression input ↔ ∃ d : ExprTree, d.value = a ∧ Reads d.yield input rest :=
  arithParses_expression (input.length + 1) input (Nat.lt_succ_self _) a rest

/-- The results are those of the derivations of conditions. -/
def CondParses (input : List Token) (results : List (Cond × List Token)) : Prop :=
  ∀ c rest, (c, rest) ∈ results ↔ ∃ d : CondTree, d.value = c ∧ Reads d.yield input rest

/-- The parses of comparisons are those that are derived. -/
theorem mem_compared {c : Cond} :
    (c, rest) ∈ compared input ↔ ∃ (o : CompareOp) (l r : ExprTree),
      (CondTree.compare o l r).value = c ∧ Reads (CondTree.compare o l r).yield input rest := by
  simp only [compared, mem_map, Prod.exists, mem_andThen, mem_expression, mem_comparison]
  constructor
  · rintro ⟨_, o, _, ⟨mid', ⟨mid, ⟨l, rfl, hl⟩, ho⟩, r, rfl, hr⟩, rfl⟩
    exact ⟨o, l, r, rfl, reads_append.mpr ⟨mid, hl, reads_cons.mpr ⟨mid', ho, hr⟩⟩⟩
  · rintro ⟨o, l, r, rfl, hreads⟩
    rcases reads_append.mp hreads with ⟨mid, hl, hreads⟩
    rcases reads_cons.mp hreads with ⟨mid', ho, hr⟩
    exact ⟨_, o, _, ⟨mid', ⟨mid, ⟨l, rfl, hl⟩, ho⟩, r, rfl, hr⟩, rfl⟩

/-- Conditions are parsed as derived. -/
theorem condParses_condition (n : Nat) : Below n CondParses condition := by
  refine fix_induction (fun n g h => ?_) n
  intro input hlt c rest
  simp only [conditionOf, mem_orElse, mem_map, keyword, mem_token, mem_compared, mem_parenthesized]
  constructor
  · rintro ((⟨_, h, rfl⟩ | ⟨_, h, rfl⟩) | ⟨o, l, r, hvalue, hreads⟩ |
      ⟨mid, hopen, mid', hc, hclose⟩)
    · exact ⟨.const true, rfl, h⟩
    · exact ⟨.const false, rfl, h⟩
    · exact ⟨.compare o l r, hvalue, hreads⟩
    · have hmid := hopen.rest_lt_of_succ hlt
      rcases (h mid hmid c mid').mp hc with ⟨d, rfl, hd⟩
      exact ⟨.parens d, rfl, reads_inParentheses.mpr ⟨mid, hopen, mid', hd, hclose⟩⟩
  -- A parenthesis may open the condition or an expression in it, and both parses are found.
  · rintro ⟨d, rfl, hd⟩
    cases d with
    | const b =>
        cases b with
        | true => exact Or.inl (Or.inl ⟨(), hd, rfl⟩)
        | false => exact Or.inl (Or.inr ⟨(), hd, rfl⟩)
    | compare o l r => exact Or.inr (Or.inl ⟨o, l, r, rfl, hd⟩)
    | parens d =>
        rcases reads_inParentheses.mp hd with ⟨mid, hopen, mid', hd, hclose⟩
        have hmid := hopen.rest_lt_of_succ hlt
        exact Or.inr (Or.inr ⟨mid, hopen, mid', (h mid hmid _ mid').mpr ⟨d, rfl, hd⟩, hclose⟩)

/-- The parses of conditions are those that are derived. -/
theorem mem_condition {c : Cond} :
    (c, rest) ∈ condition input ↔ ∃ d : CondTree, d.value = c ∧ Reads d.yield input rest :=
  condParses_condition (input.length + 1) input (Nat.lt_succ_self _) c rest

end Grammar

end WhileLang
