import WhileLang.Proofs.Grammar.Else
import WhileLang.Proofs.Grammar.Expressions
import WhileLang.Proofs.Parser.First

/-!
# Statements

No derivation of a statement is missed by its parser, and the first parse is
that of a derivation in which every `else` belongs to the nearest `if`.

The second part rests on the first. What comes after a statement decides which
of its parses is the preferred one, so the first parse is always the first one
whose rest passes some test. If the first parse is open at its end, then with
an `else` read behind it there would have been a parse in front of it, and
that one must have failed the test. A `then` part with an `else` behind it
that passes the test is therefore not open.

## Main definitions

* `Grammar.Derived`: All derivations are among the parses.
* `Grammar.Preferred`: The first parse has every `else` at the nearest `if`.

## Theorems

* `Grammar.derived_statementOf`, `Grammar.derived_blockOf` and others: No
  derivation is missed.
* `Grammar.preferred_ifOf`: The `then` part with an `else` is not open.
* `Grammar.preferred_statementOf`, `Grammar.preferred_blockOf` and others: The
  first parse.
* `Grammar.derived_program`, `Grammar.preferred_program`: Whole programs.
-/

namespace WhileLang

namespace Grammar

open WhileLang.Parser

variable {input rest : List Token} {n : Nat}

theorem mem_optToken {k : TokenKind} :
    (∃ o, (o, rest) ∈ opt (token k) input) ↔ ∃ b, Reads (optionally b k) input rest := by
  simp only [mem_opt, mem_token]
  constructor
  · rintro ⟨_, ⟨_, rfl, h⟩ | ⟨rfl, h⟩⟩
    · exact ⟨true, h⟩
    · exact ⟨false, reads_nil.mpr h⟩
  · rintro ⟨_ | _, h⟩
    · exact ⟨none, Or.inr ⟨rfl, reads_nil.mp h⟩⟩
    · exact ⟨some (), Or.inl ⟨(), rfl, h⟩⟩

theorem mem_assignment {x : String} {a : Arith} :
    ((x, a), rest) ∈ assignment input ↔ ∃ d : ExprTree, d.value = a ∧
      Reads (.identifier x :: .symbol .assign :: d.yield) input rest := by
  simp only [assignment, mem_andThen, mem_left, symbol, mem_token, mem_identifier, mem_expression]
  constructor
  · rintro ⟨mid', ⟨mid, hx, _, ho⟩, d, hvalue, hd⟩
    exact ⟨d, hvalue, reads_cons.mpr ⟨mid, hx, reads_cons.mpr ⟨mid', ho, hd⟩⟩⟩
  · rintro ⟨d, hvalue, hreads⟩
    rcases reads_cons.mp hreads with ⟨mid, hx, hreads⟩
    rcases reads_cons.mp hreads with ⟨mid', ho, hd⟩
    exact ⟨mid', ⟨mid, hx, (), ho⟩, d, hvalue, hd⟩

/-- A branch up to its first block. -/
theorem mem_ifHead {c : Cond} :
    (c, rest) ∈ left (right (keyword .ifKw) condition) (keyword .thenKw) input ↔
      ∃ d : CondTree, d.value = c ∧ Reads (StmtTree.ifHead d) input rest := by
  simp only [mem_left, mem_right, keyword, mem_token, mem_condition]
  constructor
  · rintro ⟨mid', ⟨_, mid, hif, d, hvalue, hd⟩, _, hthen⟩
    exact ⟨d, hvalue, reads_cons.mpr ⟨mid, hif, reads_append.mpr ⟨mid', hd, hthen⟩⟩⟩
  · rintro ⟨d, hvalue, hreads⟩
    rcases reads_cons.mp hreads with ⟨mid, hif, hreads⟩
    rcases reads_append.mp hreads with ⟨mid', hd, hthen⟩
    exact ⟨mid', ⟨(), mid, hif, d, hvalue, hd⟩, (), hthen⟩

/-- A loop up to its body. -/
theorem mem_whileHead {c : Cond} :
    (c, rest) ∈ left (right (keyword .whileKw) condition) (opt (keyword .doKw)) input ↔
      ∃ (d : CondTree) (withDo : Bool), d.value = c ∧
        Reads (StmtTree.whileHead d withDo) input rest := by
  simp only [mem_left, mem_right, keyword, mem_token, mem_condition, mem_optToken]
  constructor
  · rintro ⟨mid', ⟨_, mid, hwhile, d, hvalue, hd⟩, withDo, hdo⟩
    exact ⟨d, withDo, hvalue, reads_cons.mpr ⟨mid, hwhile, reads_append.mpr ⟨mid', hd, hdo⟩⟩⟩
  · rintro ⟨d, withDo, hvalue, hreads⟩
    rcases reads_cons.mp hreads with ⟨mid, hwhile, hreads⟩
    rcases reads_append.mp hreads with ⟨mid', hd, hdo⟩
    exact ⟨mid', ⟨(), mid, hwhile, d, hvalue, hd⟩, withDo, hdo⟩

/-- A counting loop up to its body. -/
theorem mem_forHead {x : String} {a b : Arith} :
    (((x, a), b), rest) ∈ left (andThen (left (right (keyword .forKw) assignment) (keyword .toKw))
        expression) (opt (keyword .doKw)) input ↔
      ∃ (start bound : ExprTree) (withDo : Bool), start.value = a ∧ bound.value = b ∧
        Reads (StmtTree.forHead x start bound withDo) input rest := by
  simp only [mem_left, mem_right, mem_andThen, keyword, mem_token, mem_assignment, mem_expression,
    mem_optToken]
  constructor
  · rintro ⟨mid₄, ⟨mid₃, ⟨mid₂, ⟨_, mid₁, hfor, start, hstart, hassign⟩, _, hto⟩, bound, hbound,
      hb⟩, withDo, hdo⟩
    refine ⟨start, bound, withDo, hstart, hbound, reads_cons.mpr ⟨mid₁, hfor, ?_⟩⟩
    exact reads_append.mpr
      ⟨mid₂, hassign, reads_cons.mpr ⟨mid₃, hto, reads_append.mpr ⟨mid₄, hb, hdo⟩⟩⟩
  · rintro ⟨start, bound, withDo, hstart, hbound, hreads⟩
    rcases reads_cons.mp hreads with ⟨mid₁, hfor, hreads⟩
    rcases reads_append (v := .identifier x :: .symbol .assign :: start.yield).mp hreads with
      ⟨mid₂, hassign, hreads⟩
    rcases reads_cons.mp hreads with ⟨mid₃, hto, hreads⟩
    rcases reads_append.mp hreads with ⟨mid₄, hb, hdo⟩
    exact ⟨mid₄, ⟨mid₃, ⟨mid₂, ⟨(), mid₁, hfor, start, hstart, hassign⟩, (), hto⟩, bound, hbound,
      hb⟩, withDo, hdo⟩

theorem mem_readStatement {s : Stmt} :
    (s, rest) ∈ readStatement input ↔ ∃ (x : String) (inParens : Bool),
      (StmtTree.read x inParens).value = s ∧
        Reads (StmtTree.read x inParens).yield input rest := by
  simp only [readStatement, mem_map, mem_right, keyword, mem_token, mem_orElse, mem_identifier,
    mem_parenthesized]
  constructor
  · rintro ⟨x, ⟨_, mid, hread, hx | hx⟩, rfl⟩
    · exact ⟨x, false, rfl, reads_cons.mpr ⟨mid, hread, hx⟩⟩
    · exact ⟨x, true, rfl, reads_cons.mpr ⟨mid, hread, reads_inParentheses.mpr hx⟩⟩
  · rintro ⟨x, _ | _, rfl, hreads⟩
    · rcases reads_cons.mp hreads with ⟨mid, hread, hx⟩
      exact ⟨x, ⟨(), mid, hread, Or.inl hx⟩, rfl⟩
    · rcases reads_cons.mp hreads with ⟨mid, hread, hx⟩
      exact ⟨x, ⟨(), mid, hread, Or.inr (reads_inParentheses.mp hx)⟩, rfl⟩

theorem mem_writeStatement {s : Stmt} :
    (s, rest) ∈ writeStatement input ↔
      (∃ raw, (StmtTree.print raw).value = s ∧ Reads (StmtTree.print raw).yield input rest) ∨
        ∃ e, (StmtTree.write e).value = s ∧ Reads (StmtTree.write e).yield input rest := by
  simp only [writeStatement, mem_map, mem_right, keyword, mem_token, mem_orElse, mem_string,
    mem_expression]
  constructor
  · rintro ⟨_, mid, hwrite, ⟨_, ⟨raw, rfl, hraw⟩, rfl⟩ | ⟨_, ⟨e, rfl, he⟩, rfl⟩⟩
    · exact Or.inl ⟨raw, rfl, reads_cons.mpr ⟨mid, hwrite, hraw⟩⟩
    · exact Or.inr ⟨e, rfl, reads_cons.mpr ⟨mid, hwrite, he⟩⟩
  · rintro (⟨raw, rfl, hreads⟩ | ⟨e, rfl, hreads⟩)
    · rcases reads_cons.mp hreads with ⟨mid, hwrite, hraw⟩
      exact ⟨(), mid, hwrite, Or.inl ⟨_, ⟨raw, rfl, hraw⟩, rfl⟩⟩
    · rcases reads_cons.mp hreads with ⟨mid, hwrite, he⟩
      exact ⟨(), mid, hwrite, Or.inr ⟨_, ⟨e, rfl, he⟩, rfl⟩⟩

/-- All derivations of the part are among the parses. -/
def Derived (p : StmtPart) (input : List Token) (results : List (p.Value × List Token)) : Prop :=
  ∀ (d : StmtTree p) (rest : List Token), Reads d.yield input rest → (d.value, rest) ∈ results

section

variable {g : Parser Token Stmt}

/-- Statements that are derived behind the first one are parsed, one after the other. -/
theorem others_chain (h : Below n (Derived .statement) g) :
    ∀ (m : StmtTree .others) (xs : Items Stmt) {mid : List Token}, Reads m.yield mid rest →
      mid.length < n → ∃ ys : Items Stmt, ys.toList = xs.toList ++ m.value ∧
        Relation.ReflTransGen (Extends fun xs => map xs.push (right (symbol .semicolon) g))
          (xs, mid) (ys, rest)
  | .noOthers, xs, mid, hreads, _ => by
      rw [reads_nil.mp hreads]
      exact ⟨xs, (List.append_nil _).symm, .refl⟩
  | .others s more, xs, mid, hreads, hlt => by
      rcases reads_cons.mp hreads with ⟨mid₁, hsep, hreads⟩
      rcases reads_append.mp hreads with ⟨mid₂, hs, hmore⟩
      have hlt₁ := hsep.rest_lt hlt
      rcases others_chain h more (xs.push s.value) hmore (hs.rest_lt hlt₁) with ⟨ys, hys, hchain⟩
      refine ⟨ys, ?_, .head ⟨mem_map.mpr ⟨s.value, mem_right.mpr
        ⟨(), mid₁, mem_token.mpr hsep, h mid₁ hlt₁ s mid₂ hs⟩, rfl⟩,
        hs.rest_lt hsep.length_lt⟩ hchain⟩
      rw [hys, Items.toList_push, List.append_assoc]
      rfl

theorem derived_statementsOf (h : Below n (Derived .statement) g) :
    Below n (Derived .statements) (map Items.toList (statementsOf g)) := by
  intro input hlt d rest hreads
  cases d with
  | statements first more =>
      rcases reads_append.mp hreads with ⟨mid, hfirst, hmore⟩
      rcases others_chain h more (Items.empty.push first.value) hmore (hfirst.rest_lt hlt) with
        ⟨ys, hys, hchain⟩
      refine mem_map.mpr ⟨ys, mem_grow.mpr (Or.inr ⟨(_, mid), ?_, hchain⟩), hys⟩
      exact mem_map.mpr ⟨first.value, h input hlt first mid hfirst, rfl⟩

theorem derived_openingOf (h : Below n (Derived .statement) g) :
    Below n (Derived .opening) (map Items.toList (openingOf g)) := by
  intro input hlt d rest hreads
  rw [openingOf, mem_map]
  simp only [mem_map, mem_left, symbol, mem_optToken]
  cases d with
  | empty semicolon =>
      exact ⟨.empty, ⟨none, ⟨input, mem_opt.mpr (Or.inr ⟨rfl, rfl⟩), semicolon, hreads⟩, rfl⟩, rfl⟩
  | filled ss semicolon =>
      rcases reads_append.mp hreads with ⟨mid, hss, hsep⟩
      rcases mem_map.mp (derived_statementsOf h input hlt ss mid hss) with ⟨xs, hxs, hvalue⟩
      exact ⟨xs, ⟨some xs, ⟨mid, mem_opt.mpr (Or.inl ⟨xs, rfl, hxs⟩), semicolon, hsep⟩, rfl⟩,
        hvalue⟩

theorem derived_blockOf (h : Below n (Derived .statement) g) :
    Below n (Derived .block) (blockOf g) := by
  intro input hlt d rest hreads
  rw [blockOf, mem_orElse]
  cases d with
  | braces o =>
      rcases reads_cons.mp hreads with ⟨mid, hopen, hreads⟩
      rcases reads_append.mp hreads with ⟨mid', ho, hclose⟩
      rcases mem_map.mp (derived_openingOf h mid (hopen.rest_lt hlt) o mid' ho) with
        ⟨xs, hxs, hvalue⟩
      refine Or.inl (mem_map.mpr ⟨xs, mem_left.mpr ⟨mid', ?_, (), mem_token.mpr hclose⟩, hvalue⟩)
      exact mem_right.mpr ⟨(), mid, mem_token.mpr hopen, hxs⟩
  | single s => exact Or.inr (mem_map.mpr ⟨s.value, h input hlt s rest hreads, rfl⟩)

/-- No derivation of a branch is missed, with or without `else`. -/
theorem mem_ifOf {block : Parser Token Block} (h : Below n (Derived .block) block) {c : CondTree}
    {t : StmtTree .block} {mid mid' : List Token} (hlt : mid.length < n)
    (hhead : Reads (StmtTree.ifHead c) input mid) (ht : Reads t.yield mid mid')
    {o : Option Block} (ho : (o, rest) ∈ opt (right (keyword .elseKw) block) mid') :
    (Stmt.ifElse c.value t.value (o.getD []), rest) ∈ ifOf block input := by
  refine mem_map.mpr ⟨((c.value, t.value), o), mem_andThen.mpr ⟨mid', ?_, ho⟩, rfl⟩
  exact mem_andThen.mpr ⟨mid, mem_ifHead.mpr ⟨c, rfl, hhead⟩, h mid hlt t mid' ht⟩

theorem derived_statementOf (h : Below n (Derived .statement) g) :
    Below (n + 1) (Derived .statement) (statementOf g) := by
  intro input hlt d rest hreads
  have hblock := derived_blockOf h
  -- Every block stands behind a token.
  have hshort : ∀ {k : TokenKind} {w : List TokenKind} {mid : List Token},
      Reads (k :: w) input mid → mid.length < n :=
    fun h => h.rest_lt_of_succ hlt
  simp only [statementOf, mem_orElse]
  cases d with
  | skip => exact Or.inl (Or.inl (Or.inl (mem_map.mpr ⟨(), mem_token.mpr hreads, rfl⟩)))
  | assign x e =>
      have hmem := mem_assignment.mpr ⟨e, rfl, hreads⟩
      exact Or.inl (Or.inl (Or.inr (mem_map.mpr ⟨_, hmem, rfl⟩)))
  | ifThen c t =>
      rcases reads_append.mp hreads with ⟨mid, hhead, ht⟩
      -- That there is no `else` is a parse as well, even where one could be read.
      have hnone : (none, rest) ∈ opt (right (keyword .elseKw) (blockOf g)) rest :=
        mem_opt.mpr (Or.inr ⟨rfl, rfl⟩)
      exact Or.inl (Or.inr (Or.inl (mem_ifOf hblock (hshort hhead) hhead ht hnone)))
  | ifThenElse c t e =>
      rcases reads_append.mp hreads with ⟨mid, hhead, hreads⟩
      rcases reads_append.mp hreads with ⟨mid', ht, hreads⟩
      rcases reads_cons.mp hreads with ⟨mid'', helse, he⟩
      have hmid := helse.rest_lt (ht.rest_lt (hshort hhead))
      have hsome := mem_opt.mpr (Or.inl ⟨e.value, rfl, mem_right.mpr
        ⟨(), mid'', mem_token.mpr helse, hblock mid'' hmid e rest he⟩⟩)
      exact Or.inl (Or.inr (Or.inl (mem_ifOf hblock (hshort hhead) hhead ht hsome)))
  | whileDo c withDo body =>
      rcases reads_append.mp hreads with ⟨mid, hhead, hbody⟩
      refine Or.inl (Or.inr (Or.inr (mem_map.mpr ⟨(c.value, body.value), ?_, rfl⟩)))
      exact mem_andThen.mpr ⟨mid, mem_whileHead.mpr ⟨c, withDo, rfl, hhead⟩,
        hblock mid (hshort hhead) body rest hbody⟩
  | forTo x start bound withDo body =>
      rcases reads_append.mp hreads with ⟨mid, hhead, hbody⟩
      refine Or.inr (Or.inl (Or.inl (mem_map.mpr
        ⟨(((x, start.value), bound.value), body.value), ?_, rfl⟩)))
      exact mem_andThen.mpr ⟨mid, mem_forHead.mpr ⟨start, bound, withDo, rfl, rfl, hhead⟩,
        hblock mid (hshort hhead) body rest hbody⟩
  | read x inParens =>
      exact Or.inr (Or.inl (Or.inr (mem_readStatement.mpr ⟨x, inParens, rfl, hreads⟩)))
  | print raw => exact Or.inr (Or.inr (mem_writeStatement.mpr (Or.inl ⟨raw, rfl, hreads⟩)))
  | write e => exact Or.inr (Or.inr (mem_writeStatement.mpr (Or.inr ⟨e, rfl, hreads⟩)))

end

/-- An `else` and a block are read up to the rest. -/
def ElseReads (input rest : List Token) : Prop :=
  ∃ e : StmtTree .block, Reads (.keyword .elseKw :: e.yield) input rest

/-- The first parse has every `else` at the nearest `if`. If it is open, then nothing that an
    `else` behind it might read leaves something that passes the test. -/
def Preferred (p : StmtPart) (input : List Token) (results : List (p.Value × List Token)) : Prop :=
  ∀ (ok : List Token → Bool) (v : p.Value) (rest : List Token),
    first? ok results = some (v, rest) →
      ∃ d : StmtTree p, d.value = v ∧ Reads d.yield input rest ∧ d.Nearest ∧
        (d.isOpen = true → ∀ rest', ElseReads rest rest' → ok rest' = false)

section

variable {g : Parser Token Stmt} {ok : List Token → Bool}

/-- The statements of a chain of first steps. -/
theorem exists_others (h : Below n (Preferred .statement) g) {r s : Items Stmt × List Token}
    (hchain : Relation.ReflTransGen (FirstExtends Items.push (right (symbol .semicolon) g)) r s)
    (hlt : r.2.length < n) :
    ∃ m : StmtTree .others, s.1.toList = r.1.toList ++ m.value ∧ Reads m.yield r.2 s.2 ∧
      m.Nearest := by
  induction hchain using Relation.ReflTransGen.head_induction_on with
  | refl => exact ⟨.noOthers, (List.append_nil _).symm, reads_nil.mpr rfl, trivial⟩
  | @head r t hlink _ ih =>
      rcases hlink with ⟨ok, b, hfirst, ht⟩
      rcases first?_right hfirst with ⟨_, mid, hsep, hfirst⟩
      have hsep := mem_token.mp hsep
      have hmid := hsep.rest_lt hlt
      rcases h mid hmid ok b t.2 hfirst with ⟨d, rfl, hd, hnear, -⟩
      rcases ih (hd.rest_lt hmid) with ⟨m, hm, hreads, hmore⟩
      refine ⟨.others d m, ?_, reads_cons.mpr ⟨mid, hsep, reads_append.mpr ⟨_, hd, hreads⟩⟩,
        hnear, hmore⟩
      rw [hm, ← ht, Items.toList_push, List.append_assoc]
      rfl

theorem preferred_statementsOf (h : Below n (Preferred .statement) g) :
    Below n (Preferred .statements) (map Items.toList (statementsOf g)) := by
  intro input hlt ok v rest hfirst
  rcases first?_map.mp hfirst with ⟨xs, hxs, rfl⟩
  rcases first?_grow hxs with hnil | ⟨ok', ⟨ys, mid⟩, hys, hchain⟩
  · cases hnil
  · rcases first?_map.mp hys with ⟨s, hs, rfl⟩
    rcases h input hlt ok' s mid hs with ⟨d, rfl, hd, hnear, -⟩
    rcases exists_others h hchain (hd.rest_lt hlt) with ⟨m, hm, hreads, hmore⟩
    exact ⟨.statements d m, hm.symm, reads_append.mpr ⟨mid, hd, hreads⟩, ⟨hnear, hmore⟩, nofun⟩

theorem preferred_openingOf (h : Below n (Preferred .statement) g) :
    Below n (Preferred .opening) (map Items.toList (openingOf g)) := by
  intro input hlt ok v rest hfirst
  rcases first?_map.mp hfirst with ⟨_, hos, rfl⟩
  rcases first?_map.mp hos with ⟨_, hpair, rfl⟩
  rcases first?_left hpair with ⟨ok', sep, mid, hopt, hsep⟩
  rcases mem_optToken.mp ⟨sep, hsep⟩ with ⟨semicolon, hsep⟩
  rcases first?_opt hopt with ⟨xs, rfl, hxs⟩ | ⟨rfl, rfl, -⟩
  · rcases preferred_statementsOf h input hlt ok' _ mid (first?_map.mpr ⟨xs, hxs, rfl⟩) with
      ⟨ss, hss, hd, hnear, -⟩
    exact ⟨.filled ss semicolon, hss, reads_append.mpr ⟨mid, hd, hsep⟩, hnear, nofun⟩
  · exact ⟨.empty semicolon, rfl, hsep, trivial, nofun⟩

theorem preferred_blockOf (h : Below n (Preferred .statement) g) :
    Below n (Preferred .block) (blockOf g) := by
  intro input hlt ok v rest hfirst
  rcases first?_orElse hfirst with hbraces | hsingle
  · rcases first?_map.mp hbraces with ⟨xs, hxs, rfl⟩
    rcases first?_left hxs with ⟨ok', _, mid', hright, hclose⟩
    rcases first?_right hright with ⟨_, mid, hopen, hxs⟩
    have hopen := mem_token.mp hopen
    have hlist : first? ok' (map Items.toList (openingOf g) mid) = some (xs.toList, mid') :=
      first?_map.mpr ⟨xs, hxs, rfl⟩
    rcases preferred_openingOf h mid (hopen.rest_lt hlt) ok' _ mid' hlist with
      ⟨o, ho, hd, hnear, -⟩
    exact ⟨.braces o, ho, reads_cons.mpr ⟨mid, hopen, reads_append.mpr
      ⟨mid', hd, mem_token.mp hclose⟩⟩, hnear, nofun⟩
  · rcases first?_map.mp hsingle with ⟨s, hs, rfl⟩
    rcases h input hlt ok s rest hs with ⟨d, rfl, hd, hnear, hopen⟩
    exact ⟨.single d, rfl, hd, hnear, hopen⟩

/-- If an `else` behind it leaves something that passes the test, then the first `then` part is not
    open. -/
theorem preferred_ifOf {block : Parser Token Block} (hder : Below n (Derived .block) block)
    (hpre : Below n (Preferred .block) block) :
    Below (n + 1) (Preferred .statement) (ifOf block) := by
  intro input hlt ok v rest hfirst
  rcases first?_map.mp hfirst with ⟨⟨⟨c, t⟩, o⟩, hall, rfl⟩
  rcases first?_andThen hall with ⟨mid', hct, ho⟩
  rcases first?_andThen hct with ⟨mid, hc, ht⟩
  rcases mem_ifHead.mp (mem_of_first? hc).1 with ⟨dc, rfl, hhead⟩
  have hmid := hhead.rest_lt_of_succ hlt
  rcases hpre mid hmid _ t mid' ht with ⟨dt, rfl, hdt, hnear, hopen⟩
  rcases first?_opt ho with ⟨e, rfl, he⟩ | ⟨rfl, rfl, hnone⟩
  · rcases first?_right he with ⟨_, mid'', helse, he⟩
    have helse := mem_token.mp helse
    have hmid'' := helse.rest_lt (hdt.rest_lt hmid)
    rcases hpre mid'' hmid'' ok e rest he with ⟨de, rfl, hde, hnear', hopen'⟩
    have hreads : Reads (.keyword .elseKw :: de.yield) mid' rest :=
      reads_cons.mpr ⟨mid'', helse, hde⟩
    refine ⟨.ifThenElse dc dt de, rfl, reads_append.mpr ⟨mid, hhead, reads_append.mpr
      ⟨mid', hdt, hreads⟩⟩, ⟨Bool.eq_false_iff.mpr fun hdt => ?_, hnear, hnear'⟩, hopen'⟩
    -- The rest passes the test of the `then` part, since a second `else` may be left out there.
    have hfalse := hopen hdt rest ⟨de, hreads⟩
    rw [List.any_eq_false] at hfalse
    exact hfalse (none, rest) (mem_opt.mpr (Or.inr ⟨rfl, rfl⟩)) (mem_of_first? ho).2
  -- Without an `else`, none of its parses behind the `then` part passed the test.
  · refine ⟨.ifThen dc dt, rfl, reads_append.mpr ⟨mid, hhead, hdt⟩, hnear, fun _ => ?_⟩
    rintro rest' ⟨e, helse⟩
    rcases reads_cons.mp helse with ⟨mid'', helse, he⟩
    have hmid'' := helse.rest_lt (hdt.rest_lt hmid)
    exact hnone (e.value, rest') (mem_right.mpr
      ⟨(), mid'', mem_token.mpr helse, hder mid'' hmid'' e rest' he⟩)

theorem preferred_statementOf (hder : Below n (Derived .statement) g)
    (hpre : Below n (Preferred .statement) g) :
    Below (n + 1) (Preferred .statement) (statementOf g) := by
  intro input hlt ok v rest hfirst
  have hblock := preferred_blockOf hpre
  rcases first?_orElse hfirst with hfirst | hfirst
  · rcases first?_orElse hfirst with hfirst | hfirst
    · rcases first?_orElse hfirst with hskip | hassign
      · rcases first?_map.mp hskip with ⟨_, htoken, rfl⟩
        exact ⟨.skip, rfl, mem_token.mp (mem_of_first? htoken).1, trivial, nofun⟩
      · rcases first?_map.mp hassign with ⟨⟨x, a⟩, hpair, rfl⟩
        rcases mem_assignment.mp (mem_of_first? hpair).1 with ⟨e, rfl, hreads⟩
        exact ⟨.assign x e, rfl, hreads, trivial, nofun⟩
    -- Branches and loops may be open at their end, the loops as much as their bodies are.
    · rcases first?_orElse hfirst with hif | hwhile
      · exact preferred_ifOf (derived_blockOf hder) hblock input hlt ok v rest hif
      · rcases first?_map.mp hwhile with ⟨⟨c, b⟩, hpair, rfl⟩
        rcases first?_andThen hpair with ⟨mid, hc, hb⟩
        rcases mem_whileHead.mp (mem_of_first? hc).1 with ⟨dc, withDo, rfl, hhead⟩
        rcases hblock mid (hhead.rest_lt_of_succ hlt) ok b rest hb with
          ⟨body, rfl, hbody, hnear, hopen⟩
        exact ⟨.whileDo dc withDo body, rfl, reads_append.mpr ⟨mid, hhead, hbody⟩, hnear, hopen⟩
  · rcases first?_orElse hfirst with hfirst | hwrite
    · rcases first?_orElse hfirst with hfor | hread
      · rcases first?_map.mp hfor with ⟨⟨⟨⟨x, a⟩, e⟩, b⟩, hpair, rfl⟩
        rcases first?_andThen hpair with ⟨mid, he, hb⟩
        rcases mem_forHead.mp (mem_of_first? he).1 with ⟨start, bound, withDo, rfl, rfl, hhead⟩
        rcases hblock mid (hhead.rest_lt_of_succ hlt) ok b rest hb with
          ⟨body, rfl, hbody, hnear, hopen⟩
        exact ⟨.forTo x start bound withDo body, rfl, reads_append.mpr ⟨mid, hhead, hbody⟩, hnear,
          hopen⟩
      · rcases mem_readStatement.mp (mem_of_first? hread).1 with ⟨x, inParens, rfl, hreads⟩
        exact ⟨.read x inParens, rfl, hreads, trivial, nofun⟩
    · rcases mem_writeStatement.mp (mem_of_first? hwrite).1 with
        ⟨raw, rfl, hreads⟩ | ⟨e, rfl, hreads⟩
      · exact ⟨.print raw, rfl, hreads, trivial, nofun⟩
      · exact ⟨.write e, rfl, hreads, trivial, nofun⟩

end

/-- Both for statements: the first parse depends on all parses of what is inside. -/
theorem statement_parses (n : Nat) :
    Below n (fun input results => Derived .statement input results ∧
      Preferred .statement input results) statement := by
  refine fix_induction (fun n g h => ?_) n
  have hder : Below n (Derived .statement) g := fun input hlt => (h input hlt).1
  have hpre : Below n (Preferred .statement) g := fun input hlt => (h input hlt).2
  exact fun input hlt =>
    ⟨derived_statementOf hder input hlt, preferred_statementOf hder hpre input hlt⟩

/-- No derivation of a program is missed. -/
theorem derived_program (input : List Token) : Derived .program input (program input) := by
  intro d rest hreads
  cases d with
  | program o =>
      rcases reads_append.mp hreads with ⟨mid, ho, heof⟩
      have hstatement : Below (input.length + 1) (Derived .statement) statement :=
        fun input hlt => (statement_parses _ input hlt).1
      rcases mem_map.mp (derived_openingOf hstatement input (Nat.lt_succ_self _) o mid ho) with
        ⟨xs, hxs, hvalue⟩
      exact mem_map.mpr ⟨xs, mem_left.mpr ⟨mid, hxs, (), mem_token.mpr heof⟩, hvalue⟩

/-- The first parse of a program has every `else` at the nearest `if`. -/
theorem preferred_program (input : List Token) : Preferred .program input (program input) := by
  intro ok v rest hfirst
  rcases first?_map.mp hfirst with ⟨xs, hxs, rfl⟩
  rcases first?_left hxs with ⟨ok', _, mid, hxs, heof⟩
  have hstatement : Below (input.length + 1) (Preferred .statement) statement :=
    fun input hlt => (statement_parses _ input hlt).2
  have hlist : first? ok' (map Items.toList opening input) = some (xs.toList, mid) :=
    first?_map.mpr ⟨xs, hxs, rfl⟩
  rcases preferred_openingOf hstatement input (Nat.lt_succ_self _) ok' _ mid hlist with
    ⟨o, ho, hd, hnear, -⟩
  exact ⟨.program o, ho, reads_append.mpr ⟨mid, hd, mem_token.mp heof⟩, hnear, nofun⟩

end Grammar

end WhileLang
