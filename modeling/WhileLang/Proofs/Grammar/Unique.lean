import WhileLang.Proofs.Grammar.Ends
import WhileLang.Proofs.Grammar.Else

/-!
# Derivations Are Unique up to Else

Two derivations of the same tokens are the same, provided that in both of them
every `else` belongs to the nearest `if`.

As for expressions, the induction is about derived tokens with something
behind them. What is behind a part `Follows` it if the first token could not
have gone on with the part: no operator behind a statement, which may end with
an expression, no `else` behind a statement that is open, no semicolon with a
statement behind statements. The rule for a branch with an `else` and the one
without are told apart here: behind the common part comes an `else` for the
one and none for the other, unless the `then` part is open and has taken it.

## Main definitions

* `Closes`, `EndsStatements`: What may be behind statements.
* `StmtTree.Follows`: What may be behind a part of a program.

## Theorems

* `StmtTree.ifThen_yield_ne`: Branches with and without `else`.
* `StmtTree.yield_inj`: Parts of programs and what is behind them.
-/

namespace WhileLang

/-- The token can be the first one of a statement. -/
def TokenKind.startsStatement : TokenKind → Bool
  | .identifier _ | .keyword .skipKw | .keyword .ifKw | .keyword .whileKw | .keyword .forKw
  | .keyword .readKw | .keyword .writeKw => true
  | _ => false

/-- The token can be the first one of a block. -/
def TokenKind.startsBlock (k : TokenKind) : Bool :=
  k == .symbol .lbrace || k.startsStatement

/-- The token can be the first one behind a statement in a list. -/
def TokenKind.endsStatement : TokenKind → Bool
  | .symbol .semicolon | .symbol .rbrace | .eof => true
  | _ => false

/-- What comes first closes perhaps statements with perhaps a semicolon behind them. -/
def Closes (r : List TokenKind) : Prop :=
  r.head? = some (.symbol .rbrace) ∨ r.head? = some .eof

/-- What is behind statements is not a semicolon with another one. -/
def EndsStatements (r : List TokenKind) : Prop :=
  Closes r ∨ ∃ r', r = .symbol .semicolon :: r' ∧ Closes r'

section

variable {r r' w : List TokenKind} {k : TokenKind} {b b' : Bool}

theorem Closes.exists_head (h : Closes r) :
    ∃ k w, r = k :: w ∧ (k = .symbol .rbrace ∨ k = .eof) := by
  cases r with
  | nil => rcases h with h | h <;> cases h
  | cons k w => exact ⟨k, w, rfl, h.imp Option.some.inj Option.some.inj⟩

theorem Closes.head_ne_semicolon (h : Closes r) : r.head? ≠ some (.symbol .semicolon) := by
  rcases h with h | h <;> rw [h] <;> nofun

theorem EndsStatements.exists_head (h : EndsStatements r) :
    ∃ k w, r = k :: w ∧ k.endsStatement = true := by
  rcases h with h | ⟨r', rfl, -⟩
  · rcases h.exists_head with ⟨k, w, rfl, rfl | rfl⟩
    · exact ⟨_, _, rfl, rfl⟩
    · exact ⟨_, _, rfl, rfl⟩
  · exact ⟨_, _, rfl, rfl⟩

theorem optionally_inj (hr : r.head? ≠ some k) (hr' : r'.head? ≠ some k)
    (h : optionally b k ++ r = optionally b' k ++ r') : b = b' ∧ r = r' := by
  cases b <;> cases b'
  · exact ⟨rfl, h⟩
  · exact absurd (by rw [show r = _ from h]; rfl) hr
  · exact absurd (by rw [show r' = _ from h.symm]; rfl) hr'
  · exact ⟨rfl, List.tail_eq_of_cons_eq h⟩

/-- What may be a block does not go on with an expression, even if a word is left out before it. -/
theorem stops_of_startsBlock (hk : k.startsBlock = true) :
    Stops .expression (optionally b (.keyword .doKw) ++ k :: w) := by
  cases b with
  | true => exact stops_keyword
  | false =>
      refine stops_cons fun o heq => ?_
      rw [heq] at hk
      cases o <;> cases hk

end

namespace StmtTree

variable {r r' : List TokenKind}

theorem exists_head_statement (d : StmtTree .statement) :
    ∃ k w, d.yield = k :: w ∧ k.startsStatement = true := by
  cases d <;> exact ⟨_, _, rfl, rfl⟩

theorem exists_head_block (d : StmtTree .block) :
    ∃ k w, d.yield = k :: w ∧ k.startsBlock = true := by
  cases d with
  | braces o => exact ⟨_, _, rfl, rfl⟩
  | single s =>
      rcases s.exists_head_statement with ⟨k, w, h, hk⟩
      refine ⟨k, w, h, ?_⟩
      rw [TokenKind.startsBlock, hk, Bool.or_true]

/-- What may be behind a part of a program for the part to be over. -/
def Follows : {p : StmtPart} → StmtTree p → List TokenKind → Prop
  | .program, _, _ => True
  | .opening, _, r => Closes r
  | .statements, _, r | .others, _, r => EndsStatements r
  | .block, d, r | .statement, d, r =>
    Stops .expression r ∧ (d.isOpen = true → r.head? ≠ some (.keyword .elseKw))

theorem follows_cons (d : StmtTree .statement) {k : TokenKind} (hk : k.endsStatement = true) :
    d.Follows (k :: r) := by
  refine ⟨stops_cons fun o heq => ?_, fun _ heq => ?_⟩
  · rw [heq] at hk
    cases o <;> cases hk
  · rw [Option.some.inj heq] at hk
    cases hk

/-- A statement in a list is over where the others begin, or where the list ends. -/
theorem follows_others (d : StmtTree .statement) (more : StmtTree .others)
    (hr : EndsStatements r) : d.Follows (more.yield ++ r) := by
  cases more with
  | noOthers =>
      rcases hr.exists_head with ⟨k, w, rfl, hk⟩
      exact d.follows_cons hk
  | others s more => exact d.follows_cons rfl

theorem endsStatements_optionally (semicolon : Bool) (hr : Closes r) :
    EndsStatements (optionally semicolon (.symbol .semicolon) ++ r) := by
  cases semicolon with
  | false => exact Or.inl hr
  | true => exact Or.inr ⟨r, rfl, hr⟩

/-- What closes statements, or a semicolon before it, is not a statement. -/
theorem optionally_ne_statement (semicolon : Bool) (hr : Closes r) (s : StmtTree .statement) :
    optionally semicolon (.symbol .semicolon) ++ r ≠ s.yield ++ r' := by
  intro h
  rcases s.exists_head_statement with ⟨k, w, hs, hk⟩
  rcases hr.exists_head with ⟨k', w', rfl, hk'⟩
  rw [hs] at h
  cases semicolon with
  | true =>
      rw [← List.head_eq_of_cons_eq h] at hk
      cases hk
  | false =>
      rw [← List.head_eq_of_cons_eq h] at hk
      rcases hk' with rfl | rfl <;> cases hk

theorem ifHead_inj {c c' : CondTree} (h : ifHead c ++ r = ifHead c' ++ r') : c = c' ∧ r = r' := by
  simp only [ifHead, List.cons_append, List.append_assoc, List.cons.injEq, true_and,
    List.nil_append] at h
  rcases c.yield_inj c' stops_keyword stops_keyword h with ⟨rfl, hrest⟩
  exact ⟨rfl, List.tail_eq_of_cons_eq hrest⟩

section

variable {c c' : CondTree} {x x' : String} {start start' bound bound' : ExprTree} {b b' : Bool}
  {body body' : StmtTree .block}

/-- Whether the word before a block is left out can be told from the first token. -/
theorem optionally_do_inj
    (h : optionally b (.keyword .doKw) ++ (body.yield ++ r) =
      optionally b' (.keyword .doKw) ++ (body'.yield ++ r')) :
    b = b' ∧ body.yield ++ r = body'.yield ++ r' := by
  have hne : ∀ (body : StmtTree .block) (r : List TokenKind),
      (body.yield ++ r).head? ≠ some (.keyword .doKw) := by
    intro body r heq
    rcases body.exists_head_block with ⟨k, w, hk, hstart⟩
    rw [hk] at heq
    rw [Option.some.inj heq] at hstart
    cases hstart
  exact optionally_inj (hne body r) (hne body' r') h

theorem stops_body : Stops .expression (optionally b (.keyword .doKw) ++ (body.yield ++ r)) := by
  rcases body.exists_head_block with ⟨k, w, hk, hstart⟩
  rw [hk]
  exact stops_of_startsBlock hstart

theorem whileHead_inj
    (h : whileHead c b ++ (body.yield ++ r) = whileHead c' b' ++ (body'.yield ++ r')) :
    c = c' ∧ b = b' ∧ body.yield ++ r = body'.yield ++ r' := by
  simp only [whileHead, List.cons_append, List.append_assoc, List.cons.injEq, true_and] at h
  rcases c.yield_inj c' stops_body stops_body h with ⟨rfl, hrest⟩
  exact ⟨rfl, optionally_do_inj hrest⟩

theorem forHead_inj
    (h : forHead x start bound b ++ (body.yield ++ r) =
      forHead x' start' bound' b' ++ (body'.yield ++ r')) :
    x = x' ∧ start = start' ∧ bound = bound' ∧ b = b' ∧
      body.yield ++ r = body'.yield ++ r' := by
  simp only [forHead, List.cons_append, List.append_assoc, List.cons.injEq, true_and,
    TokenKind.identifier.injEq] at h
  rcases h with ⟨rfl, h⟩
  rcases start.yield_inj start' stops_keyword stops_keyword h with ⟨rfl, hbound⟩
  rcases bound.yield_inj bound' stops_body stops_body (List.tail_eq_of_cons_eq hbound) with
    ⟨rfl, hrest⟩
  exact ⟨rfl, rfl, rfl, optionally_do_inj hrest⟩

end

/-- What ends a list of statements is not one more of them. -/
theorem endsStatements_ne_others (hr : EndsStatements r) (s : StmtTree .statement) :
    r ≠ .symbol .semicolon :: (s.yield ++ r') := by
  rcases hr with hr | ⟨r₁, rfl, hr₁⟩
  · intro h
    exact hr.head_ne_semicolon (by rw [h]; rfl)
  · intro h
    exact optionally_ne_statement false hr₁ s (List.tail_eq_of_cons_eq h)

theorem follows_else {t e : StmtTree .block} (ht : t.isOpen = false) :
    t.Follows (.keyword .elseKw :: (e.yield ++ r)) :=
  ⟨stops_keyword, fun hopen => by rw [ht] at hopen; cases hopen⟩

/-- A branch with an `else` is not one without, if the `else` is not for its `then` part. -/
theorem ifThen_yield_ne {c c' : CondTree} {t t' e : StmtTree .block}
    (ih : ∀ {r r'}, t.Follows r → t'.Follows r' → t.yield ++ r = t'.yield ++ r' →
      t = t' ∧ r = r')
    (ht : t'.isOpen = false) (hr : (ifThen c t).Follows r) :
    (ifThen c t).yield ++ r ≠ (ifThenElse c' t' e).yield ++ r' := by
  intro h
  simp only [yield, List.append_assoc, List.cons_append] at h
  rcases ifHead_inj h with ⟨rfl, hblocks⟩
  -- The `then` parts are the same, so the first branch would have the `else` behind it.
  have hrest := (ih ⟨hr.1, fun _ => hr.2 rfl⟩ (follows_else ht) hblocks).2
  exact hr.2 rfl (by rw [hrest]; rfl)

/-- What a part of a program derives can be told from what is behind it, if in both derivations
    every `else` belongs to the nearest `if`. -/
theorem yield_inj {p : StmtPart} (d d' : StmtTree p) (hd : d.Nearest) (hd' : d'.Nearest)
    (hr : d.Follows r) (hr' : d'.Follows r') (h : d.yield ++ r = d'.yield ++ r') :
    d = d' ∧ r = r' := by
  induction d generalizing r r' with
  | program o ih =>
      cases d' with
      | program o' =>
          simp only [yield, List.append_assoc, List.cons_append, List.nil_append] at h
          rcases ih o' hd hd' (Or.inr rfl) (Or.inr rfl) h with ⟨rfl, hrest⟩
          exact ⟨rfl, List.tail_eq_of_cons_eq hrest⟩
  | empty semicolon =>
      cases d' with
      | empty semicolon' =>
          rcases optionally_inj hr.head_ne_semicolon hr'.head_ne_semicolon h with
            ⟨rfl, hrest⟩
          exact ⟨rfl, hrest⟩
      | filled ss semicolon' =>
          cases ss with
          | statements first more =>
              simp only [yield, List.append_assoc] at h
              exact absurd h (optionally_ne_statement semicolon hr first)
  | filled ss semicolon ih =>
      cases d' with
      | empty semicolon' =>
          cases ss with
          | statements first more =>
              simp only [yield, List.append_assoc] at h
              exact absurd h.symm (optionally_ne_statement semicolon' hr' first)
      | filled ss' semicolon' =>
          simp only [yield, List.append_assoc] at h
          rcases ih ss' hd hd' (endsStatements_optionally semicolon hr)
            (endsStatements_optionally semicolon' hr') h with ⟨rfl, hend⟩
          rcases optionally_inj hr.head_ne_semicolon hr'.head_ne_semicolon hend with
            ⟨rfl, hrest⟩
          exact ⟨rfl, hrest⟩
  | statements first more ih ihmore =>
      cases d' with
      | statements first' more' =>
          simp only [yield, List.append_assoc] at h
          rcases ih first' hd.1 hd'.1 (first.follows_others more hr)
            (first'.follows_others more' hr') h with ⟨rfl, hmore⟩
          rcases ihmore more' hd.2 hd'.2 hr hr' hmore with ⟨rfl, hrest⟩
          exact ⟨rfl, hrest⟩
  | noOthers =>
      cases d' with
      | noOthers => exact ⟨rfl, h⟩
      | others s more =>
          simp only [yield, List.append_assoc, List.cons_append, List.nil_append] at h
          exact absurd h (endsStatements_ne_others hr s)
  | others s more ih ihmore =>
      cases d' with
      | noOthers =>
          simp only [yield, List.append_assoc, List.cons_append, List.nil_append] at h
          exact absurd h.symm (endsStatements_ne_others hr' s)
      | others s' more' =>
          simp only [yield, List.append_assoc, List.cons_append, List.cons.injEq, true_and] at h
          rcases ih s' hd.1 hd'.1 (s.follows_others more hr) (s'.follows_others more' hr') h with
            ⟨rfl, hmore⟩
          rcases ihmore more' hd.2 hd'.2 hr hr' hmore with ⟨rfl, hrest⟩
          exact ⟨rfl, hrest⟩
  | braces o ih =>
      cases d' with
      | braces o' =>
          simp only [yield, List.append_assoc, List.cons_append, List.cons.injEq, true_and,
            List.nil_append] at h
          rcases ih o' hd hd' (Or.inl rfl) (Or.inl rfl) h with ⟨rfl, hrest⟩
          exact ⟨rfl, List.tail_eq_of_cons_eq hrest⟩
      -- No statement begins with a brace.
      | single s =>
          rcases s.exists_head_statement with ⟨k, w, hs, hk⟩
          simp only [yield, hs, List.cons_append, List.cons.injEq] at h
          rw [← h.1] at hk
          cases hk
  | single s ih =>
      cases d' with
      | braces o =>
          rcases s.exists_head_statement with ⟨k, w, hs, hk⟩
          simp only [yield, hs, List.cons_append, List.cons.injEq] at h
          rw [h.1] at hk
          cases hk
      | single s' =>
          rcases ih s' hd hd' hr hr' h with ⟨rfl, hrest⟩
          exact ⟨rfl, hrest⟩
  | skip =>
      cases d' with
      | skip => exact ⟨rfl, List.tail_eq_of_cons_eq h⟩
      | _ => cases List.head_eq_of_cons_eq h
  | assign x e =>
      cases d' with
      | assign x' e' =>
          simp only [yield, List.cons_append, List.cons.injEq, true_and,
            TokenKind.identifier.injEq] at h
          rcases h with ⟨rfl, h⟩
          rcases e.yield_inj e' hr.1 hr'.1 h with ⟨rfl, hrest⟩
          exact ⟨rfl, hrest⟩
      | _ => cases List.head_eq_of_cons_eq h
  | ifThen c t ih =>
      cases d' with
      | ifThen c' t' =>
          simp only [yield, List.append_assoc] at h
          rcases ifHead_inj h with ⟨rfl, hblock⟩
          rcases ih t' hd hd' ⟨hr.1, fun _ => hr.2 rfl⟩ ⟨hr'.1, fun _ => hr'.2 rfl⟩ hblock with
            ⟨rfl, hrest⟩
          exact ⟨rfl, hrest⟩
      -- The two rules have a beginning in common, and the `then` parts end at different places.
      | ifThenElse c' t' e' => exact absurd h (ifThen_yield_ne (ih t' hd hd'.2.1) hd'.1 hr)
      | _ => cases List.head_eq_of_cons_eq h
  | ifThenElse c t e iht ihe =>
      cases d' with
      | ifThen c' t' =>
          refine absurd h.symm (ifThen_yield_ne (fun hf hf' heq => ?_) hd.1 hr')
          rcases iht t' hd.2.1 hd' hf' hf heq.symm with ⟨rfl, hrest⟩
          exact ⟨rfl, hrest.symm⟩
      | ifThenElse c' t' e' =>
          simp only [yield, List.append_assoc, List.cons_append] at h
          rcases ifHead_inj h with ⟨rfl, hblocks⟩
          rcases iht t' hd.2.1 hd'.2.1 (follows_else hd.1) (follows_else hd'.1) hblocks with
            ⟨rfl, hblock⟩
          rcases ihe e' hd.2.2 hd'.2.2 hr hr' (List.tail_eq_of_cons_eq hblock) with ⟨rfl, hrest⟩
          exact ⟨rfl, hrest⟩
      | _ => cases List.head_eq_of_cons_eq h
  | whileDo c b body ih =>
      cases d' with
      | whileDo c' b' body' =>
          simp only [yield, List.append_assoc] at h
          rcases whileHead_inj h with ⟨rfl, rfl, hbody⟩
          rcases ih body' hd hd' hr hr' hbody with ⟨rfl, hrest⟩
          exact ⟨rfl, hrest⟩
      | _ => cases List.head_eq_of_cons_eq h
  | forTo x start bound b body ih =>
      cases d' with
      | forTo x' start' bound' b' body' =>
          simp only [yield, List.append_assoc] at h
          rcases forHead_inj h with ⟨rfl, rfl, rfl, rfl, hbody⟩
          rcases ih body' hd hd' hr hr' hbody with ⟨rfl, hrest⟩
          exact ⟨rfl, hrest⟩
      | _ => cases List.head_eq_of_cons_eq h
  | read x b =>
      cases d' with
      | read x' b' => cases b <;> cases b' <;> simp_all [yield, inParentheses]
      | _ => cases List.head_eq_of_cons_eq h
  | print raw =>
      cases d' with
      | print raw' => simpa [yield] using h
      -- No expression begins with a string literal.
      | write e =>
          rcases e.exists_head with ⟨k, w, he, hk⟩
          simp only [yield, he, List.cons_append, List.cons.injEq, true_and] at h
          rw [← h.1] at hk
          cases hk
      | _ => cases List.head_eq_of_cons_eq h
  | write e =>
      cases d' with
      | print raw =>
          rcases e.exists_head with ⟨k, w, he, hk⟩
          simp only [yield, he, List.cons_append, List.cons.injEq, true_and] at h
          rw [h.1] at hk
          cases hk
      | write e' =>
          simp only [yield, List.cons_append, List.cons.injEq, true_and] at h
          rcases e.yield_inj e' hr.1 hr'.1 h with ⟨rfl, hrest⟩
          exact ⟨rfl, hrest⟩
      | _ => cases List.head_eq_of_cons_eq h

end StmtTree

end WhileLang
