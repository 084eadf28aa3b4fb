import Mathlib.Order.Bounds.Basic
import WhileLang.Proofs.Grammar.Parsed

/-!
# Where Syntax Errors Are Reported

Tokens that are no program are reported at one of them. For tokens with one
mark at their end, as those of a text are, it is the first one that is not in
the longest opening: of all lists of statements, with or without a last
semicolon, that some number of the first tokens are, the one with the most
tokens ends just before it. It is never the mark, because the tokens before
the mark would be a program otherwise.

The parser does not keep track of how far it came. It parses again, without
the mark, and takes the shortest rest of all parses. So what the rests are has
to be known of every parse and not of the preferred one only; but a parse is
the preferred one for the test that just its own rest passes.

## Main definitions

* `Grammar.OpensWith`: So many of the first tokens are derived as an opening.

## Theorems

* `Grammar.exists_mem_opening`: The rests of openings are those of derivations.
* `Program.exists_errorOf`: The token behind the longest opening.
* `Program.ofTokens_error_isGreatest`: Where tokens with one mark at their end
  are reported.
-/

namespace WhileLang

theorem ArithTree.eof_not_mem_yield {p : ArithPart} (d : ArithTree p) : .eof ∉ d.yield := by
  induction d <;> simp_all [yield, inParentheses]

theorem CondTree.eof_not_mem_yield (d : CondTree) : .eof ∉ d.yield := by
  induction d <;> simp_all [yield, inParentheses, ArithTree.eof_not_mem_yield]

namespace StmtTree

theorem eof_not_mem_optionally {b : Bool} {k : TokenKind} (hk : k ≠ .eof) :
    .eof ∉ optionally b k := by
  cases b <;> simp [optionally, hk.symm]

/-- The mark is derived at the end of a program only. -/
theorem eof_not_mem_yield {p : StmtPart} (d : StmtTree p) (hp : p ≠ .program) :
    .eof ∉ d.yield := by
  have hexpr : ∀ e : ExprTree, .eof ∉ e.yield := ArithTree.eof_not_mem_yield
  have hcond : ∀ c : CondTree, .eof ∉ c.yield := CondTree.eof_not_mem_yield
  induction d with
  | program => exact absurd rfl hp
  | read x inParens => cases inParens <;> simp [yield, inParentheses]
  | ifThen | ifThenElse => simp_all [yield, ifHead]
  | whileDo => simp_all [yield, whileHead, eof_not_mem_optionally]
  | forTo => simp_all [yield, forHead, eof_not_mem_optionally]
  | _ => simp_all [yield, eof_not_mem_optionally]

end StmtTree

namespace Grammar

open WhileLang.Parser

variable {input rest : List Token} {ts : List Token} {n : Nat}

/-- The first `n` tokens are what is derived for perhaps statements and perhaps a semicolon. -/
def OpensWith (ts : List Token) (n : Nat) : Prop :=
  n ≤ ts.length ∧ ∃ d : StmtTree .opening, d.yield = (ts.take n).map Token.kind

/-- An opening is parsed up to where one is derived. -/
theorem exists_mem_opening :
    (∃ xs, (xs, rest) ∈ opening input) ↔ ∃ d : StmtTree .opening, Reads d.yield input rest := by
  have hder : Below (input.length + 1) (Derived .statement) statement :=
    fun input hlt => (statement_parses _ input hlt).1
  have hpre : Below (input.length + 1) (Preferred .statement) statement :=
    fun input hlt => (statement_parses _ input hlt).2
  constructor
  · rintro ⟨xs, hxs⟩
    -- For the test that nothing but this rest passes, a parse with this rest is the first one.
    have hmem : (xs.toList, rest) ∈ map Items.toList opening input := mem_map.mpr ⟨xs, hxs, rfl⟩
    rcases exists_first? (fun rest' => decide (rest' = rest)) hmem (decide_eq_true rfl) with
      ⟨⟨v, rest'⟩, hfirst⟩
    have hrest : rest' = rest := of_decide_eq_true (mem_of_first? hfirst).2
    rw [hrest] at hfirst
    rcases preferred_openingOf hpre input (Nat.lt_succ_self _) _ v rest hfirst with
      ⟨d, -, hreads, -, -⟩
    exact ⟨d, hreads⟩
  · rintro ⟨d, hreads⟩
    rcases mem_map.mp (derived_openingOf hder input (Nat.lt_succ_self _) d rest hreads) with
      ⟨xs, hxs, -⟩
    exact ⟨xs, hxs⟩

/-- The rests of openings are the tokens behind so many as there are openings with. -/
theorem mem_rests_opening :
    rest ∈ (opening ts).map Prod.snd ↔ ∃ n, OpensWith ts n ∧ rest = ts.drop n := by
  have hrest : rest ∈ (opening ts).map Prod.snd ↔ ∃ xs, (xs, rest) ∈ opening ts := by
    simp only [List.mem_map, Prod.exists, exists_eq_right]
  rw [hrest, exists_mem_opening]
  simp only [reads_iff_take, OpensWith]
  constructor
  · rintro ⟨d, n, hn, hd, hdrop⟩
    exact ⟨n, ⟨hn, d, hd⟩, hdrop⟩
  · rintro ⟨n, ⟨hn, d, hd⟩, hdrop⟩
    exact ⟨d, n, hn, hd, hdrop⟩

/-- No tokens at all are an opening. -/
theorem opensWith_zero : OpensWith ts 0 :=
  ⟨Nat.zero_le _, .empty false, rfl⟩

end Grammar

namespace Program

open Grammar

variable {ts : List Token}

/-- The shortest rest of an opening is what is behind the longest one. -/
theorem exists_shortest (ts : List Token) :
    ∃ k, IsGreatest {n | OpensWith ts n} k ∧
      shortest ts ((opening ts).map Prod.snd) = ts.drop k := by
  have hmem : ∀ rest, rest ∈ ts :: (opening ts).map Prod.snd ↔
      ∃ n, OpensWith ts n ∧ rest = ts.drop n := by
    intro rest
    rw [List.mem_cons, mem_rests_opening, or_iff_right_iff_imp]
    rintro rfl
    exact ⟨0, opensWith_zero, rfl⟩
  rcases (hmem _).mp (shortest_mem ts ((opening ts).map Prod.snd)) with ⟨k, hk, hshortest⟩
  refine ⟨k, ⟨hk, fun n hn => ?_⟩, hshortest⟩
  have hle : (ts.drop k).length ≤ (ts.drop n).length := by
    rw [← hshortest]
    exact length_shortest_le _ _ _ ((hmem _).mpr ⟨n, hn, rfl⟩)
  have hn' : n ≤ ts.length := hn.1
  rw [List.length_drop, List.length_drop] at hle
  omega

/-- The error is at the token behind the longest opening. -/
theorem exists_errorOf (ts : List Token) :
    ∃ k, IsGreatest {n | OpensWith ts n} k ∧
      errorOf ts = (ts[k]?).elim .noParse .unexpectedToken := by
  have herror : errorOf ts =
      (shortest ts ((opening ts).map Prod.snd)).head?.elim .noParse .unexpectedToken := by
    rw [errorOf]
    cases (shortest ts ((opening ts).map Prod.snd)).head? <;> rfl
  rcases exists_shortest ts with ⟨k, hk, hshortest⟩
  refine ⟨k, hk, ?_⟩
  rw [herror, hshortest, List.head?_drop]

theorem eq_errorOf {e : ParseError} (h : ofTokens ts = .error e) : e = errorOf ts := by
  rw [ofTokens] at h
  split at h
  · cases h
  · exact (Except.error.inj h).symm

/-- An opening does not reach the mark at the end, and if the tokens are no program, it does not
    reach the last token before the mark either. -/
theorem lt_of_opensWith {us : List Token} {last : Token} {k : Nat} (hlast : last.kind = .eof)
    (hfails : ∀ b, ofTokens (us ++ [last]) ≠ .ok b) (hk : OpensWith (us ++ [last]) k) :
    k < us.length := by
  rcases hk with ⟨hle, d, hd⟩
  rw [List.length_append, List.length_singleton] at hle
  by_contra hlt
  rcases Nat.eq_or_lt_of_le (Nat.le_of_not_lt hlt) with heq | hgt
  -- All tokens before the mark would be an opening, and with the mark they would be a program.
  · rw [← heq, List.take_left] at hd
    have hderives : (StmtTree.program d).Derives (us ++ [last]) := by
      rw [StmtTree.Derives, StmtTree.yield, hd, List.map_append, List.map_singleton, hlast]
    rcases exists_ofTokens hderives with ⟨b, hb⟩
    exact hfails b hb
  · have hall : us.length + 1 = k := Nat.le_antisymm hgt hle
    rw [List.take_of_length_le (by rw [List.length_append, ← hall]; exact Nat.le_refl _)] at hd
    refine d.eof_not_mem_yield (by intro h; cases h) ?_
    rw [hd, List.map_append, List.map_singleton, hlast]
    exact List.mem_append_right _ (List.mem_singleton.mpr rfl)

/-- Tokens with one mark, which is at their end, are reported at the token behind the longest
    opening, if they are no program; and this is not the mark. -/
theorem ofTokens_error_isGreatest (us : List Token) (last : Token) (hus : ∀ t ∈ us, t.kind ≠ .eof)
    (hlast : last.kind = .eof) (e : ParseError) (h : ofTokens (us ++ [last]) = .error e) :
    ∃ k t, IsGreatest {n | OpensWith (us ++ [last]) n} k ∧ (us ++ [last])[k]? = some t ∧
      t.kind ≠ .eof ∧ e = .unexpectedToken t ∧
      e.message = "Unexpected " ++ t.kind.display ++ " at line " ++
        Decimal.natText t.span.start.line ++ ", column " ++ Decimal.natText t.span.start.column := by
  rcases exists_errorOf (us ++ [last]) with ⟨k, hk, herror⟩
  have hlt : k < us.length := by
    refine lt_of_opensWith hlast (fun b hb => ?_) hk.1
    rw [h] at hb
    cases hb
  have hget : (us ++ [last])[k]? = some us[k] := by
    rw [List.getElem?_append_left hlt, List.getElem?_eq_getElem hlt]
  have he : e = .unexpectedToken us[k] := by
    rw [eq_errorOf h, herror, hget]
    rfl
  refine ⟨k, us[k], hk, hget, hus _ (List.getElem_mem hlt), he, ?_⟩
  rw [he]
  rfl

/-- The tokens of two statements and of a number behind them. -/
def spareNumber : List Token :=
  [.keyword .skipKw, .symbol .semicolon, .keyword .writeKw, .integer 1, .integer 2].map
    fun k => ⟨k, default⟩

/-- The number is not in the longest opening, and the error is there. -/
theorem ofTokens_error_isGreatest_of_spareNumber :
    (∀ t ∈ spareNumber, t.kind ≠ .eof) ∧
      ofTokens (spareNumber ++ [⟨.eof, default⟩]) =
        .error (.unexpectedToken ⟨.integer 2, default⟩) ∧
      ∃ k, IsGreatest {n | OpensWith (spareNumber ++ [⟨.eof, default⟩]) n} k ∧
        (spareNumber ++ [⟨.eof, default⟩])[k]? = some ⟨.integer 2, default⟩ := by
  have hmark : ∀ t ∈ spareNumber, t.kind ≠ .eof := by decide
  have herror : ofTokens (spareNumber ++ [⟨.eof, default⟩]) =
      .error (.unexpectedToken ⟨.integer 2, default⟩) := by
    with_unfolding_all rfl
  rcases ofTokens_error_isGreatest spareNumber ⟨.eof, default⟩ hmark rfl _ herror with
    ⟨k, t, hk, hget, -, he, -⟩
  rw [← ParseError.unexpectedToken.inj he] at hget
  exact ⟨hmark, herror, k, hk, hget⟩

end Program

end WhileLang
