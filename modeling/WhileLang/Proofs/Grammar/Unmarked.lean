import WhileLang.Proofs.Grammar.Errors

/-!
# Errors Without a Token

A syntax error names the token behind the longest opening. There is none if
all tokens are an opening, and this is the one reason for an error without a
token: no tokens at all are an opening, but so are statements that have no
mark behind them. The wording of the error speaks of an empty list all the
same, so it is wrong for `skip` alone.

A mark is in no opening. So with a mark among the tokens, wherever it is, the
longest opening ends before it, and some token is named.

## Main definitions

* `Grammar.IsOpening`: All of the tokens are derived as an opening.

## Theorems

* `Grammar.IsOpening.eof_not_mem`: There is no mark in an opening.
* `Program.errorOf_eq_noParse_iff`: When no token is left to be named.
* `Program.ofTokens_noParse_iff`: Which lists of tokens fail without a token,
  and which token is named otherwise.
* `Program.ofTokens_skipAlone`: A list that is not empty and fails without a
  token.
-/

namespace WhileLang

namespace Grammar

variable {ts : List Token}

/-- The tokens are what is derived for perhaps statements and perhaps a semicolon. -/
def IsOpening (ts : List Token) : Prop :=
  ∃ d : StmtTree .opening, d.yield = ts.map Token.kind

theorem isOpening_iff_opensWith : IsOpening ts ↔ OpensWith ts ts.length := by
  simp only [IsOpening, OpensWith, Nat.le_refl, true_and, List.take_length]

/-- No tokens at all are an opening. -/
theorem isOpening_nil : IsOpening [] :=
  ⟨.empty false, rfl⟩

/-- There is no mark in an opening. -/
theorem IsOpening.eof_not_mem (h : IsOpening ts) : ∀ t ∈ ts, t.kind ≠ .eof := by
  rcases h with ⟨d, hd⟩
  intro t ht heof
  refine d.eof_not_mem_yield (by intro h; cases h) ?_
  rw [hd, ← heof]
  exact List.mem_map_of_mem ht

end Grammar

namespace Program

open Grammar

variable {ts : List Token}

/-- A program has a mark. -/
theorem exists_eof_of_ofTokens {b : Block} (h : ofTokens ts = .ok b) :
    ∃ t ∈ ts, t.kind = .eof := by
  rcases exists_nearest h with ⟨d, hd, -⟩
  cases d with
  | program o =>
      have hmem : TokenKind.eof ∈ ts.map Token.kind := by
        rw [← hd, StmtTree.yield]
        exact List.mem_append_right _ (List.mem_singleton.mpr rfl)
      exact List.mem_map.mp hmem

/-- No token is left to be named exactly if all of them are an opening. -/
theorem errorOf_eq_noParse_iff : errorOf ts = .noParse ↔ IsOpening ts := by
  rcases exists_errorOf ts with ⟨k, hk, herror⟩
  have hle : k ≤ ts.length := hk.1.1
  rw [herror, isOpening_iff_opensWith]
  constructor
  · intro h
    -- There is no token behind the longest opening, so it is as long as the list.
    rcases hget : ts[k]? with _ | t
    · have hlen : k = ts.length := Nat.le_antisymm hle (List.getElem?_eq_none_iff.mp hget)
      rw [← hlen]
      exact hk.1
    · rw [hget] at h
      cases h
  · intro h
    have hlen : k = ts.length := Nat.le_antisymm hle (hk.2 h)
    rw [hlen, List.getElem?_eq_none (Nat.le_refl _)]
    rfl

/-- Tokens fail without a token to be named exactly if all of them are an opening. -/
theorem ofTokens_eq_noParse : ofTokens ts = .error .noParse ↔ IsOpening ts := by
  constructor
  · intro h
    exact errorOf_eq_noParse_iff.mp (eq_errorOf h).symm
  · intro h
    cases hresult : ofTokens ts with
    | error e => rw [eq_errorOf hresult, errorOf_eq_noParse_iff.mpr h]
    | ok b =>
        -- A program would have a mark, and an opening has none.
        rcases exists_eof_of_ofTokens hresult with ⟨t, ht, heof⟩
        exact absurd heof (h.eof_not_mem t ht)

/-- If a token is named, it is the one behind the longest opening. -/
theorem exists_unexpectedToken {e : ParseError} (h : ofTokens ts = .error e) (hne : e ≠ .noParse) :
    ∃ k t, IsGreatest {n | OpensWith ts n} k ∧ ts[k]? = some t ∧ e = .unexpectedToken t := by
  rcases exists_errorOf ts with ⟨k, hk, herror⟩
  rw [← eq_errorOf h] at herror
  rcases hget : ts[k]? with _ | t
  · rw [hget] at herror
    exact absurd herror hne
  · rw [hget] at herror
    exact ⟨k, t, hk, hget, herror⟩

/-- Tokens fail without a token to be named exactly if all of them are an opening, which has no
    mark; of the lists with a mark and the empty one, this is the empty one only. In all other
    lists that fail, the token behind the longest opening is named. -/
theorem ofTokens_noParse_iff (ts : List Token) :
    (ofTokens ts = .error .noParse ↔ IsOpening ts) ∧
      (ts = [] ∨ (∃ t ∈ ts, t.kind = .eof) → (ofTokens ts = .error .noParse ↔ ts = [])) ∧
      (∀ e, ofTokens ts = .error e → e ≠ .noParse →
        ∃ k t, IsGreatest {n | OpensWith ts n} k ∧ ts[k]? = some t ∧ t ∈ ts ∧
          e = .unexpectedToken t) ∧
      ParseError.noParse.message = "Cannot parse an empty token stream" := by
  refine ⟨ofTokens_eq_noParse, fun hmarked => ?_, fun e he hne => ?_, rfl⟩
  · rw [ofTokens_eq_noParse]
    constructor
    · intro h
      rcases hmarked with hnil | ⟨t, ht, heof⟩
      · exact hnil
      · exact absurd heof (h.eof_not_mem t ht)
    · rintro rfl
      exact isOpening_nil
  · rcases exists_unexpectedToken he hne with ⟨k, t, hk, hget, heq⟩
    exact ⟨k, t, hk, hget, List.mem_of_getElem? hget, heq⟩

/-- The tokens of two statements with a mark between them. -/
def markBetween : List Token :=
  [.keyword .skipKw, .eof, .keyword .skipKw].map fun k => ⟨k, default⟩

/-- A mark that is not at the end is named, so the list is not taken for an empty one. -/
theorem ofTokens_noParse_iff_of_markBetween :
    (∃ t ∈ markBetween, t.kind = .eof) ∧ ofTokens markBetween ≠ .error .noParse ∧
      ofTokens markBetween = .error (.unexpectedToken ⟨.eof, default⟩) ∧
      ∃ k, IsGreatest {n | OpensWith markBetween n} k ∧
        markBetween[k]? = some ⟨.eof, default⟩ := by
  have hmark : ∃ t ∈ markBetween, t.kind = .eof := by decide
  have herror : ofTokens markBetween = .error (.unexpectedToken ⟨.eof, default⟩) := by
    with_unfolding_all rfl
  rcases ofTokens_noParse_iff markBetween with ⟨-, hmarked, hnamed, -⟩
  have hnot : ofTokens markBetween ≠ .error .noParse := by
    rw [Ne, hmarked (.inr hmark)]
    decide
  rcases hnamed _ herror nofun with ⟨k, t, hk, hget, -, he⟩
  rw [← ParseError.unexpectedToken.inj he] at hget
  exact ⟨hmark, hnot, herror, k, hk, hget⟩

/-- The token of one statement, without a mark. -/
def skipAlone : List Token :=
  [⟨.keyword .skipKw, default⟩]

/-- A statement without a mark is reported as an empty list, and no token of it is named. -/
theorem ofTokens_skipAlone :
    skipAlone ≠ [] ∧ ofTokens skipAlone = .error .noParse ∧
      ¬ (ofTokens skipAlone = .error .noParse ↔ skipAlone = []) := by
  have hne : skipAlone ≠ [] := List.cons_ne_nil _ _
  have herror : ofTokens skipAlone = .error .noParse := by with_unfolding_all rfl
  exact ⟨hne, herror, fun h => hne (h.mp herror)⟩

end Program

end WhileLang
