import WhileLang.Proofs.Token.Spelling
import WhileLang.Token.OfText

/-!
# Tokens Written into a Text

A token that can occur in a text is read back from it where it is written with
a blank or nothing behind it. For this, nothing is asked of the neighbours of
the token: they cannot join with it over a blank. And the tokens of any text
are such tokens, up to the mark at its end: names are no keywords, numbers are
not negative, and string literals have their backslashes in front of what can
be escaped.

## Main definitions

* `TokenKind.text`: How a token is written.
* `TokenKind.Spelled`: How it may be written; equality has two spellings.
* `TokenKind.Writable`: A token that can occur in a text.
* `Token.Cuts`: The tokens of a text behind another one.

## Theorems

* `TokenKind.exists_lexeme`: What is written is a lexeme that stands for the token.
* `Token.cuts_spelled`, `Token.cuts_blanks`, `Token.cuts_comment`: A token,
  blanks or a comment in front of a text.
* `Token.exists_ofText_of_cuts`: A text that is cut into tokens is read as them.
* `Token.writable_of_ofText`: The tokens of a text are writable.
-/

namespace WhileLang

open LexemeKind

namespace TokenKind

/-- How a token is written; the mark at the end of a text is not. -/
def text : TokenKind → List Char
  | .identifier name => name.toList
  | .integer n => Decimal.ofInt n.toInt
  | .string raw => '"' :: (raw.toList ++ ['"'])
  | .keyword k => k.text.toList
  | .symbol x => x.text.toList
  | .eof => []

/-- How a token may be written. -/
inductive Spelled : TokenKind → List Char → Prop
  | text (k : TokenKind) : Spelled k k.text
  | doubled : Spelled (.symbol .equal) "==".toList

/-- The token can occur in a text, before its end. -/
def Writable : TokenKind → Prop
  | .identifier name => IsName name.toList ∧ Keyword.ofText? name = none
  | .integer n => 0 ≤ n.toInt
  | .string raw => IsBody raw.toList
  | .keyword _ | .symbol _ => True
  | .eof => False

/-- The kind of lexeme that a symbol is. -/
def lexemeKind : Symbol → LexemeKind
  | .lparen | .rparen | .lbrace | .rbrace => .paren
  | .semicolon => .semicolon
  | _ => .operator

theorem spells_symbol (x : Symbol) : (lexemeKind x).Spells x.text.toList := by
  cases x <;> first | exact rfl | exact ⟨_, by decide, rfl⟩

/-- A name that is found among the keywords is spelled as one. -/
theorem ofText?_eq_none_iff {name : String} :
    Keyword.ofText? name = none ↔ ¬ Spells .keyword name.toList := by
  constructor
  · rintro h ⟨k, hk⟩
    rw [String.toList_inj.mp hk, Keyword.ofText?_text] at h
    cases h
  · intro h
    cases hk : Keyword.ofText? name with
    | none => rfl
    | some k =>
        rw [← Keyword.text_of_ofText? hk] at h
        exact absurd ⟨k, rfl⟩ h

theorem spells_ofInt {n : Int} (h : 0 ≤ n) : Spells .number (Decimal.ofInt n) := by
  rw [Decimal.ofInt, if_neg (Int.not_lt.mpr h)]
  refine ⟨Decimal.toDigits_ne_nil _, fun c hc => ?_⟩
  exact Nat.isDigit_of_mem_toDigits (by decide) (by decide) hc

/-- What is written for a token is a lexeme of a kind that is not skipped, and it stands for the
    token. -/
theorem exists_lexeme_text {k : TokenKind} (h : k.Writable) :
    ∃ j : LexemeKind, j.Spells k.text ∧ j ∉ [.whitespace, .comment] ∧
      Rule.winner? rules k.text = some j.rule ∧
        ∀ span, ofLexeme ⟨j.rule.name, k.text, span, j.rule.isSkipped⟩ = .ok k := by
  cases k with
  | identifier name =>
      refine ⟨.identifier, h.1, by decide, winner?_of_spells h.1 fun _ => ?_, fun span => ?_⟩
      · exact ofText?_eq_none_iff.mp h.2
      · simp only [ofLexeme, rule, ofName?_name, text, String.ofList_toList]
        rfl
  | integer n =>
      have hspells := spells_ofInt h
      refine ⟨.number, hspells, by decide, winner?_of_spells hspells nofun, fun span => ?_⟩
      simp only [ofLexeme, rule, ofName?_name, text, Decimal.readInt32?_ofInt]
      rfl
  | string raw =>
      have hspells : Spells .string (text (.string raw)) := ⟨raw.toList, rfl, h⟩
      refine ⟨.string, hspells, by decide, winner?_of_spells hspells nofun, fun span => ?_⟩
      simp only [ofLexeme, rule, ofName?_name, text, List.drop_succ_cons, List.drop_zero,
        List.dropLast_concat, String.ofList_toList]
      rfl
  | keyword w =>
      have hspells : Spells .keyword (text (.keyword w)) := ⟨w, rfl⟩
      refine ⟨.keyword, hspells, by decide, winner?_of_spells hspells nofun, fun span => ?_⟩
      simp only [ofLexeme, rule, ofName?_name, text, String.ofList_toList, Keyword.ofText?_text]
      rfl
  | symbol x =>
      have hspells := spells_symbol x
      refine ⟨lexemeKind x, hspells, by cases x <;> decide, winner?_of_spells hspells ?_, ?_⟩
      · cases x <;> nofun
      · intro span
        simp only [ofLexeme, rule, ofName?_name, text, String.ofList_toList, Symbol.ofText?_text]
        cases x <;> rfl
  | eof => exact absurd h id

/-- The same of every way to write a token. -/
theorem exists_lexeme {k : TokenKind} {u : List Char} (h : k.Writable) (hu : k.Spelled u) :
    ∃ j : LexemeKind, j.Spells u ∧ j ∉ [.whitespace, .comment] ∧
      Rule.winner? rules u = some j.rule ∧
        ∀ span, ofLexeme ⟨j.rule.name, u, span, j.rule.isSkipped⟩ = .ok k := by
  cases hu with
  | text => exact exists_lexeme_text h
  | doubled =>
      have hspells : Spells .operator "==".toList := ⟨"==", by decide, rfl⟩
      refine ⟨.operator, hspells, by decide, winner?_of_spells hspells nofun, fun span => ?_⟩
      simp only [ofLexeme, rule, ofName?_name]
      rfl

/-- A number without a sign is not negative. -/
theorem nonneg_of_readInt32? {cs : List Char} {n : Int32} (hne : cs ≠ [])
    (hcs : ∀ c ∈ cs, c.isDigit = true) (h : Decimal.readInt32? cs = some n) : 0 ≤ n.toInt := by
  rw [Decimal.readInt32?_of_digits hne hcs] at h
  split at h
  · rw [← Option.some.inj h, Int32.toInt_ofInt_of_le (by omega) (by omega)]
    omega
  · cases h

/-- The token that a lexeme stands for is writable. -/
theorem writable_of_ofLexeme {j : LexemeKind} {l : Lexeme} {k : TokenKind}
    (hrule : l.rule = j.name) (hspells : j.Spells l.text)
    (hname : j = .identifier → ¬ Spells .keyword l.text) (h : ofLexeme l = .ok k) :
    k.Writable := by
  rw [ofLexeme, hrule, ofName?_name] at h
  cases j with
  | whitespace | comment => cases h
  | keyword | operator | paren | semicolon =>
      dsimp only at h
      split at h
      · cases h
        trivial
      · cases h
  | identifier =>
      cases h
      rw [Writable, ofText?_eq_none_iff, String.toList_ofList]
      exact ⟨hspells, hname rfl⟩
  | number =>
      dsimp only at h
      split at h
      next n hn =>
        cases h
        exact nonneg_of_readInt32? hspells.1 hspells.2 hn
      next => cases h
  | string =>
      cases h
      rcases hspells with ⟨body, htext, hbody⟩
      rw [Writable, String.toList_ofList, htext, List.drop_succ_cons, List.drop_zero,
        List.dropLast_concat]
      exact hbody

end TokenKind

namespace Token

/-- The text behind another one has lexemes that stand for these tokens, apart from those that are
    skipped. -/
def Cuts (before cs : List Char) (ks : List TokenKind) : Prop :=
  ∃ ls, Lexeme.segments rules before cs = .ok ls ∧
    (ls.filter (!·.isSkipped)).mapM TokenKind.ofLexeme = .ok ks

variable {before cs bs u : List Char} {k : TokenKind} {ks : List TokenKind}

theorem cuts_nil : Cuts before [] [] :=
  ⟨[], by rw [Lexeme.segments], rfl⟩

/-- A token does not begin with a blank. -/
theorem not_blank_of_spelled (hk : k.Writable) (hu : k.Spelled u) :
    ∀ c ∈ (u ++ cs).head?, c ∉ blanks := by
  rcases TokenKind.exists_lexeme hk hu with ⟨j, hspells, hj, -, -⟩
  rcases exists_start hspells with ⟨s, -, hs⟩
  intro c hc hblank
  cases u with
  | nil => cases hs
  | cons d t =>
      cases hc
      rw [eq_whitespace hspells hblank] at hj
      exact hj List.mem_cons_self

/-- A token in front of a text that begins with a blank. -/
theorem cuts_spelled (hk : k.Writable) (hu : k.Spelled u) (hcs : ∀ c ∈ cs.head?, c ∈ blanks)
    (h : Cuts (before ++ u) cs ks) : Cuts before (u ++ cs) (k :: ks) := by
  rcases TokenKind.exists_lexeme hk hu with ⟨j, hspells, hj, hwinner, hlexeme⟩
  have hne : u ≠ [] := by
    intro hnil
    rw [hnil] at hspells
    rcases exists_start hspells with ⟨s, -, hs⟩
    cases hs
  have hsegment : Lexeme.segment? rules (u ++ cs) = some (j.rule, u, cs) := by
    refine Lexeme.segment?_append hne hwinner fun w x hw hwx => ?_
    rcases List.exists_cons_of_ne_nil hw with ⟨c, w, rfl⟩
    have hc := hcs c (by rw [← hwx]; rfl)
    -- No longer text is a lexeme, since it would go on over the blank.
    exact winner?_eq_none (not_spells_append_blank hspells hj hc)
  rcases h with ⟨ls, hls, hks⟩
  refine ⟨_ :: ls, by rw [Lexeme.segments_of_segment? hsegment, hls, Except.map], ?_⟩
  have hskip : j.rule.isSkipped = false := by revert hj; cases j <;> decide
  rw [List.filter_cons_of_pos (by rw [hskip]; rfl), List.mapM_cons, hks, hlexeme]
  rfl

/-- A lexeme that is skipped, in front of a text with which it has no longer one. -/
theorem cuts_skipped {j : LexemeKind} (hj : j.isSkipped = true) (hspells : j.Spells u)
    (hlonger : ∀ w x, w ≠ [] → w ++ x = cs → ∀ i : LexemeKind, ¬ i.Spells (u ++ w))
    (h : Cuts (before ++ u) cs ks) : Cuts before (u ++ cs) ks := by
  have hname : j ≠ .identifier := by rintro rfl; cases hj
  have hne : u ≠ [] := by
    intro hnil
    rw [hnil] at hspells
    rcases exists_start hspells with ⟨s, -, hs⟩
    cases hs
  have hsegment : Lexeme.segment? rules (u ++ cs) = some (j.rule, u, cs) :=
    Lexeme.segment?_append hne (winner?_of_spells hspells fun h => absurd h hname)
      fun w x hw hwx => winner?_eq_none (hlonger w x hw hwx)
  rcases h with ⟨ls, hls, hks⟩
  refine ⟨_ :: ls, by rw [Lexeme.segments_of_segment? hsegment, hls, Except.map], ?_⟩
  have hskip : j.rule.isSkipped = true := hj
  rw [List.filter_cons_of_neg (by rw [hskip]; exact Bool.false_ne_true)]
  exact hks

/-- Blanks in front of a text that does not begin with one. -/
theorem cuts_blanks (hne : bs ≠ []) (hbs : ∀ c ∈ bs, c ∈ blanks)
    (hcs : ∀ c ∈ cs.head?, c ∉ blanks) (h : Cuts (before ++ bs) cs ks) :
    Cuts before (bs ++ cs) ks := by
  refine cuts_skipped (j := .whitespace) rfl ⟨hne, hbs⟩ (fun w x hw hwx => ?_) h
  rcases List.exists_cons_of_ne_nil hw with ⟨c, w, rfl⟩
  exact not_spells_blanks_append hne hbs (hcs c (by rw [← hwx]; rfl))

/-- A comment in front of the end of its line. -/
theorem cuts_comment {t : List Char} (hu : Spells .comment u)
    (h : Cuts (before ++ u) ('\n' :: t) ks) : Cuts before (u ++ '\n' :: t) ks := by
  refine cuts_skipped (j := .comment) rfl hu (fun w x hw hwx => ?_) h
  rcases List.exists_cons_of_ne_nil hw with ⟨c, w, rfl⟩
  rw [(List.cons.inj hwx).1]
  exact not_spells_append_newline hu

/-- The tokens have the kinds that their lexemes stand for. -/
theorem exists_mapM_ofLexeme {ls : List Lexeme} (h : ls.mapM TokenKind.ofLexeme = .ok ks) :
    ∃ ts, ls.mapM ofLexeme = .ok ts ∧ ts.map kind = ks := by
  induction ls generalizing ks with
  | nil => exact ⟨[], rfl, Except.ok.inj h⟩
  | cons l ls ih =>
      rw [List.mapM_cons] at h ⊢
      cases hl : TokenKind.ofLexeme l with
      | error e =>
          rw [hl] at h
          cases h
      | ok k =>
          cases hls : ls.mapM TokenKind.ofLexeme with
          | error e =>
              rw [hl, hls] at h
              cases h
          | ok ks' =>
              rw [hl, hls] at h
              cases h
              rcases ih hls with ⟨ts, hts, hkinds⟩
              refine ⟨⟨k, l.span⟩ :: ts, ?_, congrArg (k :: ·) hkinds⟩
              rw [ofLexeme, hl, hts]
              rfl

/-- The lexemes of a text, from its segments. -/
theorem lexemes_eq_segments (cs : List Char) :
    Lexeme.ofText rules cs =
      (Lexeme.segments rules [] cs).map (List.filter (!·.isSkipped)) := by
  have hcut : Lexeme.cut rules (Rule.combine rules) .origin cs = Lexeme.segments rules [] cs :=
    Lexeme.cut_eq_segments (by decide) [] cs
  rw [Lexeme.ofText_eq_map_cut, hcut]

/-- The tokens of a text that is cut into them. -/
theorem exists_ofText_of_cuts (h : Cuts [] cs ks) :
    ∃ ts, ofText cs = .ok ts ∧ ts.map kind = ks ++ [.eof] := by
  rcases h with ⟨ls, hls, hks⟩
  rcases exists_mapM_ofLexeme hks with ⟨ts, hts, hkinds⟩
  refine ⟨ts ++ [eof cs], ?_, by rw [List.map_append, hkinds]; rfl⟩
  rw [ofText, lexemes_eq_segments, hls]
  change (ls.filter (!·.isSkipped)).mapM ofLexeme >>= _ = _
  rw [hts]
  rfl

/-- A segment of a text is spelled as those of its kind are. -/
theorem spells_of_segments {ls : List Lexeme} (h : Lexeme.segments rules before cs = .ok ls) :
    ∀ l ∈ ls, ∃ j : LexemeKind, l.rule = j.name ∧ l.isSkipped = j.isSkipped ∧ j.Spells l.text ∧
      (j = .identifier → ¬ Spells .keyword l.text) := by
  intro l hl
  obtain ⟨r, hwin, hrule, hskip⟩ := Lexeme.exists_winner_of_segments h l hl
  obtain ⟨j, rfl, hspells, hname⟩ := spells_of_winner? hwin
  exact ⟨j, hrule, hskip, hspells, hname⟩

/-- Tokens are made from their lexemes. -/
theorem exists_lexeme_of_mapM {ls : List Lexeme} {ts : List Token}
    (h : ls.mapM ofLexeme = .ok ts) :
    ∀ t ∈ ts, ∃ l ∈ ls, TokenKind.ofLexeme l = .ok t.kind := by
  induction ls generalizing ts with
  | nil =>
      rw [← Except.ok.inj h]
      exact List.forall_mem_nil _
  | cons l ls ih =>
      rw [List.mapM_cons, ofLexeme] at h
      cases hl : TokenKind.ofLexeme l with
      | error e =>
          rw [hl] at h
          cases h
      | ok k =>
          cases hls : ls.mapM ofLexeme with
          | error e =>
              rw [hl, hls] at h
              cases h
          | ok us =>
              rw [hl, hls] at h
              rw [← Except.ok.inj h, List.forall_mem_cons]
              refine ⟨⟨l, List.mem_cons_self, hl⟩, fun t ht => ?_⟩
              rcases ih hls t ht with ⟨m, hm, hmt⟩
              exact ⟨m, List.mem_cons_of_mem l hm, hmt⟩

/-- The tokens of a text are writable, up to the mark at its end. -/
theorem writable_of_ofText {ts : List Token} (h : ofText cs = .ok ts) :
    ∃ us, ts = us ++ [eof cs] ∧ ∀ t ∈ us, t.kind.Writable := by
  rw [ofText, lexemes_eq_segments] at h
  cases hls : Lexeme.segments rules [] cs with
  | error e =>
      rw [hls] at h
      cases h
  | ok ls =>
      rw [hls] at h
      change (ls.filter (!·.isSkipped)).mapM ofLexeme >>= _ = _ at h
      cases hus : (ls.filter (!·.isSkipped)).mapM ofLexeme with
      | error e =>
          rw [hus] at h
          cases h
      | ok us =>
          rw [hus] at h
          refine ⟨us, (Except.ok.inj h).symm, fun t ht => ?_⟩
          rcases exists_lexeme_of_mapM hus t ht with ⟨l, hl, hlt⟩
          rcases spells_of_segments hls l (List.mem_filter.mp hl).1 with
            ⟨j, hrule, -, hspells, hname⟩
          exact TokenKind.writable_of_ofLexeme hrule hspells hname hlt

/-- Tokens separated by single blanks. -/
def spaced (ks : List TokenKind) : List Char :=
  List.intercalate [' '] (ks.map TokenKind.text)

theorem spaced_cons_cons (k k' : TokenKind) (ks : List TokenKind) :
    spaced (k :: k' :: ks) = k.text ++ ([' '] ++ spaced (k' :: ks)) := by
  simp only [spaced, List.map_cons, List.intercalate_cons_cons, List.append_assoc]

end Token

end WhileLang
