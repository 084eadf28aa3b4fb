import Mathlib.Data.List.Forall2
import WhileLang.Proofs.Token.Written

/-!
# What the Lexemes Stand For

Every lexeme of a text stands for one token, and for which one is said by its
spelling alone: `Denotes` goes through the kinds of tokens and says which texts
are those of a keyword, a name, a number and so on. A text denotes one token at
most, because it is of one kind of lexeme, and what is read from it depends on
this kind and on nothing else.

The only lexeme that no token can be made of is a number above the greatest
machine integer. The rules for the others let nothing through that is not found
in the tables of keywords and symbols, and nothing without two quotes where
quotes are cut off. So a text has no tokens if it cannot be cut into lexemes or
has such a number in it, and otherwise it has a token for each lexeme, and the
mark at its end.

## Main definitions

* `TokenKind.Denotes`: The texts that a token is read from.
* `Lexeme.TooLarge`: A number that is no machine integer.
* `Token.StandsFor`: A token at the place of a lexeme, and the only one that the
  lexeme denotes.

## Theorems

* `TokenKind.Denotes.unique`: A text denotes one token at most.
* `TokenKind.exists_denotes`: A lexeme that is not too large a number denotes
  the token that is read from it.
* `Token.ofText_cases`: What becomes of a text.
* `Token.ofText_classified`: The tokens of a text, and why it may have none.
-/

namespace WhileLang

open LexemeKind

namespace TokenKind

/-- The text is one that the token is read from. -/
def Denotes : TokenKind → List Char → Prop
  | .keyword k, cs => cs = k.text.toList
  | .identifier name, cs => cs = name.toList ∧ IsName cs ∧ ∀ k : Keyword, cs ≠ k.text.toList
  -- There may be zeros in front.
  | .integer n, cs =>
    cs ≠ [] ∧ (∀ c ∈ cs, c.isDigit = true) ∧ n.toInt = (Nat.ofDigitChars 10 cs 0 : Nat)
  | .string raw, cs => cs = '"' :: (raw.toList ++ ['"']) ∧ IsBody raw.toList
  | .symbol x, cs => cs = x.text.toList ∨ x = .equal ∧ cs = "==".toList
  | .eof, _ => False

variable {cs : List Char} {k k' : TokenKind}

/-- A text that denotes a token belongs to a rule, and as a lexeme of that rule it is read as the
    token. -/
theorem Denotes.exists_lexeme (h : k.Denotes cs) :
    ∃ j : LexemeKind, Rule.winner? rules cs = some j.rule ∧
      ∀ span, ofLexeme ⟨j.rule.name, cs, span, j.rule.isSkipped⟩ = .ok k := by
  -- All but numbers are spelled as they are written.
  have hspelled : k.Writable → k.Spelled cs → ∃ j : LexemeKind,
      Rule.winner? rules cs = some j.rule ∧
        ∀ span, ofLexeme ⟨j.rule.name, cs, span, j.rule.isSkipped⟩ = .ok k := by
    intro hk hu
    obtain ⟨j, -, -, hwinner, hlexeme⟩ := TokenKind.exists_lexeme hk hu
    exact ⟨j, hwinner, hlexeme⟩
  cases k with
  | keyword k =>
      obtain rfl : cs = (keyword k).text := h
      exact hspelled trivial (.text _)
  | identifier name =>
      obtain ⟨rfl, hname, hkeyword⟩ := h
      refine hspelled ⟨hname, ofText?_eq_none_iff.mpr ?_⟩ (.text (.identifier name))
      rintro ⟨k, hk⟩
      exact hkeyword k hk
  | integer n =>
      obtain ⟨hne, hdigits, hn⟩ := h
      have hspells : Spells .number cs := ⟨hne, hdigits⟩
      have hfits := n.toInt_lt
      refine ⟨.number, winner?_of_spells hspells nofun, fun span => ?_⟩
      simp only [ofLexeme, rule, ofName?_name, Decimal.readInt32?_of_digits hne hdigits]
      rw [if_pos (by omega), ← hn, Int32.ofInt_toInt]
      rfl
  | string raw =>
      obtain ⟨rfl, hbody⟩ := h
      exact hspelled hbody (.text (.string raw))
  | symbol x =>
      rcases h with rfl | ⟨rfl, rfl⟩
      · exact hspelled trivial (.text (.symbol x))
      · exact hspelled trivial .doubled
  | eof => exact absurd h id

/-- A text denotes one token at most. -/
theorem Denotes.unique (h : k.Denotes cs) (h' : k'.Denotes cs) : k = k' := by
  obtain ⟨j, hwinner, hlexeme⟩ := h.exists_lexeme
  obtain ⟨j', hwinner', hlexeme'⟩ := h'.exists_lexeme
  have hrule : j.rule = j'.rule := Option.some.inj (hwinner.symm.trans hwinner')
  have hread := hlexeme default
  rw [hrule, hlexeme' default] at hread
  exact (Except.ok.inj hread).symm

/-- Operators, brackets and semicolons are all in the table of symbols. -/
theorem exists_symbol {j : LexemeKind} (hj : j ∈ [.operator, .paren, .semicolon])
    (h : j.Spells cs) :
    ∃ x, Symbol.ofText? (String.ofList cs) = some x ∧ (symbol x).Denotes cs := by
  have hfound : (Symbol.ofText? (String.ofList cs)).isSome = true := by
    cases j with
    | operator =>
        obtain ⟨s, hs, rfl⟩ := h
        rw [String.ofList_toList]
        revert s
        decide
    | paren =>
        obtain ⟨c, hc, rfl⟩ := h
        revert c
        decide
    | semicolon =>
        obtain rfl : cs = [';'] := h
        decide
    | _ => exact absurd hj (by decide)
  obtain ⟨x, hx⟩ := Option.isSome_iff_exists.mp hfound
  refine ⟨x, hx, ?_⟩
  rcases Symbol.text_of_ofText? hx with htext | ⟨rfl, htext⟩
  · exact Or.inl (by rw [htext, String.toList_ofList])
  · exact Or.inr ⟨rfl, by rw [← htext, String.toList_ofList]⟩

end TokenKind

theorem LexemeKind.name_injective {j j' : LexemeKind} (h : j.name = j'.name) : j = j' := by
  have hfound := ofName?_name j
  rw [h, ofName?_name] at hfound
  exact (Option.some.inj hfound).symm

/-- The lexeme is a number above the greatest machine integer. -/
def Lexeme.TooLarge (l : Lexeme) : Prop :=
  l.rule = LexemeKind.number.name ∧ 2147483647 < Nat.ofDigitChars 10 l.text 0

instance : DecidablePred Lexeme.TooLarge :=
  fun _ => inferInstanceAs (Decidable (_ ∧ _))

/-- The lexeme is one that the rules of the language let through and do not skip. -/
def Lexeme.IsProper (l : Lexeme) : Prop :=
  ∃ j : LexemeKind, l.rule = j.name ∧ j.isSkipped = false ∧ j.Spells l.text ∧
    (j = .identifier → ¬ Spells .keyword l.text)

namespace TokenKind

variable {l : Lexeme}

/-- Too large a number is no token. -/
theorem ofLexeme_of_tooLarge (hl : l.IsProper) (h : l.TooLarge) :
    ofLexeme l = .error (.invalidInteger (String.ofList l.text) l.span.start.offset) := by
  obtain ⟨j, hrule, -, hspells, -⟩ := hl
  obtain rfl : j = .number := name_injective (hrule.symm.trans h.1)
  rw [ofLexeme, hrule, ofName?_name]
  dsimp only
  rw [Decimal.readInt32?_of_digits hspells.1 hspells.2, if_neg (Nat.not_le.mpr h.2)]
  rfl

/-- Any other lexeme is read as a token that it denotes. -/
theorem exists_denotes (hl : l.IsProper) (h : ¬ l.TooLarge) :
    ∃ k, ofLexeme l = .ok k ∧ k.Denotes l.text := by
  obtain ⟨j, hrule, hskip, hspells, hname⟩ := hl
  rw [ofLexeme, hrule, ofName?_name]
  cases j with
  | whitespace | comment => cases hskip
  | keyword =>
      obtain ⟨k, hk⟩ := hspells
      refine ⟨.keyword k, ?_, hk⟩
      rw [hk, String.ofList_toList, Keyword.ofText?_text]
      rfl
  | identifier =>
      refine ⟨.identifier (String.ofList l.text), rfl, String.toList_ofList.symm, hspells, ?_⟩
      intro k hk
      exact hname rfl ⟨k, hk⟩
  | number =>
      have hfits : Nat.ofDigitChars 10 l.text 0 ≤ 2147483647 :=
        Nat.not_lt.mp fun hlarge => h ⟨hrule, hlarge⟩
      refine ⟨.integer (Int32.ofInt (Nat.ofDigitChars 10 l.text 0 : Nat)), ?_, hspells.1, hspells.2,
        Int32.toInt_ofInt_of_le (by omega) (by omega)⟩
      rw [Decimal.readInt32?_of_digits hspells.1 hspells.2, if_pos hfits]
      rfl
  | string =>
      obtain ⟨body, htext, hbody⟩ := hspells
      refine ⟨.string (String.ofList body), ?_, ?_, ?_⟩
      · rw [htext, List.drop_succ_cons, List.drop_zero, List.dropLast_concat]
        rfl
      · rw [htext, String.toList_ofList]
      · rw [String.toList_ofList]
        exact hbody
  | operator | paren | semicolon =>
      obtain ⟨x, hx, hdenotes⟩ := exists_symbol (by decide) hspells
      refine ⟨.symbol x, ?_, hdenotes⟩
      rw [hx]
      rfl

end TokenKind

namespace Token

/-- The token stands where the lexeme does, and it is the only one that the lexeme denotes. -/
def StandsFor (t : Token) (l : Lexeme) : Prop :=
  t.span = l.span ∧ ∀ k, t.kind = k ↔ k.Denotes l.text

variable {cs : List Char} {l : Lexeme} {ls : List Lexeme} {t t' : Token}

/-- A lexeme that denotes a token has the token of that kind at its place standing for it. -/
theorem standsFor_of_denotes {k : TokenKind} (h : k.Denotes l.text) :
    StandsFor ⟨k, l.span⟩ l := by
  refine ⟨rfl, fun k' => ⟨?_, fun h' => h.unique h'⟩⟩
  rintro rfl
  exact h

theorem StandsFor.unique (h : t.StandsFor l) (h' : t'.StandsFor l) : t = t' := by
  have hkind : t.kind = t'.kind := (h.2 t'.kind).mpr ((h'.2 t'.kind).mp rfl)
  have hspan : t.span = t'.span := h.1.trans h'.1.symm
  cases t
  cases t'
  simp_all

theorem StandsFor.forall₂_unique {us us' : List Token} (h : List.Forall₂ StandsFor us ls)
    (h' : List.Forall₂ StandsFor us' ls) : us = us' := by
  have hunique : Relator.LeftUnique StandsFor := fun _ _ _ => StandsFor.unique
  exact hunique.forall₂ h h'

/-- The first number that is too large is why lexemes are not read. -/
theorem mapM_ofLexeme_of_tooLarge (hls : ∀ m ∈ ls, m.IsProper)
    (h : ls.find? (·.TooLarge) = some l) :
    ls.mapM ofLexeme = .error (.invalidInteger (String.ofList l.text) l.span.start.offset) := by
  induction ls with
  | nil => cases h
  | cons m ls ih =>
      rw [List.forall_mem_cons] at hls
      rw [List.mapM_cons, ofLexeme]
      rw [List.find?_cons] at h
      by_cases hm : m.TooLarge
      · rw [decide_eq_true hm] at h
        obtain rfl := Option.some.inj h
        rw [TokenKind.ofLexeme_of_tooLarge hls.1 hm]
        rfl
      · rw [decide_eq_false hm] at h
        obtain ⟨k, hk, -⟩ := TokenKind.exists_denotes hls.1 hm
        rw [hk, ih hls.2 h]
        rfl

/-- Without such a number, each lexeme is read as the token that stands for it. -/
theorem exists_mapM_standsFor (hls : ∀ l ∈ ls, l.IsProper) (h : ∀ l ∈ ls, ¬ l.TooLarge) :
    ∃ us, ls.mapM ofLexeme = .ok us ∧ List.Forall₂ StandsFor us ls := by
  induction ls with
  | nil => exact ⟨[], rfl, .nil⟩
  | cons l ls ih =>
      rw [List.forall_mem_cons] at hls h
      obtain ⟨k, hk, hdenotes⟩ := TokenKind.exists_denotes hls.1 h.1
      obtain ⟨us, hus, hstands⟩ := ih hls.2 h.2
      refine ⟨⟨k, l.span⟩ :: us, ?_, .cons (standsFor_of_denotes hdenotes) hstands⟩
      rw [List.mapM_cons, ofLexeme, hk, hus]
      rfl

/-- The lexemes of a text are those that the rules let through. -/
theorem isProper_of_lexemes (h : Lexeme.ofText rules cs = .ok ls) : ∀ l ∈ ls, l.IsProper := by
  rw [lexemes_eq_segments] at h
  cases hs : Lexeme.segments rules [] cs with
  | error e =>
      rw [hs] at h
      cases h
  | ok ms =>
      rw [hs] at h
      obtain rfl := Except.ok.inj h
      intro l hl
      obtain ⟨hmem, hreported⟩ := List.mem_filter.mp hl
      obtain ⟨j, hrule, hskip, hspells, hname⟩ := spells_of_segments hs l hmem
      refine ⟨j, hrule, ?_, hspells, hname⟩
      rw [← hskip]
      simpa using hreported

/-- A text that has no lexemes has a place where no rule matches. -/
theorem lexemes_eq_error {e : LexError} (h : Lexeme.ofText rules cs = .error e) :
    ∃ c place, e = .noMatchingRule c place := by
  rw [lexemes_eq_segments] at h
  cases hs : Lexeme.segments rules [] cs with
  | error e' =>
      rw [hs] at h
      cases h
      obtain ⟨u, c, t, -, -, he⟩ := Lexeme.segments_eq_error hs
      exact ⟨c, _, he⟩
  | ok ms =>
      rw [hs] at h
      cases h

/-- What is cut off a string literal are two quotes, each of one byte. -/
theorem exists_quotes (hl : l.IsProper) (h : l.rule = LexemeKind.string.name) :
    ∃ body, l.text = '"' :: (body ++ ['"']) ∧
      Utf8.encode l.text = 34 :: (Utf8.encode body ++ [34]) := by
  obtain ⟨j, hrule, -, hspells, -⟩ := hl
  obtain rfl : j = .string := name_injective (hrule.symm.trans h)
  obtain ⟨body, htext, -⟩ := hspells
  have hquote : Utf8.encode ['"'] = [34] := by decide
  refine ⟨body, htext, ?_⟩
  rw [htext, ← List.singleton_append, Utf8.encode_append, Utf8.encode_append, hquote]
  rfl

/-- What becomes of a text, and of the lexemes that it has. -/
theorem ofText_cases (cs : List Char) :
    (∃ c place, Lexeme.ofText rules cs = .error (.noMatchingRule c place) ∧
      ofText cs = .error (.noMatchingRule c place)) ∨
    (∃ ls l, Lexeme.ofText rules cs = .ok ls ∧ ls.find? (·.TooLarge) = some l ∧
      ofText cs = .error (.invalidInteger (String.ofList l.text) l.span.start.offset)) ∨
    ∃ ls us, Lexeme.ofText rules cs = .ok ls ∧ (∀ l ∈ ls, ¬ l.TooLarge) ∧
      List.Forall₂ StandsFor us ls ∧ ofText cs = .ok (us ++ [eof cs]) := by
  cases hls : Lexeme.ofText rules cs with
  | error e =>
      obtain ⟨c, place, rfl⟩ := lexemes_eq_error hls
      refine Or.inl ⟨c, place, rfl, ?_⟩
      rw [ofText, hls]
      rfl
  | ok ls =>
      have hproper := isProper_of_lexemes hls
      have hread : ofText cs = ls.mapM ofLexeme >>= fun us => pure (us ++ [eof cs]) := by
        rw [ofText, hls]
        rfl
      cases hfind : ls.find? (·.TooLarge) with
      | some l =>
          refine Or.inr (Or.inl ⟨ls, l, rfl, hfind, ?_⟩)
          rw [hread, mapM_ofLexeme_of_tooLarge hproper hfind]
          rfl
      | none =>
          have hno : ∀ l ∈ ls, ¬ l.TooLarge := by simpa using hfind
          obtain ⟨us, hus, hstands⟩ := exists_mapM_standsFor hproper hno
          refine Or.inr (Or.inr ⟨ls, us, rfl, hno, hstands, ?_⟩)
          rw [hread, hus]
          rfl

/-- A text has no tokens where it has no lexemes, and for the same reason; or else because of the
    first number in it that is too large. Otherwise it has the tokens that stand for its lexemes,
    and the mark behind them. Nothing else can go wrong, and there are two quotes to be cut off
    wherever they are. -/
theorem ofText_classified (cs : List Char) :
    (∀ c place, ofText cs = .error (.noMatchingRule c place) ↔
      Lexeme.ofText rules cs = .error (.noMatchingRule c place)) ∧
    (∀ literal offset, ofText cs = .error (.invalidInteger literal offset) ↔
      ∃ ls l, Lexeme.ofText rules cs = .ok ls ∧ ls.find? (·.TooLarge) = some l ∧
        literal = String.ofList l.text ∧ offset = l.span.start.offset) ∧
    (∀ ts, ofText cs = .ok ts ↔
      ∃ ls us, Lexeme.ofText rules cs = .ok ls ∧ (∀ l ∈ ls, ¬ l.TooLarge) ∧
        List.Forall₂ StandsFor us ls ∧ ts = us ++ [eof cs]) ∧
    (∀ e, ofText cs = .error e →
      (∃ c place, e = .noMatchingRule c place) ∨
        ∃ literal offset, e = .invalidInteger literal offset) ∧
    (∀ ls, Lexeme.ofText rules cs = .ok ls → ∀ l ∈ ls, l.IsProper ∧
      (l.rule = LexemeKind.string.name → ∃ body, l.text = '"' :: (body ++ ['"']) ∧
        Utf8.encode l.text = 34 :: (Utf8.encode body ++ [34]))) := by
  have hproper : ∀ ls, Lexeme.ofText rules cs = .ok ls → ∀ l ∈ ls, l.IsProper ∧
      (l.rule = LexemeKind.string.name → ∃ body, l.text = '"' :: (body ++ ['"']) ∧
        Utf8.encode l.text = 34 :: (Utf8.encode body ++ [34])) := by
    intro ls hls l hl
    have hl := isProper_of_lexemes hls l hl
    exact ⟨hl, exists_quotes hl⟩
  rcases ofText_cases cs with ⟨c, place, hls, htext⟩ | ⟨ls, l, hls, hfind, htext⟩ |
    ⟨ls, us, hls, hno, hstands, htext⟩
  · exact ⟨by simp [hls, htext], by simp [hls, htext], by simp [hls, htext], by simp [htext],
      hproper⟩
  · have hl : l.TooLarge := by simpa using List.find?_some hfind
    have hlarge : ¬ ∀ m ∈ ls, ¬ m.TooLarge :=
      fun hno => hno l (List.mem_of_find?_eq_some hfind) hl
    exact ⟨by simp [hls, htext], by simp [hls, htext, hfind, eq_comm], by simp [hls, htext, hlarge],
      by simp [htext], hproper⟩
  · have hfind : ls.find? (·.TooLarge) = none := by simpa using hno
    refine ⟨by simp [hls, htext], by simp [hls, htext, hfind], fun ts => ?_, by simp [htext],
      hproper⟩
    rw [htext, hls]
    constructor
    · intro h
      obtain rfl := Except.ok.inj h
      exact ⟨ls, us, rfl, hno, hstands, rfl⟩
    · rintro ⟨ls', us', hls', -, hstands', rfl⟩
      obtain rfl := Except.ok.inj hls'
      rw [StandsFor.forall₂_unique hstands hstands']

/-- The first number has a zero in front and is read, but the one behind it is too large by one. -/
theorem ofText_classified_of_large :
    Lexeme.ofText rules "x 09 2147483648".toList =
      .ok [⟨"identifier", ['x'], ⟨⟨0, 1, 1⟩, 1⟩, false⟩,
        ⟨"number", ['0', '9'], ⟨⟨2, 1, 3⟩, 4⟩, false⟩,
        ⟨"number", "2147483648".toList, ⟨⟨5, 1, 6⟩, 15⟩, false⟩] ∧
    ofText "x 09 2147483648".toList = .error (.invalidInteger "2147483648" 5) := by
  have hlexemes : Lexeme.ofText rules "x 09 2147483648".toList =
      .ok [⟨"identifier", ['x'], ⟨⟨0, 1, 1⟩, 1⟩, false⟩,
        ⟨"number", ['0', '9'], ⟨⟨2, 1, 3⟩, 4⟩, false⟩,
        ⟨"number", "2147483648".toList, ⟨⟨5, 1, 6⟩, 15⟩, false⟩] := by
    with_unfolding_all rfl
  have hlarge := (ofText_classified "x 09 2147483648".toList).2.1 "2147483648" 5
  exact ⟨hlexemes, hlarge.mpr ⟨_, _, hlexemes, rfl, rfl, rfl⟩⟩

end Token

end WhileLang
