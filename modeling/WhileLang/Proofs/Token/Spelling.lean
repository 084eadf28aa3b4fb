import WhileLang.Proofs.Lexeme.Segments
import WhileLang.Proofs.Pattern.Chars
import WhileLang.Token.Rules

/-!
# How Lexemes Are Spelled

What the rules of the language come to, said without patterns: which texts are
blanks, comments, keywords, names, numbers, string literals, operators,
brackets and semicolons.

The first character tells the kind of a lexeme, but for two pairs: a keyword
and a name both begin with a letter, and a comment and a division both begin
with a slash. So a text is of one kind only, unless it is a keyword; it is a
name as well then, and the rules prefer the keyword.

A blank ends every lexeme in front of it that is not a comment and not a blank
itself. In a string literal there may be blanks, but behind the closing quote
nothing of it can follow. A comment goes on over blanks and ends with its
line.

## Main definitions

* `LexemeKind.IsName`, `LexemeKind.IsBody`: Names, and what is between quotes.
* `LexemeKind.Spells`: The texts of a kind.
* `Char.Start`: What the first character of a lexeme tells.

## Theorems

* `LexemeKind.accepts_iff_spells`: The rules match the texts of their kinds.
* `LexemeKind.kind_unique`: A text is of one kind, unless it is a keyword.
* `LexemeKind.winner?_of_spells`: The rule that a text belongs to.
* `LexemeKind.not_spells_append_blank`: A blank ends what is before it.
* `LexemeKind.not_spells_append_newline`: The end of its line ends a comment.
* `LexemeKind.eq_whitespace_of_newline`: Only blanks go on over line feeds.
-/

namespace WhileLang

namespace LexemeKind

open Pattern

/-- A property of all characters of a text is decided by going through the text, not through all
    characters there are. -/
scoped instance decideForall (P : Char → Prop) [DecidablePred P] (cs : List Char) :
    Decidable (∀ c ∈ cs, P c) :=
  List.decidableBAll P cs

/-- The blanks. -/
def blanks : List Char := [' ', '\t', '\r', '\n']

/-- A letter, and then letters, digits and underscores. -/
def IsName : List Char → Prop
  | [] => False
  | c :: cs => c.isAlpha = true ∧ ∀ d ∈ cs, d.isAlphanum = true ∨ d = '_'

instance : DecidablePred IsName
  | [] => inferInstanceAs (Decidable False)
  | c :: cs =>
    inferInstanceAs (Decidable (c.isAlpha = true ∧ ∀ d ∈ cs, d.isAlphanum = true ∨ d = '_'))

/-- Between the quotes of a string literal: no quote, backslash or line feed, but for backslashes
    each with one of the four characters that can be escaped. -/
def IsBody : List Char → Prop
  | [] => True
  | '\\' :: c :: cs => c ∈ ['n', 't', '"', '\\'] ∧ IsBody cs
  | c :: cs => c ∉ ['"', '\\', '\n'] ∧ IsBody cs

/-- A lexeme of the kind can be spelled so. -/
def Spells : LexemeKind → List Char → Prop
  | .whitespace, cs => cs ≠ [] ∧ ∀ c ∈ cs, c ∈ blanks
  | .comment, cs => ∃ t, cs = '/' :: '/' :: t ∧ '\n' ∉ t
  | .keyword, cs => ∃ k : Keyword, cs = k.text.toList
  | .identifier, cs => IsName cs
  | .number, cs => cs ≠ [] ∧ ∀ c ∈ cs, c.isDigit = true
  | .string, cs => ∃ body, cs = '"' :: (body ++ ['"']) ∧ IsBody body
  | .operator, cs => ∃ s ∈ operators, cs = s.toList
  | .paren, cs => ∃ c ∈ ['(', ')', '{', '}'], cs = [c]
  | .semicolon, cs => cs = [';']

section

variable {cs : List Char}

/-- What holds of the first 128 characters holds of all with a property that only those have. -/
theorem of_ascii {P Q : Char → Prop} (hP : ∀ c, P c → c.toNat < 128)
    (h : ∀ n < 128, P (Char.ofNat n) → Q (Char.ofNat n)) {c : Char} (hc : P c) : Q c := by
  have hn := h c.toNat (hP c hc)
  rw [Char.ofNat_toNat] at hn
  exact hn hc

theorem toNat_lt_of_isAlphanum {c : Char} (h : c.isAlphanum = true) : c.toNat < 128 := by
  unfold Char.isAlphanum Char.isAlpha Char.isUpper Char.isLower Char.isDigit at h
  simp only [Bool.or_eq_true, Bool.and_eq_true, decide_eq_true_eq, ge_iff_le,
    UInt32.le_iff_toNat_le] at h
  change c.val.toNat < 128
  rcases h with (⟨-, h⟩ | ⟨-, h⟩) | ⟨-, h⟩ <;> exact Nat.lt_of_le_of_lt h (by decide)

theorem toNat_lt_of_isAlpha {c : Char} (h : c.isAlpha = true) : c.toNat < 128 :=
  toNat_lt_of_isAlphanum (by rw [Char.isAlphanum, h, Bool.true_or])

theorem toNat_lt_of_isDigit {c : Char} (h : c.isDigit = true) : c.toNat < 128 :=
  toNat_lt_of_isAlphanum (by rw [Char.isAlphanum, h, Bool.or_true])

theorem matchesChars_letter : letter.MatchesChars fun c => c.isAlpha = true := by
  intro cs
  rw [letter, matchesChars_anyOf]
  have hiff : ∀ c : Char, c ∈ "abcdefghijklmnopqrstuvwxyz".toList ++
      "ABCDEFGHIJKLMNOPQRSTUVWXYZ".toList ↔ c.isAlpha = true := by
    intro c
    constructor
    · intro hc
      exact List.all_eq_true.mp (by decide) c hc
    · exact of_ascii (fun c => toNat_lt_of_isAlpha) (by decide)
  simp only [hiff]

theorem matchesChars_digit : digit.MatchesChars fun c => c.isDigit = true := by
  intro cs
  rw [digit, matchesChars_anyOf]
  have hiff : ∀ c : Char, c ∈ "0123456789".toList ↔ c.isDigit = true := by
    intro c
    constructor
    · intro hc
      exact List.all_eq_true.mp (by decide) c hc
    · exact of_ascii (fun c => toNat_lt_of_isDigit) (by decide)
  simp only [hiff]

theorem matches_identifier : LexemeKind.identifier.pattern.Matches cs ↔ IsName cs := by
  have hrest := matchesChars_alt matchesChars_letter
    (matchesChars_alt matchesChars_digit (matchesChars_char '_'))
  change (seq letter (star (alt letter (alt digit (char '_'))))).Matches cs ↔ _
  rw [matches_seq]
  simp only [matchesChars_letter _, matches_star_chars hrest]
  cases cs with
  | nil =>
      refine iff_of_false ?_ id
      rintro ⟨u, v, h, ⟨c, rfl, -⟩, -⟩
      cases h
  | cons c cs =>
      simp only [IsName, Char.isAlphanum, Bool.or_eq_true, or_assoc]
      constructor
      · rintro ⟨u, v, h, ⟨d, rfl, hd⟩, hv⟩
        rcases List.cons.inj h with ⟨rfl, rfl⟩
        exact ⟨hd, hv⟩
      · rintro ⟨hc, hcs⟩
        exact ⟨[c], cs, rfl, ⟨c, rfl, hc⟩, hcs⟩

theorem matches_escape : LexemeKind.escape.Matches cs ↔
    ∃ c ∈ ['n', 't', '"', '\\'], cs = ['\\', c] := by
  rw [escape, matches_seq]
  simp only [matchesChars_char _ _, matchesChars_anyOf _ _]
  constructor
  · rintro ⟨u, v, rfl, ⟨_, rfl, rfl⟩, c, rfl, hc⟩
    exact ⟨c, hc, rfl⟩
  · rintro ⟨c, hc, rfl⟩
    exact ⟨['\\'], [c], rfl, ⟨'\\', rfl, rfl⟩, c, rfl, hc⟩

/-- What a string literal has between its quotes. -/
theorem matches_body :
    (star (alt (anyBut ['"', '\\', '\n']) LexemeKind.escape)).Matches cs ↔ IsBody cs := by
  fun_induction IsBody cs with
  | case1 => exact iff_of_true rfl trivial
  -- Behind a backslash, one round takes both characters.
  | case2 c cs ih =>
      rw [matches_star_cons, ← ih]
      simp only [matches_alt, matchesChars_anyBut _ _, matches_escape]
      constructor
      · rintro ⟨u, v, huv, ⟨d, heq, hd⟩ | ⟨d, hd, heq⟩, hv⟩
        · rcases List.cons.inj heq with ⟨rfl, -⟩
          exact absurd (by decide) hd
        · rcases List.cons.inj heq with ⟨-, rfl⟩
          rcases List.cons.inj huv with ⟨rfl, rfl⟩
          exact ⟨hd, hv⟩
      · rintro ⟨hc, hcs⟩
        exact ⟨[c], cs, rfl, Or.inr ⟨c, hc, rfl⟩, hcs⟩
  | case3 c cs hesc ih =>
      rw [matches_star_cons, ← ih]
      simp only [matches_alt, matchesChars_anyBut _ _, matches_escape]
      constructor
      · rintro ⟨u, v, rfl, ⟨d, heq, hd⟩ | ⟨d, hd, heq⟩, hv⟩
        · rcases List.cons.inj heq with ⟨rfl, rfl⟩
          exact ⟨hd, hv⟩
        -- An escape would have been the case before.
        · rcases List.cons.inj heq with ⟨rfl, rfl⟩
          exact absurd rfl (hesc d v rfl)
      · rintro ⟨hc, hcs⟩
        exact ⟨[], cs, rfl, Or.inl ⟨c, rfl, hc⟩, hcs⟩

/-- The rule of a kind matches the texts of the kind. -/
theorem accepts_iff_spells (k : LexemeKind) (cs : List Char) :
    k.pattern.accepts cs = true ↔ k.Spells cs := by
  rw [accepts_iff_matches]
  cases k with
  | whitespace => exact matches_plus_chars (matchesChars_anyOf blanks)
  | comment =>
      rw [pattern, matches_seq]
      simp only [matches_literal, matches_star_chars (matchesChars_anyBut _)]
      constructor
      · rintro ⟨_, v, rfl, rfl, hv⟩
        exact ⟨v, rfl, fun h => hv _ h List.mem_cons_self⟩
      · rintro ⟨t, rfl, ht⟩
        refine ⟨"//".toList, t, rfl, rfl, fun c hc hn => ?_⟩
        rw [List.mem_singleton.mp hn] at hc
        exact ht hc
  | keyword =>
      rw [pattern, matches_alts_literal]
      constructor
      · rintro ⟨k, -, h⟩
        exact ⟨k, h⟩
      · rintro ⟨k, h⟩
        exact ⟨k, by cases k <;> decide, h⟩
  | identifier => exact matches_identifier
  | number => exact matches_plus_chars matchesChars_digit
  | string =>
      change (seq (char '"') (seq (star _) (char '"'))).Matches cs ↔ _
      rw [matches_seq]
      simp only [matches_seq, matches_body, matchesChars_char _ _]
      constructor
      · rintro ⟨u, _, rfl, ⟨_, rfl, rfl⟩, body, v, rfl, hbody, _, rfl, rfl⟩
        exact ⟨body, rfl, hbody⟩
      · rintro ⟨body, rfl, hbody⟩
        exact ⟨['"'], _, rfl, ⟨'"', rfl, rfl⟩, body, ['"'], rfl, hbody, '"', rfl, rfl⟩
  | operator =>
      rw [pattern, matches_alts_literal]
      rfl
  | paren =>
      refine (matchesChars_anyOf _ cs).trans (exists_congr fun c => and_comm)
  | semicolon =>
      refine (matchesChars_char ';' cs).trans ?_
      constructor
      · rintro ⟨c, rfl, rfl⟩
        rfl
      · rintro rfl
        exact ⟨';', rfl, rfl⟩

end

/-- What the first character of a lexeme tells. -/
inductive Start where
  | blank | slash | letter | digit | quote | sign | bracket | semicolon
deriving DecidableEq

/-- What a character tells as the first one of a lexeme, if there is such a lexeme. -/
def start? (c : Char) : Option Start :=
  if c ∈ blanks then some .blank
  else if c = '/' then some .slash
  else if c.isAlpha then some .letter
  else if c.isDigit then some .digit
  else if c = '"' then some .quote
  else if c ∈ [':', '=', '!', '<', '>', '+', '-', '*'] then some .sign
  else if c ∈ ['(', ')', '{', '}'] then some .bracket
  else if c = ';' then some .semicolon
  else none

/-- How a lexeme of the kind can begin. -/
def starts : LexemeKind → List Start
  | .whitespace => [.blank]
  | .comment => [.slash]
  | .keyword | .identifier => [.letter]
  | .number => [.digit]
  | .string => [.quote]
  | .operator => [.slash, .sign]
  | .paren => [.bracket]
  | .semicolon => [.semicolon]

theorem start?_of_isAlpha {c : Char} (h : c.isAlpha = true) : start? c = some .letter :=
  of_ascii (Q := fun c => start? c = some .letter) (fun _ => toNat_lt_of_isAlpha) (by decide) h

theorem start?_of_isDigit {c : Char} (h : c.isDigit = true) : start? c = some .digit :=
  of_ascii (Q := fun c => start? c = some .digit) (fun _ => toNat_lt_of_isDigit) (by decide) h

/-- A lexeme begins as those of its kind do. -/
theorem exists_start {k : LexemeKind} {cs : List Char} (h : k.Spells cs) :
    ∃ s ∈ k.starts, cs.head?.bind start? = some s := by
  cases k with
  | whitespace =>
      rcases h with ⟨hne, hall⟩
      rcases List.exists_cons_of_ne_nil hne with ⟨c, t, rfl⟩
      refine ⟨.blank, List.mem_singleton.mpr rfl, ?_⟩
      exact if_pos (hall c List.mem_cons_self)
  | comment =>
      rcases h with ⟨t, rfl, -⟩
      exact ⟨.slash, List.mem_singleton.mpr rfl, show start? '/' = some .slash by decide⟩
  | keyword =>
      rcases h with ⟨k, rfl⟩
      refine ⟨.letter, List.mem_singleton.mpr rfl, ?_⟩
      cases k <;> decide
  | identifier =>
      cases cs with
      | nil => exact absurd h id
      | cons c t => exact ⟨.letter, List.mem_singleton.mpr rfl, start?_of_isAlpha h.1⟩
  | number =>
      rcases h with ⟨hne, hall⟩
      rcases List.exists_cons_of_ne_nil hne with ⟨c, t, rfl⟩
      exact ⟨.digit, List.mem_singleton.mpr rfl, start?_of_isDigit (hall c List.mem_cons_self)⟩
  | string =>
      rcases h with ⟨body, rfl, -⟩
      exact ⟨.quote, List.mem_singleton.mpr rfl, show start? '"' = some .quote by decide⟩
  | operator =>
      rcases h with ⟨s, hs, rfl⟩
      revert s
      decide
  | paren =>
      rcases h with ⟨c, hc, rfl⟩
      revert c
      decide
  | semicolon =>
      rw [show cs = [';'] from h]
      exact ⟨.semicolon, List.mem_singleton.mpr rfl, by decide⟩

/-- A division is not the beginning of a comment. -/
theorem not_spells_operator_slashes {t : List Char} : ¬ Spells .operator ('/' :: '/' :: t) := by
  rintro ⟨s, hs, h⟩
  have hall : ∀ s ∈ operators, s.toList.take 2 ≠ ['/', '/'] := by decide
  exact hall s hs (by rw [← h]; rfl)

/-- A text is of one kind only, unless it is a keyword and so is a name as well. -/
theorem kind_unique {j k : LexemeKind} {cs : List Char} (hj : j.Spells cs) (hk : k.Spells cs) :
    j = k ∨ j = .keyword ∧ k = .identifier ∨ j = .identifier ∧ k = .keyword := by
  rcases exists_start hj with ⟨s, hsj, hs⟩
  rcases exists_start hk with ⟨s', hsk, hs'⟩
  cases hs.symm.trans hs'
  -- Of kinds that begin alike, only comments and operators are left besides the claim.
  have hstarts : ∀ j k : LexemeKind, s ∈ j.starts → s ∈ k.starts →
      (j = k ∨ j = .keyword ∧ k = .identifier ∨ j = .identifier ∧ k = .keyword) ∨
        j = .comment ∧ k = .operator ∨ j = .operator ∧ k = .comment := by
    intro j k
    cases s <;> cases j <;> cases k <;> decide
  rcases hstarts j k hsj hsk with h | ⟨rfl, rfl⟩ | ⟨rfl, rfl⟩
  · exact h
  · rcases hj with ⟨u, hu, -⟩
    rw [hu] at hk
    exact absurd hk not_spells_operator_slashes
  · rcases hk with ⟨u, hu, -⟩
    rw [hu] at hj
    exact absurd hj not_spells_operator_slashes

/-- The first element with a property is found if none in front of it has the property. -/
theorem find?_of_takeWhile {ι : Type} [DecidableEq ι] {p : ι → Bool} {l : List ι} {k : ι}
    (hk : k ∈ l) (hp : p k = true) (hbefore : ∀ j ∈ l.takeWhile (· ≠ k), p j = false) :
    l.find? p = some k := by
  induction l with
  | nil => cases hk
  | cons i l ih =>
      rw [List.find?_cons]
      by_cases hi : i = k
      · rw [hi, hp]
      · rw [List.takeWhile_cons, if_pos (decide_eq_true hi), List.forall_mem_cons] at hbefore
        rw [hbefore.1]
        exact ih ((List.mem_cons.mp hk).resolve_left (Ne.symm hi)) hbefore.2

/-- A text belongs to the rule of its kind; as a name it does only if it is no keyword. -/
theorem winner?_of_spells {k : LexemeKind} {cs : List Char} (h : k.Spells cs)
    (hname : k = .identifier → ¬ Spells .keyword cs) : Rule.winner? rules cs = some k.rule := by
  have hfind : all.find? (fun j => j.pattern.accepts cs) = some k := by
    refine find?_of_takeWhile (by cases k <;> decide) ((accepts_iff_spells k cs).mpr h) ?_
    intro j hj
    rw [← Bool.not_eq_true, accepts_iff_spells]
    intro hspells
    rcases kind_unique hspells h with rfl | ⟨rfl, hk⟩ | ⟨rfl, rfl⟩
    · exact absurd hj (by cases j <;> decide)
    · exact hname hk hspells
    -- The rule for names comes behind the one for keywords.
    · exact absurd hj (by decide)
  rw [Rule.winner?, rules, List.find?_map]
  exact congrArg (Option.map rule) hfind

/-- What belongs to a rule is of its kind, and no keyword if it is a name. -/
theorem spells_of_winner? {r : Rule} {cs : List Char} (h : Rule.winner? rules cs = some r) :
    ∃ k : LexemeKind, r = k.rule ∧ k.Spells cs ∧ (k = .identifier → ¬ Spells .keyword cs) := by
  rw [Rule.winner?, rules, List.find?_map] at h
  rcases Option.map_eq_some_iff.mp h with ⟨k, hk, rfl⟩
  have haccepts := List.find?_some hk
  have hspells := (accepts_iff_spells k cs).mp haccepts
  refine ⟨k, rfl, hspells, ?_⟩
  rintro rfl hkeyword
  have hwinner := winner?_of_spells hkeyword (fun h => absurd h (by decide))
  rw [Rule.winner?, rules, List.find?_map] at hwinner
  rcases Option.map_eq_some_iff.mp hwinner with ⟨k, hk', hrule⟩
  cases Option.some.inj (hk.symm.trans hk')
  exact absurd (congrArg Rule.name hrule) (by decide)

/-- A text belongs to no rule if it is of no kind. -/
theorem winner?_eq_none {cs : List Char} (h : ∀ k : LexemeKind, ¬ k.Spells cs) :
    Rule.winner? rules cs = none := by
  cases hwinner : Rule.winner? rules cs with
  | none => rfl
  | some r =>
      rcases spells_of_winner? hwinner with ⟨k, -, hspells, -⟩
      exact absurd hspells (h k)

/-- What begins with a blank consists of blanks. -/
theorem eq_whitespace {j : LexemeKind} {c : Char} {cs : List Char} (h : j.Spells (c :: cs))
    (hc : c ∈ blanks) : j = .whitespace := by
  rcases exists_start h with ⟨s, hs, hstart⟩
  have hblank : start? c = some .blank := if_pos hc
  cases hstart.symm.trans hblank
  revert hs
  cases j <;> decide

/-- Something else ends the blanks in front of it. -/
theorem not_spells_blanks_append {bs t : List Char} {c : Char} (hne : bs ≠ [])
    (hbs : ∀ b ∈ bs, b ∈ blanks) (hc : c ∉ blanks) (j : LexemeKind) :
    ¬ j.Spells (bs ++ c :: t) := by
  intro hj
  rcases List.exists_cons_of_ne_nil hne with ⟨b, bs, rfl⟩
  cases eq_whitespace hj (hbs b List.mem_cons_self)
  exact hc (hj.2 c (List.mem_append_right _ List.mem_cons_self))

/-- Only blanks, comments and string literals have blanks in them. -/
theorem not_mem_blanks {k : LexemeKind} {cs : List Char} (h : k.Spells cs)
    (hk : k ∉ [.whitespace, .comment, .string]) {c : Char} (hc : c ∈ cs) : c ∉ blanks := by
  have hword : ∀ {c : Char}, c.isAlphanum = true → c ∉ blanks :=
    of_ascii (Q := fun c => c ∉ blanks) (fun _ => toNat_lt_of_isAlphanum) (by decide)
  cases k with
  | whitespace | comment | string => exact absurd (by decide) hk
  | keyword =>
      rcases h with ⟨k, rfl⟩
      revert c
      cases k <;> decide
  | identifier =>
      cases cs with
      | nil => cases hc
      | cons d cs =>
          rcases List.mem_cons.mp hc with rfl | hc
          · exact hword (by rw [Char.isAlphanum, h.1, Bool.true_or])
          · rcases h.2 c hc with hc | rfl
            · exact hword hc
            · decide
  | number => exact hword (by rw [Char.isAlphanum, h.2 c hc, Bool.or_true])
  | operator =>
      rcases h with ⟨s, hs, rfl⟩
      have hall : ∀ s ∈ operators, ∀ c ∈ s.toList, c ∉ blanks := by decide
      exact hall s hs c hc
  | paren =>
      rcases h with ⟨d, hd, rfl⟩
      have hall : ∀ d ∈ ['(', ')', '{', '}'], d ∉ blanks := by decide
      rw [List.mem_singleton.mp hc]
      exact hall d hd
  | semicolon =>
      rw [show cs = [';'] from h] at hc
      rw [List.mem_singleton.mp hc]
      decide

theorem isBody_cons {c : Char} {cs : List Char} (hc : c ≠ '\\') :
    IsBody (c :: cs) ↔ c ∉ ['"', '\\', '\n'] ∧ IsBody cs := by
  rw [IsBody]
  intro d t h
  exact absurd h hc

/-- There is no line feed between quotes. -/
theorem not_break_body {cs : List Char} (h : IsBody cs) : '\n' ∉ cs := by
  fun_induction IsBody cs with
  | case1 => exact List.not_mem_nil
  | case2 c cs ih =>
      have hc : c ≠ '\n' := by
        rintro rfl
        exact absurd h.1 (by decide)
      simp [hc.symm, ih h.2]
  | case3 c cs _ ih =>
      have hc : c ≠ '\n' := by
        rintro rfl
        exact h.1 (by decide)
      simp [hc.symm, ih h.2]

/-- Only blanks have line feeds in them. -/
theorem eq_whitespace_of_newline {k : LexemeKind} {cs : List Char} (h : k.Spells cs)
    (hcs : '\n' ∈ cs) : k = .whitespace := by
  cases k with
  | whitespace => rfl
  | comment =>
      rcases h with ⟨t, rfl, ht⟩
      simp [ht] at hcs
  | string =>
      rcases h with ⟨body, rfl, hbody⟩
      simp [not_break_body hbody] at hcs
  | _ => exact absurd (by decide) (not_mem_blanks h (by decide) hcs)

/-- The first quote behind what is between quotes is the closing one. -/
theorem body_inj {b b' t t' : List Char} (hb : IsBody b) (hb' : IsBody b')
    (h : b ++ '"' :: t = b' ++ '"' :: t') : b = b' ∧ t = t' := by
  fun_induction IsBody b generalizing b' with
  | case1 =>
      cases b' with
      | nil => exact ⟨rfl, (List.cons.inj h).2⟩
      | cons d b' =>
          rw [← (List.cons.inj h).1, isBody_cons (by decide)] at hb'
          exact absurd (by decide) hb'.1
  | case2 c cs ih =>
      rcases b' with _ | ⟨d, _ | ⟨e, b'⟩⟩
      · cases (List.cons.inj h).1
      · rw [← (List.cons.inj h).1] at hb'
        exact absurd (by decide) (show '\\' ∉ ['"', '\\', '\n'] from hb'.1)
      · rw [← (List.cons.inj h).1] at hb' ⊢
        rcases List.cons.inj (List.cons.inj h).2 with ⟨rfl, hrest⟩
        rcases ih hb.2 hb'.2 hrest with ⟨rfl, ht⟩
        exact ⟨rfl, ht⟩
  | case3 c cs hesc ih =>
      cases b' with
      | nil =>
          rw [(List.cons.inj h).1] at hb
          exact absurd (by decide) hb.1
      | cons d b' =>
          rcases List.cons.inj h with ⟨rfl, hrest⟩
          have hc : c ≠ '\\' := fun heq => hb.1 (by rw [heq]; decide)
          rcases ih hb.2 ((isBody_cons hc).mp hb').2 hrest with ⟨rfl, ht⟩
          exact ⟨rfl, ht⟩

/-- A blank ends every lexeme in front of it that is not a comment and not a blank itself. -/
theorem not_spells_append_blank {k : LexemeKind} {cs t : List Char} {c : Char} (h : k.Spells cs)
    (hk : k ∉ [.whitespace, .comment]) (hc : c ∈ blanks) (j : LexemeKind) :
    ¬ j.Spells (cs ++ c :: t) := by
  intro hj
  rcases exists_start h with ⟨s, hs, hstart⟩
  rcases exists_start hj with ⟨s', hs', hstart'⟩
  cases cs with
  | nil => cases hstart
  | cons d cs =>
      cases hstart.symm.trans hstart'
      cases j with
      | whitespace =>
          rw [List.mem_singleton.mp hs'] at hs
          exact absurd hs (by revert hk; cases k <;> decide)
      | comment =>
          rw [List.mem_singleton.mp hs'] at hs
          have hoperator : k = .operator := by revert hs hk; cases k <;> decide
          rw [hoperator] at h
          rcases hj with ⟨u, hu, -⟩
          -- The slash would have to be the whole operator, and then a blank would be a slash.
          cases cs with
          | nil =>
              rw [(List.cons.inj (List.cons.inj hu).2).1] at hc
              exact absurd hc (by decide)
          | cons e cs =>
              rw [(List.cons.inj hu).1, (List.cons.inj (List.cons.inj hu).2).1] at h
              exact not_spells_operator_slashes h
      | string =>
          rw [List.mem_singleton.mp hs'] at hs
          have hstring : k = .string := by revert hs; cases k <;> decide
          rw [hstring] at h
          rcases h with ⟨b, hb, hbody⟩
          rcases hj with ⟨b', hb', hbody'⟩
          -- The closing quote is where it was, with the blank behind it.
          rw [hb, List.cons_append, List.append_assoc] at hb'
          cases (body_inj hbody hbody' (List.cons.inj hb').2).2
      | _ =>
          exact absurd hc
            (not_mem_blanks hj (by decide) (List.mem_append_right _ List.mem_cons_self))

/-- The end of its line ends a comment. -/
theorem not_spells_append_newline {cs t : List Char} (h : Spells .comment cs) (j : LexemeKind) :
    ¬ j.Spells (cs ++ '\n' :: t) := by
  rcases h with ⟨u, rfl, -⟩
  intro hj
  rcases exists_start hj with ⟨s, hs, hstart⟩
  have hslash : start? '/' = some .slash := by decide
  cases hslash.symm.trans hstart
  have hkind : j = .comment ∨ j = .operator := by
    revert hs
    cases j <;> decide
  rcases hkind with rfl | rfl
  · rcases hj with ⟨u', hu', hline⟩
    have htext : u ++ '\n' :: t = u' := (List.cons.inj (List.cons.inj hu').2).2
    rw [← htext] at hline
    exact hline (List.mem_append_right u List.mem_cons_self)
  · exact not_spells_operator_slashes hj

end LexemeKind

end WhileLang
