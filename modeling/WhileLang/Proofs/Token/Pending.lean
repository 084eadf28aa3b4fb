import WhileLang.Proofs.Lexeme.Winner
import WhileLang.Proofs.Pattern.AtMost
import WhileLang.Proofs.Token.Spelling

/-!
# What the Scan of a Lexeme Holds

The scan of a lexeme of the language reads with all rules at once, and what
is left of them is never larger than what it began with. Each rule is such
that what is left of it is not larger than the rule itself, so they can be
looked at one by one.

Most of a rule is used up as it is read: a keyword or an operator becomes
shorter, and blanks, digits and the characters of a name leave the repetition
they belong to as it is. Only two rules need more care. Where the two slashes of
a comment end, its text begins, and what is between the quotes of a string
literal ends where a quote is read, which cannot be part of it; in a string
literal, a backslash leaves what can be escaped in front of the repetition.

All rules are live, so the scan stops as soon as no lexeme begins with
what it read.

## Theorems

* `LexemeKind.atMost_pattern`: What is left of a rule is not larger than it.
* `LexemeKind.live_pattern`: The rules are live.
* `LexemeKind.longest_append_of_dead_end`: The scan stops where no lexeme can
  be completed.
* `LexemeKind.scan_holds_at_most_rules`: What the scan holds is not larger than
  the joined rules, and it is `never` exactly where no lexeme can be completed.
-/

namespace WhileLang

namespace Pattern

/-- A scan that is left with nothing has stopped, and what is behind is not looked at. -/
theorem longest_append_of_residual {p : Pattern} {us : List Char} (h : p.residual us = never)
    (vs : List Char) :
    p.longest (us ++ vs) =
      (p.longest us).map (Option.map fun m => { m with rest := m.rest ++ vs }) := by
  induction us generalizing p with
  | nil =>
      rw [residual] at h
      rw [h]
      cases vs with
      | nil => rfl
      | cons c vs => rfl
  | cons c us ih =>
      rw [residual_cons] at h
      rw [List.cons_append, longest, longest]
      by_cases hnever : (p.step c).pattern = never
      · rw [if_pos hnever, if_pos hnever]
        rfl
      · rw [if_neg hnever, if_neg hnever, ih h]
        cases (p.step c).pattern.longest us with
        | error e => rfl
        | ok found =>
            cases found with
            | some m =>
                simp only [Except.map, Option.map, bind, Except.bind, pure, Except.pure]
                cases (p.step c).restore m.value with
                | error e => rfl
                | ok v => rfl
            | none =>
                simp only [Except.map, Option.map, bind, Except.bind, pure, Except.pure]
                split
                · cases (p.step c).pattern.emptyValue with
                  | error e => rfl
                  | ok v =>
                      dsimp only
                      cases (p.step c).restore v with
                      | error e => rfl
                      | ok w => rfl
                · rfl

end Pattern

namespace LexemeKind

open Pattern

variable {cs : List Char}

/-- What stands between the quotes of a string literal, a character or an escape at a time. -/
def stringChar : Pattern :=
  .alt (.anyBut ['"', '\\', '\n']) escape

section Live

theorem live_stringChar : stringChar.Live :=
  ⟨live_anyBut (by decide : 'a' ∉ ['"', '\\', '\n']),
    trivial, live_anyOf (List.mem_cons_self : 'n' ∈ ['n', 't', '"', '\\'])⟩

theorem isInhabited_pattern (k : LexemeKind) : k.pattern.IsInhabited := by
  have hspells : ∃ cs, k.Spells cs := by
    cases k with
    | whitespace => exact ⟨[' '], by decide, by decide⟩
    | comment => exact ⟨['/', '/'], [], rfl, List.not_mem_nil⟩
    | keyword => exact ⟨_, .ifKw, rfl⟩
    | identifier => exact ⟨['a'], by decide, by decide⟩
    | number => exact ⟨['0'], by decide, by decide⟩
    | string => exact ⟨['"', '"'], [], rfl, trivial⟩
    | operator => exact ⟨_, "+", by decide, rfl⟩
    | paren => exact ⟨['('], '(', by decide, rfl⟩
    | semicolon => exact ⟨[';'], rfl⟩
  rcases hspells with ⟨cs, hcs⟩
  exact ⟨cs, accepts_iff_matches.mp ((accepts_iff_spells k cs).mpr hcs)⟩

/-- The rules are live. -/
theorem live_pattern (k : LexemeKind) : k.pattern.Live := by
  have hletter : letter.Live := live_anyOf (by decide : 'a' ∈ _)
  have hdigit : digit.Live := live_anyOf (by decide : '0' ∈ _)
  cases k with
  | whitespace =>
      have hblank : (anyOf [' ', '\t', '\r', '\n']).Live := live_anyOf List.mem_cons_self
      exact ⟨hblank, hblank.isInhabited nofun⟩
  | comment => exact ⟨live_literal _, live_anyBut (by decide : 'a' ∉ _)⟩
  | keyword => exact live_alts (List.forall_mem_map.mpr fun w _ => live_literal _)
  | identifier => exact ⟨hletter, hletter, hdigit, trivial⟩
  | number => exact ⟨hdigit, hdigit.isInhabited nofun⟩
  | string => exact ⟨trivial, live_stringChar, trivial⟩
  | operator => exact live_alts (List.forall_mem_map.mpr fun w _ => live_literal _)
  | paren => exact live_anyOf List.mem_cons_self
  | semicolon => trivial

end Live

section Sizes

/-- A character of a string literal does not begin another one. -/
theorem eq_nil_of_matches_stringChar {us vs : List Char} (hus : stringChar.Matches us)
    (hvs : stringChar.Matches (us ++ vs)) : vs = [] := by
  rw [stringChar, matches_alt, matchesChars_anyBut _ _, matches_escape] at hus hvs
  rcases hus with ⟨c, rfl, hc⟩ | ⟨c, -, rfl⟩
  · rcases hvs with ⟨d, hd, -⟩ | ⟨d, -, hd⟩
    · exact (List.cons.inj hd).2
    -- A backslash does not stand for itself.
    · rw [(List.cons.inj hd).1] at hc
      exact absurd (by decide) hc
  · rcases hvs with ⟨d, hd, -⟩ | ⟨d, -, hd⟩
    · cases (List.cons.inj hd).2
    · exact (List.cons.inj (List.cons.inj hd).2).2

theorem atMost_stringChar : stringChar.AtMost 1 := by
  have hescape : escape.AtMost 1 :=
    (single_char '\\').atMost_seq Bool.false_ne_true (single_oneOf _).atMost
  refine (single_noneOf _).atMost.alt_of_disjoint hescape fun c => ?_
  by_cases hc : c = '\\'
  · rw [hc]
    exact Or.inl (by decide)
  · right
    have hnil : ¬ (char '\\').isNullable = true := Bool.false_ne_true
    have hdead : (char '\\').derivative c = never := if_neg (Ne.symm hc)
    rw [escape, remainder_seq_cons, if_neg hnil, hdead, remainder_nil, simplified_seq]
    exact joinSeq_never_left

/-- A quote is not part of what stands between the quotes. -/
theorem settles_quote : Settles (star stringChar) (char '"') := by
  refine settles_of_live live_stringChar trivial fun us c vs ws hus hvs hws => ?_
  rcases (matchesChars_char '"' _).mp hws with ⟨d, hd, rfl⟩
  rw [(List.cons.inj hd).1] at hvs
  have hbody := matches_body.mp hus
  have hbody' := matches_body.mp hvs
  have hquotes : us ++ '"' :: (vs ++ ['"']) = (us ++ '"' :: vs) ++ ['"'] := by
    rw [List.append_assoc, List.cons_append]
  have hlonger := (body_inj hbody hbody' hquotes).1
  simp at hlonger

theorem atMost_string : (LexemeKind.string.pattern).AtMost 10 := by
  have hstar : (star stringChar).AtMost 8 :=
    Repeats.star.atMost atMost_stringChar
      (settles_derivative live_stringChar live_stringChar fun us c vs ws hne hus hvs => by
        cases eq_nil_of_matches_stringChar hus hvs)
  have hrest : (Pattern.seq (star stringChar) (char '"')).AtMost 10 :=
    AtMost.seq_of_settles settles_quote hstar (single_char '"').atMost
  exact (single_char '"').atMost_seq Bool.false_ne_true hrest

theorem atMost_comment : LexemeKind.comment.pattern.AtMost 6 := by
  refine AtMost.seq_of_not_isNullable (by decide) (atMost_literal _)
    (single_noneOf _).atMost_star ?_
  refine settles_derivative (live_literal _) (live_anyBut (by decide : 'a' ∉ _)) ?_
  intro us c vs ws _ hus hvs
  rw [matches_literal] at hus hvs
  rw [hus] at hvs
  simp at hvs

/-- What is left of a rule is not larger than the rule. -/
theorem atMost_pattern (k : LexemeKind) : k.pattern.AtMost k.pattern.size := by
  have hliterals : ∀ l : List (List Char),
      (alts (l.map literal)).AtMost (alts (l.map literal)).size := fun l =>
    atMost_alts (List.forall_mem_map.mpr fun w _ => atMost_literal w)
  cases k with
  | whitespace => exact (single_oneOf _).atMost_star.of_derivative_eq fun c => rfl
  | comment => exact atMost_comment
  | keyword => exact hliterals (Keyword.all.map fun k => k.text.toList)
  | identifier =>
      have hname : (star (alts [letter, digit, char '_'])).AtMost 6 :=
        ((single_oneOf _).alt ((single_oneOf _).alt (single_char '_'))).atMost_star
      exact ((single_oneOf _).atMost_seq Bool.false_ne_true hname).mono (by decide)
  | number => exact (single_oneOf _).atMost_star.of_derivative_eq fun c => rfl
  | string => exact atMost_string
  | operator => exact hliterals (operators.map (·.toList))
  | paren => exact (single_oneOf _).atMost
  | semicolon => exact (single_char ';').atMost

end Sizes

section Rules

theorem forall_mem_tagged {P : Pattern → Prop}
    (h : ∀ k : LexemeKind, P (.tagged k.name k.pattern)) :
    ∀ p ∈ rules.map (fun r => Pattern.tagged r.name r.pattern), P p := by
  rw [rules, List.map_map, List.forall_mem_map]
  exact fun k _ => h k

theorem live_combine : (Rule.combine rules).Live :=
  live_alts (forall_mem_tagged fun k => ⟨live_pattern k, isInhabited_pattern k⟩)

theorem atMost_combine : (Rule.combine rules).AtMost (Rule.combine rules).size := by
  refine atMost_alts (forall_mem_tagged fun k => ?_)
  have htag : (Pattern.tagged k.name k.pattern).AtMost k.pattern.size :=
    (atMost_pattern k).of_derivative_eq fun c => rfl
  exact htag.mono (Nat.le_add_left _ 1)

theorem matches_combine {rules : List Rule} :
    (Rule.combine rules).Matches cs ↔ ∃ r ∈ rules, r.pattern.accepts cs = true := by
  rw [Rule.combine, matches_alts]
  simp only [List.mem_map, exists_exists_and_eq_and, matches_tagged, accepts_iff_matches]

/-- Where nothing is left, no lexeme begins with what was read. -/
theorem residual_eq_never_iff :
    (Rule.combine rules).residual cs = .never ↔
      ¬ ∃ r ∈ rules, ∃ ds, r.pattern.accepts (cs ++ ds) = true := by
  have hbegins : (∃ r ∈ rules, ∃ ds, r.pattern.accepts (cs ++ ds) = true) ↔
      ∃ ds, (Rule.combine rules).Matches (cs ++ ds) := by
    simp only [matches_combine]
    constructor
    · rintro ⟨r, hr, ds, hds⟩
      exact ⟨ds, r, hr, hds⟩
    · rintro ⟨ds, r, hr, hds⟩
      exact ⟨r, hr, ds, hds⟩
  rw [hbegins]
  by_cases hcs : cs = []
  -- Nothing is simplified before the first character is read.
  · have hne : Rule.combine rules ≠ .never := by decide
    rw [hcs, Pattern.residual]
    exact iff_of_false hne (not_not.mpr (live_combine.isInhabited (by decide)))
  · rw [residual_eq_remainder hcs]
    exact live_combine.remainder_eq_never_iff

/-- The scan of a lexeme stops there, and what is behind is not looked at. -/
theorem longest_append_of_dead_end
    (h : ¬ ∃ r ∈ rules, ∃ ds, r.pattern.accepts (cs ++ ds) = true) (vs : List Char) :
    (Rule.combine rules).longest (cs ++ vs) =
      ((Rule.combine rules).longest cs).map (Option.map fun m => { m with rest := m.rest ++ vs }) :=
  longest_append_of_residual (residual_eq_never_iff.mpr h) vs

/-- What the scan holds is not larger than the joined rules, and it is `never` if and only if what
    was read is not the beginning of a text that a rule matches. -/
theorem scan_holds_at_most_rules (cs : List Char) :
    ((Rule.combine rules).residual cs).size ≤ (Rule.combine rules).size ∧
      ((Rule.combine rules).residual cs = .never ↔
        ¬ ∃ r ∈ rules, ∃ ds, r.pattern.accepts (cs ++ ds) = true) := by
  have hsize := size_residual_le atMost_combine cs
  rw [Nat.max_self] at hsize
  exact ⟨hsize, residual_eq_never_iff⟩

end Rules

end LexemeKind

end WhileLang
