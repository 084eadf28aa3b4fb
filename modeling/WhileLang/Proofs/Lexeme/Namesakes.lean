import WhileLang.Proofs.Lexeme.Segments

/-!
# Rules of One Name

Tables in which several rules have the same name. The scanner finds the same
segments as ever, each with the name of the rule that wins it. But whether a
segment is left out is looked up by that name, and what is found there is the
first rule that has it, which may be another one than the winner.

So a match of a rule that is only there to be skipped is reported, if a rule
of the same name stands before it that is not. If rules of one name agree
about skipping, it makes no difference which of them is asked.

## Main definitions

* `Lexeme.spacedWords`: A table with two rules of one name.

## Theorems

* `Lexeme.ofText_eq_underName`: What is reported, for any table.
* `Lexeme.ofText_reports_namesake`: A match that should have been left out.
-/

namespace WhileLang

namespace Lexeme

/-- The lexemes of a text are the segments that are not left out by the first rule with the name of
    the rule that wins them, and there are none only if somewhere no rule matches anything. If rules
    of one name agree about skipping, they are the segments that the winner itself does not leave
    out. -/
theorem ofText_eq_underName (rules : List Rule) (cs : List Char) :
    ofText rules cs =
      (segments rules [] cs).map (fun ls => (ls.map (underName rules)).filter (!·.isSkipped)) ∧
    (∀ ls, segments rules [] cs = .ok ls → ∀ l ∈ ls, ∃ r s, Rule.winner? rules l.text = some r ∧
      rules.find? (·.name = r.name) = some s ∧ l.rule = r.name ∧ l.isSkipped = r.isSkipped ∧
        (underName rules l).isSkipped = s.isSkipped) ∧
    ((∀ r ∈ rules, ∀ s ∈ rules, s.name = r.name → s.isSkipped = r.isSkipped) →
      ofText rules cs = (segments rules [] cs).map (List.filter (!·.isSkipped))) := by
  refine ⟨?_, ?_, ?_⟩
  · have hcut : cut rules (Rule.combine rules) .origin cs =
        (segments rules [] cs).map (List.map (underName rules)) := cut_eq_map_segments rules [] cs
    rw [ofText_eq_map_cut, hcut]
    cases segments rules [] cs <;> rfl
  · intro ls hls l hl
    obtain ⟨r, hwin, hrule, hskip⟩ := exists_winner_of_segments hls l hl
    obtain ⟨s, hs⟩ := Rule.exists_find?_name (List.mem_of_find?_eq_some hwin)
    refine ⟨r, s, hwin, hs, hrule, hskip, ?_⟩
    rw [underName, Rule.skips, hrule, hs, Option.any_some]
  · intro hagree
    have hcut : cut rules (Rule.combine rules) .origin cs = segments rules [] cs :=
      cut_eq_segments_of_agree hagree [] cs
    rw [ofText_eq_map_cut, hcut]

/-- Words, and two rules of one name for what is between them. -/
def spacedWords : List Rule :=
  [⟨"gap", .char ' ', true⟩, ⟨"word", .plus (.char 'x'), false⟩, ⟨"gap", .char '\t', true⟩]

/-- Both rules of that name are there to be skipped, and what either of them matches is. -/
theorem ofText_eq_underName_of_gaps :
    (∀ r ∈ spacedWords, ∀ s ∈ spacedWords, s.name = r.name → s.isSkipped = r.isSkipped) ∧
    ofText spacedWords " xx\tx".toList =
      .ok [⟨"word", ['x', 'x'], ⟨⟨1, 1, 2⟩, 3⟩, false⟩,
        ⟨"word", ['x'], ⟨⟨4, 1, 5⟩, 5⟩, false⟩] := by
  have hagree : ∀ r ∈ spacedWords, ∀ s ∈ spacedWords,
      s.name = r.name → s.isSkipped = r.isSkipped := by decide
  refine ⟨hagree, ?_⟩
  rw [(ofText_eq_underName _ _).2.2 hagree]
  with_unfolding_all rfl

/-- The second rule matches blanks and is there to be skipped, but its name is that of the first. -/
theorem ofText_reports_namesake :
    (segments [⟨"x", .char 'x', false⟩, ⟨"x", .char ' ', true⟩] [] "x ".toList).map
        (List.filter (!·.isSkipped)) = .ok [⟨"x", ['x'], ⟨⟨0, 1, 1⟩, 1⟩, false⟩] ∧
      ofText [⟨"x", .char 'x', false⟩, ⟨"x", .char ' ', true⟩] "x ".toList =
        .ok [⟨"x", ['x'], ⟨⟨0, 1, 1⟩, 1⟩, false⟩, ⟨"x", [' '], ⟨⟨1, 1, 2⟩, 2⟩, false⟩] := by
  constructor
  · with_unfolding_all rfl
  · with_unfolding_all rfl

end Lexeme

end WhileLang
