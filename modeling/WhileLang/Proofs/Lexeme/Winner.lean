import WhileLang.Lexeme.OfText
import WhileLang.Proofs.Text.Cut
import WhileLang.Proofs.Value.Rebuilt

/-!
# The Winning Rule

What a scan of the joined rules finds, said of the rules one by one. The scan
goes on as long as anything could still match and remembers the last place
where something did, so it finds the last cut behind which the pattern
accepts the beginning; and the value it builds back from there is the
preferred one of that beginning.

The rules are joined by choices that lean to the right, so the preferred
value passes by every rule that does not match and goes into the first one
that does. Its name is the first name on that way.

From the name the scanner goes back to the table, to the first rule that has
it. Nothing here asks the names to differ. If some do not, this rule need not
be the winner, and what it says about skipping counts.

## Main definitions

* `Rule.winner?`: The first rule of a table that matches a text.
* `Rule.skips`: What a table says about skipping under a name.

## Theorems

* `Pattern.longest_eq_lastCut`: The scan finds the last cut.
* `Rule.accepts_combine`: The joined rules match what some rule matches.
* `Rule.ruleName_combine`: The value of the joined rules names the winner.
* `Rule.skips_name`: Rules of one name that agree speak for one another.
-/

namespace WhileLang

/-- The first rule of the table that matches the whole text. -/
def Rule.winner? (rules : List Rule) (cs : List Char) : Option Rule :=
  rules.find? (·.pattern.accepts cs)

/-- Whether the first rule of the name is one whose matches are left out. -/
def Rule.skips (rules : List Rule) (name : String) : Bool :=
  (rules.find? (·.name = name)).any (·.isSkipped)

namespace Pattern

theorem accepts_cons (p : Pattern) (c : Char) (cs : List Char) :
    p.accepts (c :: cs) = (p.step c).pattern.accepts cs := by
  rw [accepts, residual_cons, accepts]

theorem accepts_never (cs : List Char) : never.accepts cs = false := by
  rw [accepts, residual_never, isNullable]

theorem lastCut?_accepts_never (cs : List Char) :
    Text.lastCut? (fun u _ => never.accepts u) cs = none := by
  cases h : Text.lastCut? (fun u _ => never.accepts u) cs with
  | none => rfl
  | some found =>
      have hok := (Text.lastCut?_eq_some h).2.2.1
      rw [accepts_never] at hok
      exact absurd hok Bool.false_ne_true

/-- The scan finds the last cut behind which the beginning is matched, with its preferred value. -/
theorem longest_eq_lastCut (p : Pattern) (cs : List Char) :
    match Text.lastCut? (fun u _ => p.accepts u) cs with
    | none => p.longest cs = .ok none
    | some (u, t) => ∃ v, p.longest cs = .ok (some ⟨u, v, t⟩) ∧ p.Prefers u v := by
  induction cs generalizing p with
  | nil => rfl
  | cons c cs ih =>
      have hih := ih (p.step c).pattern
      rw [Text.lastCut?, longest]
      simp only [accepts_cons]
      by_cases hnever : (p.step c).pattern = never
      · -- At a dead end the scan stops, and there is nothing that it would still have found.
        rw [if_pos hnever, hnever, lastCut?_accepts_never, accepts_never]
        rfl
      · rw [if_neg hnever]
        cases hcut : Text.lastCut? (fun u _ => (p.step c).pattern.accepts u) cs with
        | none =>
            rw [hcut] at hih
            rw [hih]
            by_cases hnil : (p.step c).pattern.isNullable = true
            · rcases emptyValue_prefers hnil with ⟨v, hv, hpv⟩
              rcases step_prefers hpv with ⟨w, hw, hpw⟩
              rw [if_pos (show (p.step c).pattern.accepts [] = true from hnil)]
              refine ⟨w, ?_, hpw⟩
              change (if _ then _ else _) = _
              rw [if_pos hnil, hv]
              change (p.step c).restore v >>= _ = _
              rw [hw]
              rfl
            · rw [if_neg (show ¬ (p.step c).pattern.accepts [] = true from hnil)]
              change (if _ then _ else _) = _
              rw [if_neg hnil]
              rfl
        | some found =>
            rw [hcut] at hih
            rcases hih with ⟨v, hv, hpv⟩
            rcases step_prefers hpv with ⟨w, hw, hpw⟩
            refine ⟨w, ?_, hpw⟩
            rw [hv]
            change (p.step c).restore v >>= _ = _
            rw [hw]
            rfl

end Pattern

namespace Rule

variable {rules : List Rule} {cs : List Char} {v : Value}

/-- A table with rules in it is a choice between the first one and the others. -/
theorem matches_combine_cons (r : Rule) (rules : List Rule) (cs : List Char) :
    (combine (r :: rules)).Matches cs ↔ r.pattern.Matches cs ∨ (combine rules).Matches cs := by
  cases rules with
  | nil =>
      change (Pattern.tagged r.name r.pattern).Matches cs ↔ _ ∨ Pattern.never.Matches cs
      rw [Pattern.matches_tagged, or_iff_left (Pattern.not_matches_never cs)]
  | cons s rules =>
      change (Pattern.alt (.tagged r.name r.pattern) (combine (s :: rules))).Matches cs ↔ _
      rw [Pattern.matches_alt, Pattern.matches_tagged]

/-- The joined rules match what has a winner. -/
theorem accepts_combine (rules : List Rule) (cs : List Char) :
    (combine rules).accepts cs = (winner? rules cs).isSome := by
  rw [Bool.eq_iff_iff, Pattern.accepts_iff_matches]
  induction rules with
  | nil => exact iff_of_false (Pattern.not_matches_never cs) Bool.false_ne_true
  | cons r rules ih =>
      rw [matches_combine_cons, ih, winner?, winner?, List.find?_cons]
      by_cases hr : r.pattern.accepts cs = true
      · rw [hr]
        exact iff_of_true (Or.inl (Pattern.accepts_iff_matches.mp hr)) rfl
      · rw [Bool.not_eq_true] at hr
        rw [hr, ← Pattern.accepts_iff_matches, hr, or_iff_right Bool.false_ne_true]

/-- The value of the joined rules leads to the name of the winner, and to its own value. -/
theorem ruleName_combine (h : (combine rules).Prefers cs v) :
    ∃ r w, winner? rules cs = some r ∧ v.ruleName = .ok (r.name, w) ∧ r.pattern.Prefers cs w := by
  induction rules generalizing v with
  | nil => exact absurd h.matches (Pattern.not_matches_never cs)
  | cons r rules ih =>
      -- Below its name stands the value of the first rule, which wins if it matches.
      have hfirst : ∀ {v}, (Pattern.tagged r.name r.pattern).Prefers cs v →
          ∃ s w, winner? (r :: rules) cs = some s ∧ v.ruleName = .ok (s.name, w) ∧
            s.pattern.Prefers cs w := by
        intro v hv
        cases hv with
        | @tagged _ _ _ w hw =>
            refine ⟨r, w, ?_, rfl, hw⟩
            rw [winner?, List.find?_cons, Pattern.accepts_iff_matches.mpr hw.matches]
        | round hr => cases hr
      cases rules with
      | nil => exact hfirst h
      | cons s rules =>
          change (Pattern.alt (.tagged r.name r.pattern) (combine (s :: rules))).Prefers cs v at h
          cases h with
          | left hv =>
              rcases hfirst hv with ⟨r', w, hwin, hname, hw⟩
              exact ⟨r', w, hwin, hname, hw⟩
          | right hr hv =>
              rcases ih hv with ⟨r', w, hwin, hname, hw⟩
              rw [Pattern.matches_tagged, ← Pattern.accepts_iff_matches, Bool.not_eq_true] at hr
              refine ⟨r', w, ?_, hname, hw⟩
              rw [winner?, List.find?_cons, hr]
              exact hwin
          | round hr => cases hr

/-- The name of a rule is found in its table. -/
theorem exists_find?_name {r : Rule} (hr : r ∈ rules) :
    ∃ s, rules.find? (·.name = r.name) = some s := by
  rw [← Option.isSome_iff_exists, List.find?_isSome]
  exact ⟨r, hr, decide_eq_true rfl⟩

/-- Under the name of a rule stands what the rule says itself, if the rules of that name agree. -/
theorem skips_name {r : Rule} (hr : r ∈ rules)
    (hagree : ∀ s ∈ rules, s.name = r.name → s.isSkipped = r.isSkipped) :
    skips rules r.name = r.isSkipped := by
  obtain ⟨s, hs⟩ := exists_find?_name hr
  have hname : s.name = r.name := by simpa using List.find?_some hs
  rw [skips, hs, Option.any_some]
  exact hagree s (List.mem_of_find?_eq_some hs) hname

end Rule

end WhileLang
