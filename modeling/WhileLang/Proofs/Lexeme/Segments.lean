import Mathlib.Data.List.Nodup
import WhileLang.Proofs.Lexeme.Winner
import WhileLang.Proofs.Text.Behind

/-!
# Segments of a Text

What cutting a text into lexemes comes to, said with the rules of the table
alone: at each place the longest beginning that some rule matches is the next
segment, and the first rule that matches it is its rule. `segments` does just
this, from the beginning of the text to its end or to the first place where
no rule matches anything. Where a segment stands is read off the text in
front of it.

The scanner comes to the same by another way: it runs all rules at once,
builds a value back, reads a name off it and looks the name up. None of its
internal errors can arise on this way. But under a name stands the first rule
that has it, so if there are several, what is skipped may be another matter
(`cut_eq_map_segments`). With names that differ there is no such difference.

## Main definitions

* `Lexeme.segment?`: The first segment of a text, with its rule.
* `Lexeme.segments`: All segments of a text, skipped ones included.
* `Lexeme.Tiles`: Segments that follow one another without gap or overlap.
* `Lexeme.underName`: A segment, skipped or not as its name says.

## Theorems

* `Lexeme.cut_eq_map_segments`: The scanner finds the segments.
* `Lexeme.cut_eq_segments_of_agree`: So it does, skipped ones and all, if rules
  of one name agree about skipping.
* `Lexeme.tiles_segments`: Segments tile the text.
* `Lexeme.ofText_eq_segments`: The lexemes of a text are its segments.
-/

namespace WhileLang

namespace Lexeme

/-- The longest beginning that some rule matches, with the first rule that does and with what is
    behind it. -/
def segment? (rules : List Rule) (cs : List Char) : Option (Rule × List Char × List Char) :=
  match Text.lastCut? (fun u _ => (Rule.winner? rules u).isSome) cs with
  | some (u, t) => (Rule.winner? rules u).map fun r => (r, u, t)
  | none => none

/-- The first segment is not empty, and no rule matches a longer beginning. -/
theorem segment?_eq_some {rules : List Rule} {cs u t : List Char} {r : Rule}
    (h : segment? rules cs = some (r, u, t)) :
    u ++ t = cs ∧ u ≠ [] ∧ Rule.winner? rules u = some r ∧
      ∀ w x, w ≠ [] → w ++ x = t → Rule.winner? rules (u ++ w) = none := by
  rw [segment?] at h
  split at h
  · next u' t' hcut =>
    rcases Option.map_eq_some_iff.mp h with ⟨r', hr', heq⟩
    cases heq
    rcases Text.lastCut?_eq_some hcut with ⟨hcs, hne, -, hlonger⟩
    refine ⟨hcs, hne, hr', fun w x hw hwx => ?_⟩
    exact Option.isNone_iff_eq_none.mp (Option.isSome_eq_false_iff.mp (hlonger w x hw hwx))
  · cases h

/-- A beginning that a rule matches is the first segment if no rule matches a longer one. -/
theorem segment?_append {rules : List Rule} {u t : List Char} {r : Rule} (hu : u ≠ [])
    (hr : Rule.winner? rules u = some r)
    (hlonger : ∀ w x, w ≠ [] → w ++ x = t → Rule.winner? rules (u ++ w) = none) :
    segment? rules (u ++ t) = some (r, u, t) := by
  have hok : (Rule.winner? rules u).isSome = true := by rw [hr]; rfl
  rw [segment?]
  cases hcut : Text.lastCut? (fun u _ => (Rule.winner? rules u).isSome) (u ++ t) with
  | none =>
      rw [Text.lastCut?_eq_none hcut u t hu rfl] at hok
      cases hok
  | some found =>
      rcases found with ⟨u', t'⟩
      rcases Text.lastCut?_eq_some hcut with ⟨hcs, -, hok', hlonger'⟩
      -- Either cut could only be further back than the other one.
      rcases List.append_eq_append_iff.mp hcs with ⟨w, rfl, rfl⟩ | ⟨w, rfl, rfl⟩
      · by_cases hw : w = []
        · rw [hw, List.append_nil] at hr
          simp only [hw, List.append_nil, List.nil_append, hr, Option.map_some]
        · rw [hlonger' w t hw rfl] at hok
          cases hok
      · by_cases hw : w = []
        · simp only [hw, List.append_nil, List.nil_append, hr, Option.map_some]
        · rw [hlonger w t' hw rfl] at hok'
          cases hok'

/-- There is no first segment if no rule matches any beginning. -/
theorem segment?_eq_none {rules : List Rule} {cs : List Char} (h : segment? rules cs = none) :
    ∀ u t, u ≠ [] → u ++ t = cs → Rule.winner? rules u = none := by
  intro u t hu hut
  rw [segment?] at h
  split at h
  · next u' t' hcut =>
    have hok := (Text.lastCut?_eq_some hcut).2.2.1
    rw [Option.map_eq_none_iff.mp h] at hok
    exact absurd hok Bool.false_ne_true
  · next hcut =>
    exact Option.isNone_iff_eq_none.mp
      (Option.isSome_eq_false_iff.mp (Text.lastCut?_eq_none hcut u t hu hut))

/-- What is behind a text does not change its first segment if no rule could go on into it. -/
theorem segment?_append_right {rules : List Rule} {cs x : List Char}
    (hpast : ∀ w y, w ≠ [] → w ++ y = x → Rule.winner? rules (cs ++ w) = none) :
    segment? rules (cs ++ x) = (segment? rules cs).map fun (r, u, t) => (r, u, t ++ x) := by
  cases hcs : segment? rules cs with
  | some found =>
      rcases found with ⟨r, u, t⟩
      rcases segment?_eq_some hcs with ⟨rfl, hu, hr, hlonger⟩
      rw [List.append_assoc]
      refine segment?_append hu hr fun w y hw hwy => ?_
      -- A longer text ends in the first one or goes on behind it.
      rcases List.append_eq_append_iff.mp hwy with ⟨t', rfl, -⟩ | ⟨w', rfl, rfl⟩
      · exact hlonger w t' hw rfl
      · by_cases hw' : w' = []
        · rw [hw', List.append_nil] at hw ⊢
          exact hlonger t [] hw (List.append_nil t)
        · rw [← List.append_assoc]
          exact hpast w' y hw' rfl
  | none =>
      cases hx : segment? rules (cs ++ x) with
      | none => rfl
      | some found =>
          rcases found with ⟨r, u, t⟩
          rcases segment?_eq_some hx with ⟨hut, hu, hr, -⟩
          have hnone : Rule.winner? rules u = none := by
            rcases List.append_eq_append_iff.mp hut with ⟨u', rfl, -⟩ | ⟨w, rfl, rfl⟩
            · exact segment?_eq_none hcs u u' hu rfl
            · by_cases hw : w = []
              · rw [hw, List.append_nil] at hu ⊢
                exact segment?_eq_none hcs cs [] hu (List.append_nil cs)
              · exact hpast w t hw rfl
          cases hr.symm.trans hnone

theorem length_lt_of_segment? {rules : List Rule} {cs u t : List Char} {r : Rule}
    (h : segment? rules cs = some (r, u, t)) : t.length < cs.length := by
  rcases segment?_eq_some h with ⟨rfl, hne, -, -⟩
  have hpos := List.length_pos_iff.mpr hne
  rw [List.length_append]
  omega

/-- The segments of a text behind another one, with those of skipped rules. -/
def segments (rules : List Rule) (before : List Char) : List Char → Except LexError (List Lexeme)
  | [] => .ok []
  | c :: cs =>
    match _h : segment? rules (c :: cs) with
    | none => .error (.noMatchingRule c (.behind before))
    | some (r, u, t) => do
      let others ← segments rules (before ++ u) t
      return ⟨r.name, u, ⟨.behind before, (Utf8.encode (before ++ u)).length⟩, r.isSkipped⟩ :: others
termination_by cs => cs.length
decreasing_by exact length_lt_of_segment? _h

/-- The segments follow one another from one byte offset to another, without gap or overlap. -/
def Tiles : List Lexeme → Nat → Nat → Prop
  | [], start, stop => start = stop
  | l :: ls, start, stop =>
    l.text ≠ [] ∧ l.span.start.offset = start ∧
      l.span.stop = start + (Utf8.encode l.text).length ∧ Tiles ls l.span.stop stop

/-- The segment with what its table says about skipping under the name of its rule. -/
def underName (rules : List Rule) (l : Lexeme) : Lexeme :=
  { l with isSkipped := Rule.skips rules l.rule }

variable {rules : List Rule} {before cs u t : List Char} {r : Rule}

/-- The scan of the joined rules finds the first segment, and a value that names its rule. -/
theorem longest_combine (rules : List Rule) (cs : List Char) :
    match segment? rules cs with
    | none => (Rule.combine rules).longest cs = .ok none
    | some (r, u, t) => ∃ v w, (Rule.combine rules).longest cs = .ok (some ⟨u, v, t⟩) ∧
        v.ruleName = .ok (r.name, w) ∧ w.flatten = u := by
  have h := Pattern.longest_eq_lastCut (Rule.combine rules) cs
  simp only [Rule.accepts_combine] at h
  rw [segment?]
  cases hcut : Text.lastCut? (fun u _ => (Rule.winner? rules u).isSome) cs with
  | none =>
      rw [hcut] at h
      exact h
  | some found =>
      rw [hcut] at h
      rcases h with ⟨v, hv, hpv⟩
      rcases Rule.ruleName_combine hpv with ⟨r, w, hwin, hname, hw⟩
      dsimp only
      rw [hwin]
      exact ⟨v, w, hv, hname, hw.flatten⟩

/-- Segments begin with the first one. -/
theorem segments_of_segment? (h : segment? rules cs = some (r, u, t)) :
    segments rules before cs = (segments rules (before ++ u) t).map
      (⟨r.name, u, ⟨.behind before, (Utf8.encode (before ++ u)).length⟩, r.isSkipped⟩ :: ·) := by
  cases cs with
  | nil => cases h
  | cons c cs =>
      rw [segments]
      split
      · next hnone => cases h.symm.trans hnone
      · next r' u' t' hsome =>
        cases h.symm.trans hsome
        cases segments rules (before ++ u) t <;> rfl

/-- A match whose value names a rule of the table is a lexeme of that name. -/
theorem ofMunch_eq_ok {place : Position} {v w : Value} (hname : v.ruleName = .ok (r.name, w))
    (hw : w.flatten = u) (hr : r ∈ rules) :
    ofMunch rules place ⟨u, v, t⟩ =
      .ok ⟨r.name, u, ⟨place, (place.advance u).offset⟩, Rule.skips rules r.name⟩ := by
  obtain ⟨s, hs⟩ := Rule.exists_find?_name hr
  rw [ofMunch, hname]
  dsimp only
  rw [if_neg (not_not_intro hw), Rule.skips, hs]
  rfl

theorem cut_of_longest_eq_none {p : Pattern} {place : Position} {c : Char}
    (h : p.longest (c :: cs) = .ok none) :
    cut rules p place (c :: cs) = .error (.noMatchingRule c place) := by
  rw [cut]
  split
  · next e he => cases h.symm.trans he
  · rfl
  · next m hm => cases h.symm.trans hm

theorem cut_of_longest_eq_some {p : Pattern} {place : Position} {c : Char} {m : Munch}
    (h : p.longest (c :: cs) = .ok (some m)) :
    cut rules p place (c :: cs) = (do
      let l ← ofMunch rules place m
      return l :: (← cut rules p (place.advance m.text) m.rest)) := by
  rw [cut]
  split
  · next e he => cases h.symm.trans he
  · next hn => cases h.symm.trans hn
  · next m' hm =>
    cases h.symm.trans hm
    rfl

/-- The rule of a segment is the winner for its text. -/
theorem exists_winner_of_segments {ls : List Lexeme} (h : segments rules before cs = .ok ls) :
    ∀ l ∈ ls, ∃ r, Rule.winner? rules l.text = some r ∧ l.rule = r.name ∧
      l.isSkipped = r.isSkipped := by
  fun_induction segments rules before cs generalizing ls with
  | case1 =>
      rw [← Except.ok.inj h]
      exact List.forall_mem_nil _
  | case2 => cases h
  | case3 before c cs r u t hsome ih =>
      cases hrest : segments rules (before ++ u) t with
      | error e =>
          rw [hrest] at h
          cases h
      | ok ms =>
          rw [hrest] at h
          rw [← Except.ok.inj h, List.forall_mem_cons]
          exact ⟨⟨r, (segment?_eq_some hsome).2.2.1, rfl, rfl⟩, ih hrest⟩

/-- The scanner finds the segments, and skips what the names of their rules lead to. -/
theorem cut_eq_map_segments (rules : List Rule) (before cs : List Char) :
    cut rules (Rule.combine rules) (.behind before) cs =
      (segments rules before cs).map (List.map (underName rules)) := by
  fun_induction segments rules before cs with
  | case1 before =>
      rw [cut]
      rfl
  | case2 before c cs hnone =>
      have h := longest_combine rules (c :: cs)
      rw [hnone] at h
      exact cut_of_longest_eq_none h
  | case3 before c cs r u t hsome ih =>
      have h := longest_combine rules (c :: cs)
      rw [hsome] at h
      obtain ⟨v, w, hlongest, hname, hw⟩ := h
      have hr : r ∈ rules := List.mem_of_find?_eq_some (segment?_eq_some hsome).2.2.1
      rw [cut_of_longest_eq_some hlongest, ofMunch_eq_ok hname hw hr, Position.advance_behind]
      change (do return _ :: (← cut rules (Rule.combine rules) (.behind (before ++ u)) t)) = _
      rw [ih]
      cases segments rules (before ++ u) t <;> rfl

/-- The scanner finds the segments as they are, if rules of one name agree about skipping. -/
theorem cut_eq_segments_of_agree
    (hagree : ∀ r ∈ rules, ∀ s ∈ rules, s.name = r.name → s.isSkipped = r.isSkipped)
    (before cs : List Char) :
    cut rules (Rule.combine rules) (.behind before) cs = segments rules before cs := by
  rw [cut_eq_map_segments]
  cases hs : segments rules before cs with
  | error e => rfl
  | ok ls =>
      have hsame : ∀ l ∈ ls, underName rules l = l := by
        intro l hl
        obtain ⟨r, hwin, hname, hskip⟩ := exists_winner_of_segments hs l hl
        have hr : r ∈ rules := List.mem_of_find?_eq_some hwin
        rw [underName, hname, Rule.skips_name hr (hagree r hr), ← hskip, ← hname]
      exact congrArg Except.ok ((List.map_congr_left hsame).trans (List.map_id ls))

/-- In particular it does if the names differ. -/
theorem cut_eq_segments (hnames : (rules.map Rule.name).Nodup) (before cs : List Char) :
    cut rules (Rule.combine rules) (.behind before) cs = segments rules before cs := by
  refine cut_eq_segments_of_agree (fun r hr s hs hname => ?_) before cs
  rw [List.inj_on_of_nodup_map hnames hs hr hname]

/-- Segments tile the text. -/
theorem tiles_segments {ls : List Lexeme} (h : segments rules before cs = .ok ls) :
    ls.flatMap text = cs ∧
      Tiles ls (Utf8.encode before).length (Utf8.encode (before ++ cs)).length := by
  fun_induction segments rules before cs generalizing ls with
  | case1 before =>
      rw [← Except.ok.inj h, List.append_nil]
      exact ⟨rfl, rfl⟩
  | case2 => cases h
  | case3 before c cs r u t hsome ih =>
      rcases segment?_eq_some hsome with ⟨hcs, hne, -, -⟩
      cases hrest : segments rules (before ++ u) t with
      | error e =>
          rw [hrest] at h
          cases h
      | ok ms =>
          rw [hrest] at h
          rw [← Except.ok.inj h]
          rcases ih hrest with ⟨htext, htiles⟩
          rw [List.append_assoc, hcs] at htiles
          refine ⟨?_, hne, rfl, ?_, htiles⟩
          · rw [List.flatMap_cons, htext]
            exact hcs
          · change (Utf8.encode (before ++ u)).length = _
            rw [Utf8.encode_append, List.length_append]

/-- The segments come to an end unless somewhere no rule matches anything. -/
theorem segments_eq_error {e : LexError} (h : segments rules before cs = .error e) :
    ∃ u c t, u ++ c :: t = cs ∧ segment? rules (c :: t) = none ∧
      e = .noMatchingRule c (.behind (before ++ u)) := by
  fun_induction segments rules before cs with
  | case1 => cases h
  | case2 before c cs hnone =>
      refine ⟨[], c, cs, rfl, hnone, ?_⟩
      rw [List.append_nil]
      exact (Except.error.inj h).symm
  | case3 before c cs r u t hsome ih =>
      rcases segment?_eq_some hsome with ⟨hcs, -, -, -⟩
      cases hrest : segments rules (before ++ u) t with
      | error e' =>
          rw [hrest] at h
          cases h
          rcases ih hrest with ⟨u', d, t', ht, hnone, he⟩
          refine ⟨u ++ u', d, t', ?_, hnone, ?_⟩
          · rw [List.append_assoc, ht, hcs]
          · rw [he, List.append_assoc]
      | ok ms =>
          rw [hrest] at h
          cases h

theorem ofText_eq_map_cut (rules : List Rule) (cs : List Char) :
    ofText rules cs =
      (cut rules (Rule.combine rules) .origin cs).map (List.filter (!·.isSkipped)) := by
  rw [ofText]
  cases cut rules (Rule.combine rules) .origin cs <;> rfl

/-- The lexemes of a text are its segments, without those of skipped rules; there are none only if
    somewhere no rule matches anything; and the segments that were found tile the text. -/
theorem ofText_eq_segments (rules : List Rule) (hnames : (rules.map Rule.name).Nodup)
    (cs : List Char) :
    ofText rules cs = (segments rules [] cs).map (List.filter (!·.isSkipped)) ∧
      (∀ e, ofText rules cs = .error e → ∃ before c rest, before ++ c :: rest = cs ∧
        (∀ u t, u ≠ [] → u ++ t = c :: rest → Rule.winner? rules u = none) ∧
        e = .noMatchingRule c (.behind before)) ∧
      ∀ ls, cut rules (Rule.combine rules) .origin cs = .ok ls →
        ls.flatMap text = cs ∧ Tiles ls 0 (Utf8.encode cs).length := by
  have hcut : cut rules (Rule.combine rules) .origin cs = segments rules [] cs :=
    cut_eq_segments hnames [] cs
  rw [ofText_eq_map_cut, hcut]
  refine ⟨rfl, ?_, ?_⟩
  · intro e he
    cases hs : segments rules [] cs with
    | error e' =>
        rw [hs] at he
        cases he
        rcases segments_eq_error hs with ⟨u, c, t, hcs, hnone, he⟩
        exact ⟨u, c, t, hcs, segment?_eq_none hnone, he⟩
    | ok ls =>
        rw [hs] at he
        cases he
  · intro ls hls
    exact tiles_segments hls

/-- A keyword and a name tie on the first segment, and the name alone matches the last one. -/
theorem ofText_eq_segments_of_tie :
    ofText [⟨"if", .literal ['i', 'f'], false⟩, ⟨"name", .star (.anyOf ['f', 'i']), false⟩,
        ⟨"blank", .char ' ', true⟩] "if iff".toList =
      .ok [⟨"if", ['i', 'f'], ⟨⟨0, 1, 1⟩, 2⟩, false⟩,
        ⟨"name", ['i', 'f', 'f'], ⟨⟨3, 1, 4⟩, 6⟩, false⟩] := by
  rw [(ofText_eq_segments _ (by decide) _).1]
  with_unfolding_all rfl

end Lexeme

end WhileLang
