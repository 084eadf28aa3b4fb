import WhileLang.Proofs.Text.Cut
import WhileLang.Proofs.Value.Rebuilt

/-!
# The Preferred Value by Recursion

The preferred value of a text, computed from the top: the pattern is followed
down, and at every choice and every cut the matcher is asked which way to go.
A sequence gives its first part the longest beginning behind which the second
part still matches; a repetition does the same for each of its rounds, the
remaining rounds taking the place of the second part.

No derivative of a pattern and no value of one occurs here, and nothing is
rebuilt. That the value built backwards is the same one,
`valueOf_eq_posix`, is shown by way of `Prefers`: both are preferred, and
only one value is.

## Main definitions

* `Pattern.cut`: A text cut between two patterns, the first taking the most.
* `Pattern.afterRound`, `Pattern.emptyRounds`: How a repetition counts.
* `Pattern.rounds`: The values of the rounds of a repetition.
* `Pattern.posix`: The preferred value of a text.

## Theorems

* `Pattern.cut_spec`: A matched text is cut greedily.
* `Pattern.rounds_prefers`: The rounds of a repetition are the preferred ones.
* `Pattern.posix_prefers`: The value by recursion is the preferred one.
* `Pattern.valueOf_eq_posix`: It is also the value built backwards.
-/

namespace WhileLang

namespace Pattern

/-- The text cut between two patterns, the first of which takes as much as it can. -/
def cut (p q : Pattern) (cs : List Char) : List Char × List Char :=
  (Text.lastCut? (fun u t => p.accepts u && q.accepts t) cs).getD ([], cs)

/-- What is left of a repetition behind one round. -/
def afterRound : Pattern → Pattern
  | .star p | .plus p => .star p
  | .times p n => .times p (n - 1)
  | .range p n m => .range p (n - 1) (m - 1)
  | p => p

/-- The rounds that a repetition goes on the empty text. -/
def emptyRounds : Pattern → Nat
  | .plus _ => 1
  | .times _ n | .range _ n _ => n
  | _ => 0

/-- The values of the rounds of a repetition `r` of `p`, whose own values are given. Every round
    takes a character, so their number is bounded by that of the characters. -/
def rounds (p : Pattern) (value : List Char → Value) : Nat → Pattern → List Char → List Value
  | _, r, [] => List.replicate r.emptyRounds (value [])
  | 0, _, _ :: _ => []
  | bound + 1, r, c :: cs =>
    let (u, t) := cut p r.afterRound (c :: cs)
    value u :: rounds p value bound r.afterRound t

/-- The value by which a pattern prefers to match a text that it matches. -/
def posix : Pattern → List Char → Value
  | .never, _ | .empty, _ => .void
  | .char c, _ => .char c
  | .oneOf _, [] | .noneOf _, [] => .void
  | .oneOf _, c :: _ | .noneOf _, c :: _ => .char c
  | .alt p q, cs => if p.accepts cs then .left (p.posix cs) else .right (q.posix cs)
  | .seq p q, cs =>
    let (u, t) := cut p q cs
    .seq (p.posix u) (q.posix t)
  | .star p, cs => .stars (rounds p p.posix cs.length (.star p) cs)
  | .plus p, cs => .stars (rounds p p.posix cs.length (.plus p) cs)
  | .opt p, cs => .stars (if cs = [] then [] else [p.posix cs])
  | .times p n, cs => .stars (rounds p p.posix cs.length (.times p n) cs)
  | .range p n m, cs => .stars (rounds p p.posix cs.length (.range p n m) cs)
  | .not _, cs => .stars (cs.map .char)
  | .tagged name p, cs => .tagged name (p.posix cs)

variable {p q r : Pattern} {c : Char} {cs u t : List Char} {v : Value}

theorem accepts_and_iff :
    (p.accepts u && q.accepts t) = true ↔ p.Matches u ∧ q.Matches t := by
  rw [Bool.and_eq_true, accepts_iff_matches, accepts_iff_matches]

theorem accepts_and_eq_false_iff :
    (p.accepts u && q.accepts t) = false ↔ (p.Matches u → ¬ q.Matches t) := by
  rw [← Bool.not_eq_true, accepts_and_iff, not_and]

/-- A matched text is cut greedily, and not in front of it if there is another way. -/
theorem cut_spec (hcs : u ++ t = cs) (hp : p.Matches u) (hq : q.Matches t) :
    (cut p q cs).1 ++ (cut p q cs).2 = cs ∧ (u ≠ [] → (cut p q cs).1 ≠ []) ∧
      p.Matches (cut p q cs).1 ∧ q.Matches (cut p q cs).2 ∧
      Greedy p q (cut p q cs).1 (cut p q cs).2 := by
  rw [cut]
  cases h : Text.lastCut? (fun u t => p.accepts u && q.accepts t) cs with
  | none =>
      have hnone := Text.lastCut?_eq_none h
      simp only [accepts_and_eq_false_iff] at hnone
      -- Only the empty beginning is left for the first part.
      by_cases hu : u = []
      · rw [hu, List.nil_append] at hcs
        rw [hu] at hp
        rw [hcs] at hq
        exact ⟨rfl, fun hne => absurd hu hne, hp, hq, hnone⟩
      · exact absurd hq (hnone u t hu hcs hp)
  | some found =>
      rcases Text.lastCut?_eq_some h with ⟨hfound, hne, hok, hlonger⟩
      simp only [accepts_and_eq_false_iff] at hlonger
      rcases accepts_and_iff.mp hok with ⟨hpu, hqt⟩
      exact ⟨hfound, fun _ => hne, hpu, hqt, hlonger⟩

/-- The repetitions of a pattern. -/
inductive Repeats (p : Pattern) : Pattern → Prop
  | star : Repeats p (star p)
  | plus : Repeats p (plus p)
  | times (n : Nat) : Repeats p (times p n)
  | range (n m : Nat) : Repeats p (range p n m)

theorem Repeats.afterRound (h : Repeats p r) : Repeats p r.afterRound := by
  cases h <;> constructor

/-- A repetition that matches a character goes a round. -/
theorem Repeats.round (h : Repeats p r) (hm : r.Matches (c :: cs)) : Round r p r.afterRound := by
  cases h with
  | star => exact .star p
  | plus => exact .plus p
  | times n =>
      cases n with
      | zero => exact absurd hm (not_matches_never cs)
      | succ n => exact .times p n
  | range n m =>
      cases m with
      | zero => exact absurd hm (not_matches_never cs)
      | succ m => exact .range p n m

/-- The rounds of a repetition that matches the empty text. -/
theorem Repeats.prefers_nil (h : Repeats p r) (hm : r.Matches [])
    (hv : p.Matches [] → p.Prefers [] v) :
    r.Prefers [] (.stars (List.replicate r.emptyRounds v)) := by
  cases h with
  | star => exact .starNil p
  | plus => exact .plusNil (hv hm)
  | times n =>
      rw [matches_nil, isNullable, Bool.or_eq_true, beq_iff_eq] at hm
      exact .timesNil fun hn => hv (hm.resolve_left hn)
  | range n m =>
      rw [matches_nil, isNullable, Bool.or_eq_true, beq_iff_eq] at hm
      exact .rangeNil fun hn => hv (hm.resolve_left hn)

/-- The rounds of a repetition are the preferred ones if those of its body are. -/
theorem rounds_prefers {value : List Char → Value}
    (hvalue : ∀ cs, p.Matches cs → p.Prefers cs (value cs)) {bound : Nat} (h : Repeats p r)
    (hm : r.Matches cs) (hbound : cs.length ≤ bound) :
    r.Prefers cs (.stars (rounds p value bound r cs)) := by
  induction bound generalizing r cs with
  | zero =>
      obtain rfl := List.length_eq_zero_iff.mp (Nat.le_zero.mp hbound)
      rw [rounds]
      exact h.prefers_nil hm (hvalue [])
  | succ bound ih =>
      cases cs with
      | nil =>
          rw [rounds]
          exact h.prefers_nil hm (hvalue [])
      | cons c cs =>
          have hr := h.round hm
          rcases hr.matches_cons.mp hm with ⟨u, t, hut, hu, ht⟩
          rcases cut_spec (u := c :: u) (congrArg (c :: ·) hut) hu ht with
            ⟨hcut, hne, hp, hq, hg⟩
          -- The round takes a character, so the bound allows for those behind it.
          have hpos := List.length_pos_iff.mpr (hne (List.cons_ne_nil c u))
          have hlen := congrArg List.length hcut
          rw [List.length_append] at hlen
          rw [rounds]
          exact .round hr hcut (hne (List.cons_ne_nil c u)) (hvalue _ hp)
            (ih h.afterRound hq (by omega)) hg

/-- The value by recursion is the preferred one. -/
theorem posix_prefers (h : p.Matches cs) : p.Prefers cs (p.posix cs) := by
  induction p generalizing cs with
  | never => exact absurd h (not_matches_never cs)
  | empty =>
      obtain rfl := matches_empty.mp h
      exact .empty
  | char d =>
      cases cs with
      | nil => exact absurd h Bool.false_ne_true
      | cons c cs =>
          rw [matches_cons, derivative, matches_ite] at h
          rcases h with ⟨rfl, rfl⟩
          exact .char d
  | oneOf s =>
      cases cs with
      | nil => exact absurd h Bool.false_ne_true
      | cons c cs =>
          rw [matches_cons, derivative, matches_ite] at h
          rcases h with ⟨hc, rfl⟩
          exact .oneOf hc
  | noneOf s =>
      cases cs with
      | nil => exact absurd h Bool.false_ne_true
      | cons c cs =>
          rw [matches_cons, derivative, ← ite_not, matches_ite] at h
          rcases h with ⟨hc, rfl⟩
          exact .noneOf hc
  | alt p q ihp ihq =>
      rw [posix]
      by_cases hp : p.accepts cs = true
      · rw [if_pos hp]
        exact .left (ihp (accepts_iff_matches.mp hp))
      · rw [if_neg hp]
        rw [accepts_iff_matches] at hp
        exact .right hp (ihq ((matches_alt.mp h).resolve_left hp))
  | seq p q ihp ihq =>
      rcases matches_seq.mp h with ⟨u, t, hut, hu, ht⟩
      rcases cut_spec hut hu ht with ⟨hcut, -, hp, hq, hg⟩
      exact .seq hcut (ihp hp) (ihq hq) hg
  | star p ih => exact rounds_prefers (fun _ => ih) .star h (Nat.le_refl _)
  | plus p ih => exact rounds_prefers (fun _ => ih) .plus h (Nat.le_refl _)
  | times p n ih => exact rounds_prefers (fun _ => ih) (.times n) h (Nat.le_refl _)
  | range p n m ih => exact rounds_prefers (fun _ => ih) (.range n m) h (Nat.le_refl _)
  | opt p ih =>
      rw [posix]
      cases cs with
      | nil => exact .optNil p
      | cons c cs => exact .optSome (List.cons_ne_nil c cs) (ih h)
  | not p ih => exact .not (matches_not.mp h)
  | tagged name p ih => exact .tagged (ih (matches_tagged.mp h))

/-- The value built backwards is the one by recursion, and it has the text that was matched. -/
theorem valueOf_eq_posix (p : Pattern) (cs : List Char) (h : p.accepts cs = true) :
    p.valueOf cs = .ok (p.posix cs) ∧ (p.posix cs).flatten = cs := by
  have hposix := posix_prefers (accepts_iff_matches.mp h)
  rcases valueOf_prefers (accepts_iff_matches.mp h) with ⟨v, hv, hpv⟩
  refine ⟨?_, hposix.flatten⟩
  rw [hv, hpv.unique hposix]

/-- The first part would take both of the leading characters, but then nothing matches the rest. -/
theorem valueOf_eq_posix_of_seq :
    (seq (times (opt (char 'a')) 2) (range (alt (char 'a') (literal ['a', 'b'])) 0 2)).accepts
        ['a', 'a', 'b'] = true ∧
      (seq (times (opt (char 'a')) 2) (range (alt (char 'a') (literal ['a', 'b'])) 0 2)).valueOf
          ['a', 'a', 'b'] =
        .ok (.seq (.stars [.stars [.char 'a'], .stars []])
          (.stars [.right (.seq (.char 'a') (.char 'b'))])) := by
  have h : (seq (times (opt (char 'a')) 2)
      (range (alt (char 'a') (literal ['a', 'b'])) 0 2)).accepts ['a', 'a', 'b'] = true := by
    decide
  exact ⟨h, (valueOf_eq_posix _ _ h).1⟩

end Pattern

end WhileLang
