import WhileLang.Proofs.Pattern.Remainder

/-!
# Similar Patterns

Patterns that simplification would not tell apart if it took the alternatives
of a choice as a set. It removes an alternative that matches nothing and the
second of two equal sides, but only where the two stand side by side; the
same alternative further away in a nested choice is kept. Two patterns are
similar if they become equal once alternatives may be regrouped and reordered
as well.

Similar patterns match the same texts, and their derivatives are similar. A
derivative is also similar to what simplification leaves of it, so the
patterns that a scan passes through are, up to similarity, the derivatives
of the pattern it started from.

The choices from a list of patterns depend only on which patterns are in the
list.

## Main definitions

* `Pattern.Similar`: Equal up to what simplification removes and to the
  grouping and order of alternatives.

## Theorems

* `Pattern.Similar.derivative`: Derivatives of similar patterns are similar.
* `Pattern.Similar.matches_iff`: Similar patterns match the same texts.
* `Pattern.similar_simplified`: A simplified pattern is similar to the pattern.
* `Pattern.similar_residual`: What a scan is left with is similar to the plain
  derivative.
* `Pattern.similar_alts_of_mem_iff`: Choices from the same patterns are similar.
-/

namespace WhileLang

namespace Pattern

/-- Equal up to what simplification removes and to the grouping and order of alternatives. What is
    repeated is the same in both patterns. -/
inductive Similar : Pattern → Pattern → Prop
  | refl (p : Pattern) : Similar p p
  | symm {p q : Pattern} (h : Similar p q) : Similar q p
  | trans {p q r : Pattern} (h : Similar p q) (h' : Similar q r) : Similar p r
  | alt {p p' q q' : Pattern} (hp : Similar p p') (hq : Similar q q') :
      Similar (alt p q) (alt p' q')
  | seq {p p' q q' : Pattern} (hp : Similar p p') (hq : Similar q q') :
      Similar (seq p q) (seq p' q')
  | not {p p' : Pattern} (hp : Similar p p') : Similar (not p) (not p')
  | tagged {p p' : Pattern} (name : String) (hp : Similar p p') :
      Similar (tagged name p) (tagged name p')
  | neverAlt (p : Pattern) : Similar (alt never p) p
  | altSelf (p : Pattern) : Similar (alt p p) p
  | neverSeq (p : Pattern) : Similar (seq never p) never
  | seqNever (p : Pattern) : Similar (seq p never) never
  | emptySeq (p : Pattern) : Similar (seq empty p) p
  | seqEmpty (p : Pattern) : Similar (seq p empty) p
  | altAssoc (p q r : Pattern) : Similar (alt (alt p q) r) (alt p (alt q r))
  | altComm (p q : Pattern) : Similar (alt p q) (alt q p)

instance : Trans Similar Similar Similar := ⟨Similar.trans⟩

variable {p q r : Pattern} {c : Char} {cs : List Char} {ps qs : List Pattern}

theorem Similar.altNever (p : Pattern) : Similar (Pattern.alt p never) p :=
  (Similar.altComm p never).trans (.neverAlt p)

section Derivative

theorem Similar.isNullable_eq (h : Similar p q) : p.isNullable = q.isNullable := by
  induction h with
  | refl => rfl
  | symm _ ih => exact ih.symm
  | trans _ _ ih ih' => exact ih.trans ih'
  | alt _ _ ihp ihq | seq _ _ ihp ihq => rw [isNullable, isNullable, ihp, ihq]
  | not _ ih | tagged _ _ ih => rw [isNullable, isNullable, ih]
  | neverAlt | altSelf | neverSeq | seqNever | emptySeq | seqEmpty | altAssoc | altComm =>
      simp [isNullable, Bool.or_assoc, Bool.or_comm]

/-- The derivative of a sequence depends on the derivatives of its parts and on whether the first
    part may be empty. -/
theorem Similar.seq_derivative {p' q' : Pattern} (hnil : p.isNullable = p'.isNullable)
    (hp : Similar (p.derivative c) (p'.derivative c)) (hq : Similar q q')
    (hq' : Similar (q.derivative c) (q'.derivative c)) :
    Similar ((Pattern.seq p q).derivative c) ((Pattern.seq p' q').derivative c) := by
  rw [derivative_seq, derivative_seq, hnil]
  by_cases hp' : p'.isNullable = true
  · rw [if_pos hp', if_pos hp']
    exact .alt (.seq hp hq) hq'
  · rw [if_neg hp', if_neg hp']
    exact .seq hp hq

/-- Derivatives of similar patterns are similar. -/
theorem Similar.derivative (h : Similar p q) (c : Char) :
    Similar (p.derivative c) (q.derivative c) := by
  induction h with
  | refl => exact .refl _
  | symm _ ih => exact ih.symm
  | trans _ _ ih ih' => exact ih.trans ih'
  | alt _ _ ihp ihq => exact .alt ihp ihq
  | seq hp hq ihp ihq => exact seq_derivative hp.isNullable_eq ihp hq ihq
  | not _ ih => exact .not ih
  | tagged _ _ ih => exact ih
  | neverAlt => exact .neverAlt _
  | altSelf => exact .altSelf _
  | neverSeq => exact .neverSeq _
  | seqNever p =>
      rw [derivative_seq]
      split
      · exact (Similar.altNever _).trans (.seqNever _)
      · exact .seqNever _
  | emptySeq => exact (Similar.alt (.neverSeq _) (.refl _)).trans (.neverAlt _)
  | seqEmpty p =>
      rw [derivative_seq]
      split
      · exact (Similar.altNever _).trans (.seqEmpty _)
      · exact .seqEmpty _
  | altAssoc => exact .altAssoc _ _ _
  | altComm => exact .altComm _ _

theorem Similar.derivatives (h : Similar p q) (cs : List Char) :
    Similar (p.derivatives cs) (q.derivatives cs) := by
  induction cs generalizing p q with
  | nil => exact h
  | cons c cs ih => exact ih (h.derivative c)

/-- Similar patterns match the same texts. -/
theorem Similar.matches_iff (h : Similar p q) : p.Matches cs ↔ q.Matches cs := by
  rw [Matches, Matches, (h.derivatives cs).isNullable_eq]

end Derivative

section Simplification

theorem similar_joinAlt (p q : Pattern) : Similar (joinAlt p q) (alt p q) := by
  rcases joinAlt_cases p q with ⟨rfl, h⟩ | ⟨hdrop, h⟩ | ⟨-, h⟩
  · rw [h]
    exact (Similar.neverAlt q).symm
  · rw [h]
    rcases hdrop with rfl | rfl
    · exact (Similar.altNever p).symm
    · exact (Similar.altSelf p).symm
  · rw [h]
    exact .refl _

theorem similar_joinSeq (p q : Pattern) : Similar (joinSeq p q) (seq p q) := by
  rcases joinSeq_cases p q with ⟨hnever, h⟩ | ⟨rfl, h⟩ | ⟨rfl, h⟩ | ⟨-, h⟩
  · rw [h]
    rcases hnever with rfl | rfl
    · exact (Similar.neverSeq q).symm
    · exact (Similar.seqNever p).symm
  · rw [h]
    exact (Similar.emptySeq q).symm
  · rw [h]
    exact (Similar.seqEmpty p).symm
  · rw [h]
    exact .refl _

/-- A simplified pattern is similar to the pattern. -/
theorem similar_simplified (p : Pattern) : Similar p.simplified p := by
  induction p with
  | alt p q ihp ihq =>
      rw [simplified_alt]
      exact (similar_joinAlt _ _).trans (.alt ihp ihq)
  | seq p q ihp ihq =>
      rw [simplified_seq]
      exact (similar_joinSeq _ _).trans (.seq ihp ihq)
  | not p ih => exact .not ih
  | tagged name p ih => exact .tagged name ih
  | _ => exact .refl _

/-- What a scan is left with is similar to the plain derivative. -/
theorem similar_residual (p : Pattern) (cs : List Char) :
    Similar (p.residual cs) (p.derivatives cs) := by
  by_cases hcs : cs = []
  · rw [hcs]
    exact .refl p
  · rw [residual_eq_remainder hcs]
    exact similar_simplified _

end Simplification

section Choices

theorem derivative_alts (ps : List Pattern) (c : Char) :
    (alts ps).derivative c = alts (ps.map (·.derivative c)) := by
  induction ps with
  | nil => rfl
  | cons p ps ih =>
      cases ps with
      | nil => rfl
      | cons q ps => exact congrArg (Pattern.alt (p.derivative c)) ih

theorem similar_alts_cons (p : Pattern) (ps : List Pattern) :
    Similar (alts (p :: ps)) (alt p (alts ps)) := by
  cases ps with
  | nil => exact (Similar.altNever p).symm
  | cons q ps => exact .refl _

theorem similar_alts_append (ps qs : List Pattern) :
    Similar (alts (ps ++ qs)) (alt (alts ps) (alts qs)) := by
  induction ps with
  | nil => exact (Similar.neverAlt _).symm
  | cons p ps ih =>
      calc Similar (alts (p :: (ps ++ qs))) (alt p (alts (ps ++ qs))) := similar_alts_cons p _
        Similar _ (alt p (alt (alts ps) (alts qs))) := .alt (.refl p) ih
        Similar _ (alt (alt p (alts ps)) (alts qs)) := (Similar.altAssoc _ _ _).symm
        Similar _ (alt (alts (p :: ps)) (alts qs)) := .alt (similar_alts_cons p ps).symm (.refl _)

/-- A pattern adds nothing to a choice that it is in. -/
theorem similar_alt_of_mem (hp : p ∈ ps) : Similar (alt p (alts ps)) (alts ps) := by
  induction ps with
  | nil => cases hp
  | cons q ps ih =>
      have hcons := similar_alts_cons q ps
      rcases List.mem_cons.mp hp with rfl | hp
      · calc Similar (alt p (alts (p :: ps))) (alt p (alt p (alts ps))) := .alt (.refl p) hcons
          Similar _ (alt (alt p p) (alts ps)) := (Similar.altAssoc _ _ _).symm
          Similar _ (alt p (alts ps)) := .alt (.altSelf p) (.refl _)
          Similar _ (alts (p :: ps)) := hcons.symm
      · calc Similar (alt p (alts (q :: ps))) (alt p (alt q (alts ps))) := .alt (.refl p) hcons
          Similar _ (alt (alt p q) (alts ps)) := (Similar.altAssoc _ _ _).symm
          Similar _ (alt (alt q p) (alts ps)) := .alt (.altComm p q) (.refl _)
          Similar _ (alt q (alt p (alts ps))) := .altAssoc _ _ _
          Similar _ (alt q (alts ps)) := .alt (.refl q) (ih hp)
          Similar _ (alts (q :: ps)) := hcons.symm

theorem similar_alt_of_subset (h : ps ⊆ qs) : Similar (alt (alts ps) (alts qs)) (alts qs) := by
  induction ps with
  | nil => exact .neverAlt _
  | cons p ps ih =>
      rw [List.cons_subset] at h
      calc Similar (alt (alts (p :: ps)) (alts qs)) (alt (alt p (alts ps)) (alts qs)) :=
            .alt (similar_alts_cons p ps) (.refl _)
        Similar _ (alt p (alt (alts ps) (alts qs))) := .altAssoc _ _ _
        Similar _ (alt p (alts qs)) := .alt (.refl p) (ih h.2)
        Similar _ (alts qs) := similar_alt_of_mem h.1

/-- Choices from the same patterns are similar, in whatever order they are listed and how often. -/
theorem similar_alts_of_mem_iff (h : ∀ p, p ∈ ps ↔ p ∈ qs) : Similar (alts ps) (alts qs) := by
  have hps : ps ⊆ qs := fun p hp => (h p).mp hp
  have hqs : qs ⊆ ps := fun p hp => (h p).mpr hp
  calc Similar (alts ps) (alt (alts qs) (alts ps)) := (similar_alt_of_subset hqs).symm
    Similar _ (alt (alts ps) (alts qs)) := .altComm _ _
    Similar _ (alts qs) := similar_alt_of_subset hps

end Choices

end Pattern

end WhileLang
