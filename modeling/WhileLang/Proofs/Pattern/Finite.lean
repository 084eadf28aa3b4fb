import Mathlib.Data.List.Sublists
import WhileLang.Proofs.Pattern.Similar

/-!
# Finitely Many Derivatives

A pattern has infinitely many derivatives, one for each text, but up to
similarity only finitely many. Each of them is a choice between some of
finitely many patterns: the list is closed under derivatives if the
derivative of each of its patterns is such a choice again, and from a finite
list there are finitely many choices, since order and repetition do not
count.

For a sequence the list has the second part behind each choice that the first
part comes to, and for a repetition the rounds that are left behind each
choice that a round comes to. What is left of a bounded repetition is a
smaller one, and the star is left as it is, so one lemma about sequences
serves both.

## Main definitions

* `Pattern.SpannedBy`: The pattern is a choice between some of a list.
* `Pattern.Closed`: Derivatives lead to choices from the same list.
* `Pattern.Finitary`: There is a closed list that spans the pattern.

## Theorems

* `Pattern.SpannedBy.derivative`: A closed list spans the derivatives.
* `Pattern.closed_seq`: A closed list for a sequence.
* `Pattern.finitary`: Every pattern is finitary.
* `Pattern.exists_similar_residual`: Up to similarity, finitely many patterns
  are ever left.
-/

namespace WhileLang

namespace Pattern

/-- The pattern is similar to a choice between some patterns of the list. -/
def SpannedBy (T : List Pattern) (p : Pattern) : Prop :=
  ∃ ps, ps ⊆ T ∧ Similar p (alts ps)

/-- Derivatives of the patterns of the list are choices between them. -/
def Closed (T : List Pattern) : Prop :=
  ∀ t ∈ T, ∀ c, SpannedBy T (t.derivative c)

/-- The pattern and all its derivatives are choices from one finite list. -/
def Finitary (p : Pattern) : Prop :=
  ∃ T, Closed T ∧ SpannedBy T p

/-- The choices from a list, each taken once. -/
def choices (T : List Pattern) : List Pattern :=
  T.sublists.map alts

variable {p q r : Pattern} {c : Char} {cs : List Char} {S T U : List Pattern}

section Spanned

theorem spannedBy_never (T : List Pattern) : SpannedBy T never :=
  ⟨[], List.nil_subset T, .refl never⟩

theorem spannedBy_of_mem (hp : p ∈ T) : SpannedBy T p :=
  ⟨[p], List.cons_subset.mpr ⟨hp, List.nil_subset T⟩, .refl p⟩

theorem SpannedBy.congr (h : Similar p q) (hq : SpannedBy T q) : SpannedBy T p := by
  rcases hq with ⟨qs, hqs, hsim⟩
  exact ⟨qs, hqs, h.trans hsim⟩

theorem SpannedBy.mono (h : S ⊆ T) (hp : SpannedBy S p) : SpannedBy T p := by
  rcases hp with ⟨ps, hps, hsim⟩
  exact ⟨ps, List.Subset.trans hps h, hsim⟩

theorem SpannedBy.alt (hp : SpannedBy T p) (hq : SpannedBy T q) : SpannedBy T (alt p q) := by
  rcases hp with ⟨ps, hps, hp⟩
  rcases hq with ⟨qs, hqs, hq⟩
  refine ⟨ps ++ qs, List.append_subset.mpr ⟨hps, hqs⟩, ?_⟩
  exact (Similar.alt hp hq).trans (similar_alts_append ps qs).symm

theorem spannedBy_alts {ps : List Pattern} (h : ∀ p ∈ ps, SpannedBy T p) :
    SpannedBy T (alts ps) := by
  induction ps with
  | nil => exact spannedBy_never T
  | cons p ps ih =>
      rw [List.forall_mem_cons] at h
      exact (h.1.alt (ih h.2)).congr (similar_alts_cons p ps)

/-- A closed list spans the derivatives of what it spans. -/
theorem SpannedBy.derivative (hT : Closed T) (hp : SpannedBy T p) (c : Char) :
    SpannedBy T (p.derivative c) := by
  rcases hp with ⟨ps, hps, hsim⟩
  have hderivative : Similar (p.derivative c) (alts (ps.map (·.derivative c))) := by
    rw [← derivative_alts]
    exact hsim.derivative c
  refine (spannedBy_alts ?_).congr hderivative
  intro q hq
  rcases List.mem_map.mp hq with ⟨t, ht, rfl⟩
  exact hT t (hps ht) c

theorem SpannedBy.derivatives (hT : Closed T) (hp : SpannedBy T p) (cs : List Char) :
    SpannedBy T (p.derivatives cs) := by
  induction cs generalizing p with
  | nil => exact hp
  | cons c cs ih => exact ih (hp.derivative hT c)

theorem spannedBy_of_mem_choices (hp : p ∈ choices T) : SpannedBy T p := by
  rcases List.mem_map.mp hp with ⟨ps, hps, rfl⟩
  exact ⟨ps, (List.mem_sublists.mp hps).subset, .refl _⟩

/-- What a list spans is one of its choices. -/
theorem SpannedBy.exists_mem_choices (hp : SpannedBy T p) : ∃ q ∈ choices T, Similar p q := by
  rcases hp with ⟨ps, hps, hsim⟩
  -- The patterns are taken in the order of the list, and each of them once.
  have hmem : ∀ t, t ∈ ps ↔ t ∈ T.filter (· ∈ ps) := by
    intro t
    rw [List.mem_filter, decide_eq_true_iff]
    exact ⟨fun ht => ⟨hps ht, ht⟩, fun ht => ht.2⟩
  refine ⟨alts (T.filter (· ∈ ps)), ?_, hsim.trans (similar_alts_of_mem_iff hmem)⟩
  exact List.mem_map_of_mem (List.mem_sublists.mpr List.filter_sublist)

end Spanned

section Closed

theorem closed_nil : Closed [] := by
  intro t ht
  cases ht

theorem closed_append (hT : Closed T) (hU : Closed U) : Closed (T ++ U) := by
  intro t ht c
  rcases List.mem_append.mp ht with ht | ht
  · exact (hT t ht c).mono (List.subset_append_left T U)
  · exact (hU t ht c).mono (List.subset_append_right T U)

/-- A pattern whose derivatives are spanned by a closed list can be added to it. -/
theorem finitary_of_derivative (hT : Closed T) (h : ∀ c, SpannedBy T (p.derivative c)) :
    Finitary p := by
  refine ⟨p :: T, ?_, spannedBy_of_mem List.mem_cons_self⟩
  intro t ht c
  rcases List.mem_cons.mp ht with rfl | ht
  · exact (h c).mono (List.subset_cons_self t T)
  · exact (hT t ht c).mono (List.subset_cons_self p T)

/-- The second part of a sequence behind what the first part comes to, and what the second part
    comes to. -/
def behind (T : List Pattern) (q : Pattern) (U : List Pattern) : List Pattern :=
  (choices T).map (seq · q) ++ U

theorem spannedBy_seq (hp : SpannedBy T p) : SpannedBy (behind T q U) (seq p q) := by
  rcases hp.exists_mem_choices with ⟨p', hp', hsim⟩
  refine (spannedBy_of_mem ?_).congr (Similar.seq hsim (.refl q))
  exact List.mem_append_left U (List.mem_map_of_mem hp')

/-- A closed list for a sequence. The derivatives of the second part may lead back to sequences, as
    those of a repetition do. -/
theorem closed_seq (hT : Closed T) (hU : Closed U)
    (hq : ∀ c, SpannedBy (behind T q U) (q.derivative c)) : Closed (behind T q U) := by
  intro t ht c
  rcases List.mem_append.mp ht with ht | ht
  · rcases List.mem_map.mp ht with ⟨p, hp, rfl⟩
    have hhead : SpannedBy (behind T q U) (seq (p.derivative c) q) :=
      spannedBy_seq ((spannedBy_of_mem_choices hp).derivative hT c)
    rw [derivative_seq]
    split
    · exact hhead.alt (hq c)
    · exact hhead
  · exact (hU t ht c).mono (List.subset_append_right _ U)

end Closed

section Constructors

/-- A pattern of single characters is used up by one of them. -/
theorem finitary_of_single (h : ∀ c, p.derivative c = empty ∨ p.derivative c = never) :
    Finitary p := by
  have hempty : Closed [empty] := by
    intro t ht c
    rw [List.mem_singleton.mp ht]
    exact spannedBy_never _
  refine finitary_of_derivative hempty fun c => ?_
  rcases h c with hc | hc
  · rw [hc]
    exact spannedBy_of_mem (List.mem_singleton.mpr rfl)
  · rw [hc]
    exact spannedBy_never _

theorem Finitary.alt (hp : Finitary p) (hq : Finitary q) : Finitary (alt p q) := by
  rcases hp with ⟨T, hT, hp⟩
  rcases hq with ⟨U, hU, hq⟩
  refine ⟨T ++ U, closed_append hT hU, ?_⟩
  exact (hp.mono (List.subset_append_left T U)).alt (hq.mono (List.subset_append_right T U))

theorem Finitary.seq (hp : Finitary p) (hq : Finitary q) : Finitary (seq p q) := by
  rcases hp with ⟨T, hT, hp⟩
  rcases hq with ⟨U, hU, hq⟩
  refine ⟨behind T q U, closed_seq hT hU fun c => ?_, spannedBy_seq hp⟩
  exact (hq.derivative hU c).mono (List.subset_append_right _ U)

theorem Finitary.not (hp : Finitary p) : Finitary (not p) := by
  rcases hp with ⟨T, hT, hp⟩
  have hspanned : ∀ {q}, SpannedBy T q → SpannedBy ((choices T).map Pattern.not) (.not q) := by
    intro q hq
    rcases hq.exists_mem_choices with ⟨q', hq', hsim⟩
    exact (spannedBy_of_mem (List.mem_map_of_mem hq')).congr (.not hsim)
  refine ⟨(choices T).map Pattern.not, ?_, hspanned hp⟩
  intro t ht c
  rcases List.mem_map.mp ht with ⟨q, hq, rfl⟩
  exact hspanned ((spannedBy_of_mem_choices hq).derivative hT c)

/-- A pattern whose derivatives are those of a finitary one. -/
theorem Finitary.of_derivative_eq (hp : Finitary p)
    (h : ∀ c, q.derivative c = p.derivative c) : Finitary q := by
  rcases hp with ⟨T, hT, hp⟩
  refine finitary_of_derivative hT fun c => ?_
  rw [h c]
  exact hp.derivative hT c

/-- A repetition is finitary if a round and the rounds behind it are. -/
theorem Round.finitary (hr : Round r p q) (hp : Finitary p) (hq : Finitary q) : Finitary r := by
  rcases hp with ⟨T, hT, hp⟩
  rcases hq with ⟨U, hU, hq⟩
  have hclosed : Closed (behind T q U) := closed_seq hT hU fun c =>
    (hq.derivative hU c).mono (List.subset_append_right _ U)
  refine finitary_of_derivative hclosed fun c => ?_
  rw [hr.derivative_eq]
  exact spannedBy_seq (hp.derivative hT c)

theorem Finitary.star (hp : Finitary p) : Finitary (star p) := by
  rcases hp with ⟨T, hT, hp⟩
  -- Behind a round there is the same star again, so nothing else has to be in the list.
  have hspanned : ∀ c, SpannedBy (behind T (Pattern.star p) []) ((Pattern.star p).derivative c) :=
    fun c => spannedBy_seq (hp.derivative hT c)
  exact finitary_of_derivative (closed_seq hT closed_nil hspanned) hspanned

theorem Finitary.times (hp : Finitary p) (n : Nat) : Finitary (times p n) := by
  induction n with
  | zero => exact finitary_of_derivative closed_nil fun c => spannedBy_never []
  | succ n ih => exact (Round.times p n).finitary hp ih

theorem Finitary.range (hp : Finitary p) (n m : Nat) : Finitary (range p n m) := by
  induction m generalizing n with
  | zero => exact finitary_of_derivative closed_nil fun c => spannedBy_never []
  | succ m ih => exact (Round.range p n m).finitary hp (ih (n - 1))

end Constructors

/-- Every pattern is finitary. -/
theorem finitary (p : Pattern) : Finitary p := by
  induction p with
  | never => exact ⟨[], closed_nil, spannedBy_never []⟩
  | empty => exact finitary_of_derivative closed_nil fun c => spannedBy_never []
  | char d => exact finitary_of_single (derivative_char d)
  | oneOf s => exact finitary_of_single (derivative_oneOf s)
  | noneOf s => exact finitary_of_single (derivative_noneOf s)
  | alt p q ihp ihq => exact ihp.alt ihq
  | seq p q ihp ihq => exact ihp.seq ihq
  | star p ih => exact ih.star
  | plus p ih => exact (Round.plus p).finitary ih ih.star
  | opt p ih => exact ih.of_derivative_eq fun c => rfl
  | times p n ih => exact ih.times n
  | range p n m ih => exact ih.range n m
  | not p ih => exact ih.not
  | tagged name p ih => exact ih.of_derivative_eq fun c => rfl

/-- Up to similarity, finitely many patterns are ever left of a pattern, whatever text is read. -/
theorem exists_similar_residual (p : Pattern) :
    ∃ S : List Pattern, ∀ cs, ∃ q ∈ S, Similar (p.residual cs) q := by
  rcases finitary p with ⟨T, hT, hp⟩
  refine ⟨choices T, fun cs => ?_⟩
  rcases (hp.derivatives hT cs).exists_mem_choices with ⟨q, hq, hsim⟩
  exact ⟨q, hq, (similar_residual p cs).trans hsim⟩

end Pattern

end WhileLang
