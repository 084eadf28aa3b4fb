import WhileLang.Proofs.Pattern.Remainder

/-!
# Visible Dead Ends

A scan stops when nothing is left that could match. It only looks whether the
pattern that is left is `never`, so it stops in time if every dead end shows
in this way: a pattern that matches nothing has to be simplified to `never`.
Not all patterns are. An empty set of characters matches nothing and stays as
it is, and so does a repetition or a name around a body that matches nothing.
A complement can match nothing for reasons that no simplification sees.

In a live pattern none of these occur. Derivatives of a live pattern are live,
so all dead ends that its scans can come to are visible.

## Main definitions

* `Pattern.IsInhabited`: Some text is matched.
* `Pattern.Live`: Nothing hides that the pattern, or a part of it, matches no
  text.

## Theorems

* `Pattern.Live.derivative`: Derivatives of live patterns are live.
* `Pattern.Live.simplified_eq_never_iff`: A live pattern that matches nothing
  is simplified to `never`.
* `Pattern.Live.remainder_eq_never_iff`: Nothing is left of a live pattern if
  and only if no text that it matches begins with what was read.
-/

namespace WhileLang

namespace Pattern

/-- Some text is matched. -/
def IsInhabited (p : Pattern) : Prop :=
  ∃ cs, p.Matches cs

/-- Sets leave some character to match, what is repeated and what has a name match some text, bounds
    are in order, and there is no complement. -/
def Live : Pattern → Prop
  | .never | .empty | .char _ => True
  | .oneOf s => ∃ c, c ∈ s
  | .noneOf s => ∃ c, c ∉ s
  | .alt p q | .seq p q => p.Live ∧ q.Live
  | .star p | .opt p => p.Live
  | .plus p | .times p _ | .tagged _ p => p.Live ∧ p.IsInhabited
  | .range p n m => p.Live ∧ p.IsInhabited ∧ n ≤ m
  | .not _ => False

variable {p q r : Pattern} {c : Char} {cs : List Char}

section Inhabited

theorem isInhabited_of_isNullable (h : p.isNullable = true) : p.IsInhabited :=
  ⟨[], h⟩

theorem isInhabited_alt : (alt p q).IsInhabited ↔ p.IsInhabited ∨ q.IsInhabited := by
  simp only [IsInhabited, matches_alt, exists_or]

theorem IsInhabited.seq (hp : p.IsInhabited) (hq : q.IsInhabited) : (seq p q).IsInhabited := by
  rcases hp with ⟨us, hp⟩
  rcases hq with ⟨vs, hq⟩
  exact ⟨us ++ vs, matches_seq.mpr ⟨us, vs, rfl, hp, hq⟩⟩

theorem isInhabited_tagged {name : String} : (tagged name p).IsInhabited ↔ p.IsInhabited := by
  simp only [IsInhabited, matches_tagged]

/-- A round is gone if the body matches a text that is not empty. -/
theorem Round.isInhabited (hr : Round r p q) (hp : p.IsInhabited) (hnil : ¬ p.isNullable = true)
    (hq : q.IsInhabited) : r.IsInhabited := by
  rcases hp with ⟨us, hp⟩
  rcases hq with ⟨vs, hq⟩
  have hus : us ≠ [] := by
    rintro rfl
    exact hnil hp
  exact ⟨us ++ vs, hr.matches hus hp hq⟩

theorem IsInhabited.plus (hp : p.IsInhabited) : (plus p).IsInhabited := by
  by_cases hnil : p.isNullable = true
  · exact isInhabited_of_isNullable hnil
  · exact (Round.plus p).isInhabited hp hnil
      (isInhabited_of_isNullable rfl)

theorem IsInhabited.times (hp : p.IsInhabited) (n : Nat) : (times p n).IsInhabited := by
  induction n with
  | zero => exact isInhabited_of_isNullable rfl
  | succ n ih =>
      by_cases hnil : p.isNullable = true
      · exact isInhabited_of_isNullable (by rw [isNullable, hnil, Bool.or_true])
      · exact (Round.times p n).isInhabited hp hnil ih

theorem IsInhabited.range (hp : p.IsInhabited) {n m : Nat} (hnm : n ≤ m) :
    (range p n m).IsInhabited := by
  induction m generalizing n with
  | zero =>
      rw [Nat.le_zero.mp hnm]
      exact isInhabited_of_isNullable rfl
  | succ m ih =>
      by_cases hnil : p.isNullable = true
      · exact isInhabited_of_isNullable (by rw [isNullable, hnil, Bool.or_true])
      · exact (Round.range p n m).isInhabited hp hnil
          (ih (by omega))

end Inhabited

theorem live_of_eq (h : p = empty ∨ p = never) : p.Live := by
  rcases h with rfl | rfl
  · trivial
  · trivial

/-- Derivatives of live patterns are live. -/
theorem Live.derivative (h : p.Live) (c : Char) : (p.derivative c).Live := by
  induction p with
  | never | empty => trivial
  | char d => exact live_of_eq (derivative_char d c)
  | oneOf s => exact live_of_eq (derivative_oneOf s c)
  | noneOf s => exact live_of_eq (derivative_noneOf s c)
  | alt p q ihp ihq => exact ⟨ihp h.1, ihq h.2⟩
  | seq p q ihp ihq =>
      rw [derivative_seq]
      split
      · exact ⟨⟨ihp h.1, h.2⟩, ihq h.2⟩
      · exact ⟨ihp h.1, h.2⟩
  | star p ih => exact ⟨ih h, h⟩
  | plus p ih => exact ⟨ih h.1, h.1⟩
  | opt p ih => exact ih h
  | times p n ih =>
      rw [Pattern.derivative]
      split
      · trivial
      · exact ⟨ih h.1, h⟩
  | range p n m ih =>
      rcases h with ⟨hp, hinhabited, hnm⟩
      rw [Pattern.derivative]
      split
      · trivial
      · exact ⟨ih hp, hp, hinhabited, by omega⟩
  | not p => exact h.elim
  | tagged name p ih => exact ih h.1

theorem live_anyOf {ds : List Char} (h : c ∈ ds) : (anyOf ds).Live :=
  ⟨c, (CharSet.mem_ofList c ds).mpr h⟩

theorem live_anyBut {ds : List Char} (h : c ∉ ds) : (anyBut ds).Live :=
  ⟨c, fun hc => h ((CharSet.mem_ofList c ds).mp hc)⟩

theorem live_alts {ps : List Pattern} (h : ∀ p ∈ ps, p.Live) : (alts ps).Live := by
  induction ps with
  | nil => trivial
  | cons p ps ih =>
      rw [List.forall_mem_cons] at h
      cases ps with
      | nil => exact h.1
      | cons q ps => exact ⟨h.1, ih h.2⟩

theorem live_literal (w : List Char) : (literal w).Live := by
  induction w with
  | nil => trivial
  | cons c w ih =>
      cases w with
      | nil => trivial
      | cons d w => exact ⟨trivial, ih⟩

theorem Live.derivatives (h : p.Live) (cs : List Char) : (p.derivatives cs).Live := by
  induction cs generalizing p with
  | nil => exact h
  | cons c cs ih => exact ih (h.derivative c)

/-- Unless it is simplified to `never`, a live pattern matches some text. -/
theorem Live.isInhabited (h : p.Live) (hne : p.simplified ≠ never) : p.IsInhabited := by
  induction p with
  | never => exact absurd rfl hne
  | empty | star | opt => exact isInhabited_of_isNullable rfl
  | char d => exact ⟨[d], by rw [matches_cons, Pattern.derivative, if_pos rfl]; rfl⟩
  | oneOf s =>
      rcases h with ⟨c, hc⟩
      exact ⟨[c], by rw [matches_cons, Pattern.derivative, if_pos hc]; rfl⟩
  | noneOf s =>
      rcases h with ⟨c, hc⟩
      exact ⟨[c], by rw [matches_cons, Pattern.derivative, if_neg hc]; rfl⟩
  | alt p q ihp ihq =>
      rw [isInhabited_alt]
      by_cases hp : p.simplified = never
      · rw [simplified_alt, hp, joinAlt_never_left] at hne
        exact Or.inr (ihq h.2 hne)
      · exact Or.inl (ihp h.1 hp)
  | seq p q ihp ihq =>
      rw [simplified_seq] at hne
      have hp : p.simplified ≠ never := fun hp => hne (by rw [hp, joinSeq_never_left])
      have hq : q.simplified ≠ never := fun hq => hne (by rw [hq, joinSeq_never_right])
      exact (ihp h.1 hp).seq (ihq h.2 hq)
  | plus p => exact h.2.plus
  | times p n => exact h.2.times n
  | range p n m => exact h.2.1.range h.2.2
  | not p => exact h.elim
  | tagged name p => exact isInhabited_tagged.mpr h.2

/-- A live pattern that matches nothing is simplified to `never`, and only such a pattern is. -/
theorem Live.simplified_eq_never_iff (h : p.Live) : p.simplified = never ↔ ¬ p.IsInhabited := by
  constructor
  · rintro hnever ⟨cs, hcs⟩
    rw [← matches_simplify, ← simplified, hnever] at hcs
    exact not_matches_never cs hcs
  · intro hnone
    by_cases hnever : p.simplified = never
    · exact hnever
    · exact absurd (h.isInhabited hnever) hnone

/-- Nothing is left of a live pattern if and only if no text that it matches begins with what was
    read. -/
theorem Live.remainder_eq_never_iff (h : p.Live) :
    p.remainder cs = never ↔ ¬ ∃ ds, p.Matches (cs ++ ds) := by
  have hbegins : (p.derivatives cs).IsInhabited ↔ ∃ ds, p.Matches (cs ++ ds) :=
    exists_congr fun ds => matches_derivatives
  rw [remainder, (h.derivatives cs).simplified_eq_never_iff, hbegins]

end Pattern

end WhileLang
