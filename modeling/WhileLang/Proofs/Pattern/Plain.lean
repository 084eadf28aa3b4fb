import WhileLang.Pattern.Residual

/-!
# Matching by Derivatives Alone

Whether a pattern matches a text, asked of the derivatives as they are, with
no simplification on the way. The scan itself simplifies after every
character and stops at a dead end, so the patterns it passes through have
little to do with one another; the plain derivatives are what they are all
compared with.

Matching in this sense has the derivative law by definition, and one law for
each way of putting patterns together that simplification enters. None of
them asks anything of the bounds of a repetition, so they hold even of a
range whose bounds are crossed.

`accepts_iff_matches` closes the gap: the scan and the plain derivatives give
the same answer for every pattern and every text.

## Main definitions

* `Pattern.derivatives`: What is left after a text, not simplified.
* `Pattern.Matches`: What is left matches the empty text.

## Theorems

* `Pattern.matches_alt`, `Pattern.matches_seq`, `Pattern.matches_not`: What
  composed patterns match.
* `Pattern.matches_simplify`: A simplified pattern matches the same texts.
* `Pattern.accepts_iff_matches`: The scan answers as the plain derivatives do.
-/

namespace WhileLang

namespace Pattern

/-- What is left after a text, with no simplification on the way. -/
def derivatives (p : Pattern) (cs : List Char) : Pattern :=
  cs.foldl derivative p

/-- What is left after the text matches the empty text. -/
def Matches (p : Pattern) (cs : List Char) : Prop :=
  (p.derivatives cs).isNullable = true

instance (p : Pattern) (cs : List Char) : Decidable (p.Matches cs) :=
  inferInstanceAs (Decidable (_ = true))

theorem matches_nil {p : Pattern} : p.Matches [] ↔ p.isNullable = true := Iff.rfl

theorem matches_cons {p : Pattern} {c : Char} {cs : List Char} :
    p.Matches (c :: cs) ↔ (p.derivative c).Matches cs := Iff.rfl

theorem not_matches_never (cs : List Char) : ¬ never.Matches cs := by
  induction cs with
  | nil => simp only [matches_nil, isNullable, Bool.false_eq_true, not_false_eq_true]
  | cons c cs ih => exact ih

theorem matches_empty {cs : List Char} : empty.Matches cs ↔ cs = [] := by
  cases cs with
  | nil => simp only [matches_nil, isNullable]
  | cons c cs =>
      rw [matches_cons, derivative]
      exact iff_of_false (not_matches_never cs) (List.cons_ne_nil c cs)

/-- The derivative of a pattern of single characters matches only the empty text. -/
theorem matches_ite {P : Prop} [Decidable P] {cs : List Char} :
    (if P then Pattern.empty else never).Matches cs ↔ P ∧ cs = [] := by
  by_cases h : P
  · rw [if_pos h, matches_empty, and_iff_right h]
  · rw [if_neg h]
    exact iff_of_false (not_matches_never cs) fun hcs => h hcs.1

theorem matches_alt {p q : Pattern} {cs : List Char} :
    (alt p q).Matches cs ↔ p.Matches cs ∨ q.Matches cs := by
  induction cs generalizing p q with
  | nil => simp only [matches_nil, isNullable, Bool.or_eq_true]
  | cons c cs ih => simp only [matches_cons, derivative, ih]

/-- The first character of a sequence belongs to its second part only if the first part may be
    empty. -/
theorem matches_seq_cons {p q : Pattern} {c : Char} {cs : List Char} :
    (seq p q).Matches (c :: cs) ↔
      (seq (p.derivative c) q).Matches cs ∨ p.isNullable = true ∧ q.Matches (c :: cs) := by
  rw [matches_cons, derivative]
  by_cases hp : p.isNullable = true
  · rw [if_pos hp, matches_alt, and_iff_right hp, ← matches_cons]
  · rw [if_neg hp, or_iff_left fun h => hp h.1]

theorem matches_seq {p q : Pattern} {cs : List Char} :
    (seq p q).Matches cs ↔ ∃ u v, u ++ v = cs ∧ p.Matches u ∧ q.Matches v := by
  induction cs generalizing p with
  | nil =>
      simp only [matches_nil, isNullable, Bool.and_eq_true, List.append_eq_nil_iff]
      constructor
      · intro h
        rcases h with ⟨hp, hq⟩
        exact ⟨[], [], ⟨rfl, rfl⟩, hp, hq⟩
      · intro h
        rcases h with ⟨u, v, ⟨rfl, rfl⟩, hp, hq⟩
        exact ⟨hp, hq⟩
  | cons c cs ih =>
      rw [matches_seq_cons, ih]
      constructor
      · intro h
        rcases h with ⟨u, v, rfl, hu, hv⟩ | ⟨hp, hq⟩
        · exact ⟨c :: u, v, rfl, hu, hv⟩
        · exact ⟨[], c :: cs, rfl, hp, hq⟩
      · intro h
        rcases h with ⟨u, v, h, hu, hv⟩
        cases u with
        | nil =>
            rw [List.nil_append] at h
            rw [h] at hv
            exact Or.inr ⟨hu, hv⟩
        | cons d u =>
            rcases List.cons.inj h with ⟨rfl, hcs⟩
            exact Or.inl ⟨u, v, hcs, hu, hv⟩

theorem matches_not {p : Pattern} {cs : List Char} : (Pattern.not p).Matches cs ↔ ¬ p.Matches cs := by
  induction cs generalizing p with
  | nil => simp only [matches_nil, isNullable, Bool.not_eq_true', Bool.not_eq_true]
  | cons c cs ih => simp only [matches_cons, derivative, ih]

theorem matches_tagged {name : String} {p : Pattern} {cs : List Char} :
    (tagged name p).Matches cs ↔ p.Matches cs := by
  cases cs with
  | nil => simp only [matches_nil, isNullable]
  | cons c cs => simp only [matches_cons, derivative]

/-- A sequence matches nothing if one of its parts does not. -/
theorem not_matches_seq {p q : Pattern} (h : p = never ∨ q = never) (cs : List Char) :
    ¬ (seq p q).Matches cs := by
  rw [matches_seq]
  intro hmatches
  rcases hmatches with ⟨u, v, -, hu, hv⟩
  rcases h with rfl | rfl
  · exact not_matches_never u hu
  · exact not_matches_never v hv

theorem matches_seq_empty_left {q : Pattern} {cs : List Char} :
    (seq empty q).Matches cs ↔ q.Matches cs := by
  simp only [matches_seq, matches_empty]
  constructor
  · intro h
    rcases h with ⟨u, v, rfl, rfl, hv⟩
    exact hv
  · intro h
    exact ⟨[], cs, rfl, rfl, h⟩

theorem matches_seq_empty_right {p : Pattern} {cs : List Char} :
    (seq p empty).Matches cs ↔ p.Matches cs := by
  simp only [matches_seq, matches_empty]
  constructor
  · intro h
    rcases h with ⟨u, v, rfl, hu, rfl⟩
    rwa [List.append_nil]
  · intro h
    exact ⟨cs, [], List.append_nil cs, h, rfl⟩

theorem matches_seq_congr {p p' q q' : Pattern} (hp : ∀ cs, p'.Matches cs ↔ p.Matches cs)
    (hq : ∀ cs, q'.Matches cs ↔ q.Matches cs) {cs : List Char} :
    (seq p' q').Matches cs ↔ (seq p q).Matches cs := by
  simp only [matches_seq, hp, hq]

/-- A simplified pattern matches the same texts. -/
theorem matches_simplify (p : Pattern) (cs : List Char) :
    p.simplify.pattern.Matches cs ↔ p.Matches cs := by
  induction p generalizing cs with
  | alt p q ihp ihq =>
      rw [simplify, matches_alt, ← ihp, ← ihq]
      split
      · next ha =>
        simp only [ha, not_matches_never, false_or]
      · split
        · next hb =>
          rcases hb with hb | hb
          · simp only [hb, not_matches_never, or_false]
          · simp only [hb, or_self]
        · rw [matches_alt]
  | seq p q ihp ihq =>
      rw [simplify, ← matches_seq_congr ihp ihq]
      split
      · next h => exact iff_of_false (not_matches_never cs) (not_matches_seq h cs)
      · split
        · next ha => rw [ha, matches_seq_empty_left]
        · split
          · next hb => rw [hb, matches_seq_empty_right]
          · exact Iff.rfl
  | tagged name p ih => rw [simplify, matches_tagged, matches_tagged, ih]
  | not p ih => rw [simplify, matches_not, matches_not, ih]
  | _ => rfl

/-- The scan, which simplifies and stops early, answers as the plain derivatives do. -/
theorem accepts_iff_matches {p : Pattern} {cs : List Char} : p.accepts cs = true ↔ p.Matches cs := by
  induction cs generalizing p with
  | nil => exact Iff.rfl
  | cons c cs ih =>
      rw [accepts, residual_cons, ← accepts, ih, matches_cons]
      exact matches_simplify (p.derivative c) cs

end Pattern

end WhileLang
