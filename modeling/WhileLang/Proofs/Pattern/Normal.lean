import WhileLang.Proofs.Pattern.Plain

/-!
# Normal Forms

What simplification leaves of a pattern. The pattern is passed once, from the
inside out, and each choice and each sequence is looked at when its parts are
done. What becomes of it then can make the one around it removable, but never
one inside it, so nothing is left over: the result is in normal form, and a
second pass finds nothing to do.

A second pass does nothing to values either. The way back is the identity on
every value that has the shape of the pattern, whatever characters, names and
numbers of rounds it has. On other values it need not be: a value that a
choice cannot have is refused.

Every rewriting makes the pattern smaller. So the size tells whether anything
was rewritten at all.

`joinAlt` and `joinSeq` are one choice and one sequence of parts that are
done. Lemmas about simplification are said of these two first, and the
induction over the pattern is then the same for all of them.

## Main definitions

* `Pattern.simplified`: The simplified pattern, without the way back.
* `Pattern.joinAlt`, `Pattern.joinSeq`: What becomes of a choice and of a
  sequence of simplified parts.
* `Pattern.IsNormal`: There is nothing to simplify.
* `Pattern.HasShape`: The value is put together as the pattern is.

## Theorems

* `Pattern.joinAlt_cases`, `Pattern.joinSeq_cases`: What can become of a choice
  and of a sequence.
* `Pattern.isNormal_simplified`: A simplified pattern is normal.
* `Pattern.simplified_of_isNormal`: A normal pattern is left alone.
* `Pattern.restore_of_isNormal`: And so are the values that have its shape.
* `Pattern.size_simplified_le`, `Pattern.simplified_of_size`: Simplification
  makes the pattern smaller or leaves it as it is.
* `Pattern.simplify_reaches_normalForm`: All of this of one pass.
-/

namespace WhileLang

namespace Pattern

/-- The simplified pattern. -/
def simplified (p : Pattern) : Pattern :=
  p.simplify.pattern

/-- What becomes of a choice between two simplified sides. -/
def joinAlt (p q : Pattern) : Pattern :=
  if p = never then q else if q = never ∨ p = q then p else alt p q

/-- What becomes of a sequence of two simplified parts. -/
def joinSeq (p q : Pattern) : Pattern :=
  if p = never ∨ q = never then never
  else if p = empty then q else if q = empty then p else seq p q

/-- No choice has a side that matches nothing or two equal sides, and no sequence has a part that
    matches nothing or only the empty text. What is repeated is not looked at. -/
def IsNormal : Pattern → Prop
  | .alt p q => p ≠ .never ∧ q ≠ .never ∧ p ≠ q ∧ p.IsNormal ∧ q.IsNormal
  | .seq p q =>
    p ≠ .never ∧ p ≠ .empty ∧ q ≠ .never ∧ q ≠ .empty ∧ p.IsNormal ∧ q.IsNormal
  | .not p | .tagged _ p => p.IsNormal
  | _ => True

/-- The value is put together as the pattern is. It is not asked which characters it has, how many
    rounds, or which names. -/
inductive HasShape : Pattern → Value → Prop
  | empty : HasShape empty .void
  | char (c d : Char) : HasShape (char c) (.char d)
  | oneOf (s : CharSet) (d : Char) : HasShape (oneOf s) (.char d)
  | noneOf (s : CharSet) (d : Char) : HasShape (noneOf s) (.char d)
  | left {p q : Pattern} {v : Value} (hv : HasShape p v) : HasShape (alt p q) (.left v)
  | right {p q : Pattern} {v : Value} (hv : HasShape q v) : HasShape (alt p q) (.right v)
  | seq {p q : Pattern} {v w : Value} (hv : HasShape p v) (hw : HasShape q w) :
      HasShape (seq p q) (.seq v w)
  | star {p : Pattern} {vs : List Value} (hvs : ∀ v ∈ vs, HasShape p v) :
      HasShape (star p) (.stars vs)
  | plus {p : Pattern} {vs : List Value} (hvs : ∀ v ∈ vs, HasShape p v) :
      HasShape (plus p) (.stars vs)
  | opt {p : Pattern} {vs : List Value} (hvs : ∀ v ∈ vs, HasShape p v) :
      HasShape (opt p) (.stars vs)
  | times {p : Pattern} {vs : List Value} (n : Nat) (hvs : ∀ v ∈ vs, HasShape p v) :
      HasShape (times p n) (.stars vs)
  | range {p : Pattern} {vs : List Value} (n m : Nat) (hvs : ∀ v ∈ vs, HasShape p v) :
      HasShape (range p n m) (.stars vs)
  | not (p : Pattern) (cs : List Char) : HasShape (not p) (.stars (cs.map .char))
  | tagged {p : Pattern} {v : Value} (name found : String) (hv : HasShape p v) :
      HasShape (tagged name p) (.tagged found v)

variable {p q : Pattern} {v : Value}

section Equations

theorem simplified_alt : (alt p q).simplified = joinAlt p.simplified q.simplified := by
  simp only [simplified, simplify, joinAlt, apply_ite Reduction.pattern]
  rfl

theorem simplified_seq : (seq p q).simplified = joinSeq p.simplified q.simplified := by
  simp only [simplified, simplify, joinSeq, apply_ite Reduction.pattern]
  rfl

theorem simplified_not : (Pattern.not p).simplified = .not p.simplified := rfl

theorem simplified_tagged (name : String) :
    (tagged name p).simplified = .tagged name p.simplified := rfl

/-- What can become of a choice: one of its sides, or the choice of both. -/
theorem joinAlt_cases (p q : Pattern) :
    p = never ∧ joinAlt p q = q ∨
      (q = never ∨ p = q) ∧ joinAlt p q = p ∨
      (p ≠ never ∧ q ≠ never ∧ p ≠ q) ∧ joinAlt p q = alt p q := by
  by_cases hleft : p = never
  · exact Or.inl ⟨hleft, if_pos hleft⟩
  · rw [joinAlt, if_neg hleft]
    by_cases hdrop : q = never ∨ p = q
    · exact Or.inr (Or.inl ⟨hdrop, if_pos hdrop⟩)
    · exact Or.inr (Or.inr ⟨⟨hleft, not_or.mp hdrop⟩, if_neg hdrop⟩)

/-- What can become of a sequence: nothing, one of its parts, or the sequence of both. -/
theorem joinSeq_cases (p q : Pattern) :
    (p = never ∨ q = never) ∧ joinSeq p q = never ∨
      p = empty ∧ joinSeq p q = q ∨
      q = empty ∧ joinSeq p q = p ∨
      (p ≠ never ∧ p ≠ empty ∧ q ≠ never ∧ q ≠ empty) ∧ joinSeq p q = seq p q := by
  by_cases hnever : p = never ∨ q = never
  · exact Or.inl ⟨hnever, if_pos hnever⟩
  · rw [joinSeq, if_neg hnever]
    by_cases hleft : p = empty
    · exact Or.inr (Or.inl ⟨hleft, if_pos hleft⟩)
    · rw [if_neg hleft]
      by_cases hright : q = empty
      · exact Or.inr (Or.inr (Or.inl ⟨hright, if_pos hright⟩))
      · rw [not_or] at hnever
        exact Or.inr (Or.inr (Or.inr ⟨⟨hnever.1, hleft, hnever.2, hright⟩, if_neg hright⟩))

@[simp] theorem joinAlt_never_left : joinAlt never q = q := if_pos rfl

@[simp] theorem joinAlt_never_right : joinAlt p never = p := by
  by_cases hp : p = never
  · rw [hp, joinAlt_never_left]
  · rw [joinAlt, if_neg hp, if_pos (Or.inl rfl)]

@[simp] theorem joinAlt_self : joinAlt p p = p := by
  by_cases hp : p = never
  · rw [hp, joinAlt_never_left]
  · rw [joinAlt, if_neg hp, if_pos (Or.inr rfl)]

@[simp] theorem joinSeq_never_left : joinSeq never q = never := if_pos (Or.inl rfl)

@[simp] theorem joinSeq_never_right : joinSeq p never = never := if_pos (Or.inr rfl)

@[simp] theorem joinSeq_empty_left : joinSeq empty q = q := by
  by_cases hq : q = never
  · rw [hq, joinSeq_never_right]
  · rw [joinSeq, if_neg (by simp [hq]), if_pos rfl]

@[simp] theorem joinSeq_empty_right : joinSeq p empty = p := by
  by_cases hp : p = never
  · rw [hp, joinSeq_never_left]
  · by_cases hempty : p = empty
    · rw [hempty, joinSeq_empty_left]
    · rw [joinSeq, if_neg (by simp [hp]), if_neg hempty, if_pos rfl]

end Equations

section Normal

theorem isNormal_joinAlt (hp : p.IsNormal) (hq : q.IsNormal) : (joinAlt p q).IsNormal := by
  rcases joinAlt_cases p q with ⟨-, h⟩ | ⟨-, h⟩ | ⟨⟨hleft, hright, hne⟩, h⟩
  · rw [h]
    exact hq
  · rw [h]
    exact hp
  · rw [h]
    exact ⟨hleft, hright, hne, hp, hq⟩

theorem isNormal_joinSeq (hp : p.IsNormal) (hq : q.IsNormal) : (joinSeq p q).IsNormal := by
  rcases joinSeq_cases p q with ⟨-, h⟩ | ⟨-, h⟩ | ⟨-, h⟩ | ⟨⟨hleft, hempty, hright, hempty'⟩, h⟩
  · rw [h]
    trivial
  · rw [h]
    exact hq
  · rw [h]
    exact hp
  · rw [h]
    exact ⟨hleft, hempty, hright, hempty', hp, hq⟩

/-- A simplified pattern is normal. -/
theorem isNormal_simplified (p : Pattern) : p.simplified.IsNormal := by
  induction p with
  | alt p q ihp ihq =>
      rw [simplified_alt]
      exact isNormal_joinAlt ihp ihq
  | seq p q ihp ihq =>
      rw [simplified_seq]
      exact isNormal_joinSeq ihp ihq
  | not p ih | tagged name p ih => exact ih
  | _ => trivial

/-- A normal pattern is left alone. -/
theorem simplified_of_isNormal (hp : p.IsNormal) : p.simplified = p := by
  induction p with
  | alt p q ihp ihq =>
      rcases hp with ⟨hleft, hright, hne, hp, hq⟩
      rw [simplified_alt, ihp hp, ihq hq, joinAlt, if_neg hleft, if_neg (not_or.mpr ⟨hright, hne⟩)]
  | seq p q ihp ihq =>
      rcases hp with ⟨hleft, hempty, hright, hempty', hp, hq⟩
      rw [simplified_seq, ihp hp, ihq hq, joinSeq, if_neg (not_or.mpr ⟨hleft, hright⟩),
        if_neg hempty, if_neg hempty']
  | not p ih => rw [simplified_not, ih hp]
  | tagged name p ih => rw [simplified_tagged, ih hp]
  | _ => rfl

theorem simplified_simplified (p : Pattern) : p.simplified.simplified = p.simplified :=
  simplified_of_isNormal (isNormal_simplified p)

/-- The values that have the shape of a normal pattern are left alone as well. -/
theorem restore_of_isNormal (hp : p.IsNormal) (hv : p.HasShape v) :
    p.simplify.restore v = .ok v := by
  induction hv with
  | @left p q v _ ih | @right p q v _ ih =>
      rcases hp with ⟨hleft, hright, hne, hp, hq⟩
      have hpp : p.simplify.pattern = p := simplified_of_isNormal hp
      have hqq : q.simplify.pattern = q := simplified_of_isNormal hq
      -- Both sides are kept, so the value is taken apart again and its side restored.
      rw [simplify, hpp, hqq, if_neg hleft, if_neg (not_or.mpr ⟨hright, hne⟩)]
      simp only [ih ‹_›]
      rfl
  | @seq p q v w _ _ ihv ihw =>
      rcases hp with ⟨hleft, hempty, hright, hempty', hp, hq⟩
      have hpp : p.simplify.pattern = p := simplified_of_isNormal hp
      have hqq : q.simplify.pattern = q := simplified_of_isNormal hq
      rw [simplify, hpp, hqq, if_neg (not_or.mpr ⟨hleft, hright⟩), if_neg hempty, if_neg hempty']
      simp only [ihv hp, ihw hq]
      rfl
  | tagged name found _ ih =>
      rw [simplify]
      simp only [ih hp]
      rfl
  | _ => rfl

end Normal

section Size

theorem size_joinAlt_le : (joinAlt p q).size ≤ 1 + p.size + q.size := by
  rcases joinAlt_cases p q with ⟨-, h⟩ | ⟨-, h⟩ | ⟨-, h⟩
  · rw [h]
    omega
  · rw [h]
    omega
  · rw [h]
    exact Nat.le_refl _

theorem size_joinSeq_le : (joinSeq p q).size ≤ 1 + p.size + q.size := by
  have hnever : never.size = 1 := rfl
  rcases joinSeq_cases p q with ⟨-, h⟩ | ⟨-, h⟩ | ⟨-, h⟩ | ⟨-, h⟩
  · rw [h]
    omega
  · rw [h]
    omega
  · rw [h]
    omega
  · rw [h]
    exact Nat.le_refl _

/-- Only a choice whose sides are kept is as large as one. -/
theorem joinAlt_of_size (hsize : (joinAlt p q).size = 1 + p.size + q.size) :
    joinAlt p q = alt p q := by
  rcases joinAlt_cases p q with ⟨-, h⟩ | ⟨-, h⟩ | ⟨-, h⟩
  · rw [h] at hsize
    omega
  · rw [h] at hsize
    omega
  · exact h

/-- Only a sequence whose parts are kept is as large as one. -/
theorem joinSeq_of_size (hsize : (joinSeq p q).size = 1 + p.size + q.size) :
    joinSeq p q = seq p q := by
  have hnever : never.size = 1 := rfl
  have hp := p.size_pos
  have hq := q.size_pos
  rcases joinSeq_cases p q with ⟨-, h⟩ | ⟨-, h⟩ | ⟨-, h⟩ | ⟨-, h⟩
  · rw [h] at hsize
    omega
  · rw [h] at hsize
    omega
  · rw [h] at hsize
    omega
  · exact h

/-- Simplification never makes a pattern larger. -/
theorem size_simplified_le (p : Pattern) : p.simplified.size ≤ p.size := by
  induction p with
  | alt p q ihp ihq =>
      have hjoin := size_joinAlt_le (p := p.simplified) (q := q.simplified)
      rw [simplified_alt, size]
      omega
  | seq p q ihp ihq =>
      have hjoin := size_joinSeq_le (p := p.simplified) (q := q.simplified)
      rw [simplified_seq, size]
      omega
  | not p ih =>
      rw [simplified_not, size, size]
      omega
  | tagged name p ih =>
      rw [simplified_tagged, size, size]
      omega
  | _ => exact Nat.le_refl _

/-- A pattern that keeps its size was not changed. -/
theorem simplified_of_size (h : p.simplified.size = p.size) : p.simplified = p := by
  induction p with
  | alt p q ihp ihq =>
      have hjoin := size_joinAlt_le (p := p.simplified) (q := q.simplified)
      have hp := size_simplified_le p
      have hq := size_simplified_le q
      rw [simplified_alt, size] at h
      rw [simplified_alt, joinAlt_of_size (by omega), ihp (by omega), ihq (by omega)]
  | seq p q ihp ihq =>
      have hjoin := size_joinSeq_le (p := p.simplified) (q := q.simplified)
      have hp := size_simplified_le p
      have hq := size_simplified_le q
      rw [simplified_seq, size] at h
      rw [simplified_seq, joinSeq_of_size (by omega), ihp (by omega), ihq (by omega)]
  | not p ih =>
      rw [simplified_not, size, size] at h
      rw [simplified_not, ih (by omega)]
  | tagged name p ih =>
      rw [simplified_tagged, size, size] at h
      rw [simplified_tagged, ih (by omega)]
  | _ => rfl

end Size

/-- One pass gives a normal form, which a second pass leaves alone together with its values; and the
    size tells whether the pass did anything. -/
theorem simplify_reaches_normalForm (p : Pattern) :
    p.simplify.pattern.IsNormal ∧
      p.simplify.pattern.simplify.pattern = p.simplify.pattern ∧
      (∀ v, p.simplify.pattern.HasShape v → p.simplify.pattern.simplify.restore v = .ok v) ∧
      p.simplify.pattern.size ≤ p.size ∧
      (p.simplify.pattern.size = p.size → p.simplify.pattern = p) := by
  have hnormal : p.simplify.pattern.IsNormal := isNormal_simplified p
  refine ⟨hnormal, ?_, ?_, ?_, ?_⟩
  · exact simplified_of_isNormal hnormal
  · intro v hv
    exact restore_of_isNormal hnormal hv
  · exact size_simplified_le p
  · exact simplified_of_size

/-- The first side becomes nothing only when its parts are done, and then the two sides left are
    equal. What remains is behind a name, where values keep whatever name they have. -/
theorem simplify_reaches_normalForm_of_nested :
    (tagged "t" (alt (alt (seq (char 'a') (alt never never)) (char 'b'))
        (seq (alt empty empty) (char 'b')))).simplify.pattern = tagged "t" (char 'b') ∧
      (tagged "t" (char 'b')).HasShape (.tagged "u" (.char 'c')) ∧
      (tagged "t" (char 'b')).simplify.restore (.tagged "u" (.char 'c')) =
        .ok (.tagged "u" (.char 'c')) := by
  have hsimple : (tagged "t" (alt (alt (seq (char 'a') (alt never never)) (char 'b'))
      (seq (alt empty empty) (char 'b')))).simplify.pattern = tagged "t" (char 'b') := by decide
  have hshape : (tagged "t" (char 'b')).HasShape (.tagged "u" (.char 'c')) :=
    .tagged "t" "u" (.char 'b' 'c')
  have hrestore := (simplify_reaches_normalForm (tagged "t" (alt (alt (seq (char 'a')
    (alt never never)) (char 'b')) (seq (alt empty empty) (char 'b'))))).2.2.1
  rw [hsimple] at hrestore
  exact ⟨hsimple, hshape, hrestore _ hshape⟩

end Pattern

end WhileLang
