import WhileLang.Proofs.Value.Simplified

/-!
# Which Patterns Have a Value for the Empty Text

The value of the empty text is found by going down the pattern: into the side
of a choice that is preferred, into both parts of a sequence, and into the
body of whatever goes at least one round. The search ends in parts that are
asked nothing more, and `emptyParts` lists them. A pattern matches the empty
text if all of these do.

Whether there is a value is asked of the same parts, with one difference. The
search takes a complement for one that matches the empty text and does not
look at its body. So there is a value if all the parts match the empty text or
are complements, and otherwise the first one that is neither is what the
mismatch names. A pattern that matches the empty text always has its value; of
the others, those have one that only a complement keeps from matching.

Over a whole text the same is asked of what is left of the pattern behind it.
Taking a derivative and simplifying bring no complement in, so a pattern
without complements has a value for the texts that it accepts and for no
others.

## Main definitions

* `Pattern.emptyParts`: The parts in which the search for the value ends.
* `Pattern.refusing?`: The first part that has no value.
* `Pattern.Overlooks`: A complement is wrongly taken to match the empty text.
* `Pattern.hasComplement`: There is a complement in the pattern.

## Theorems

* `Pattern.isNullable_eq_all_emptyParts`: The parts decide about the empty text.
* `Pattern.endsIn_emptyValue`: What the search comes to.
* `Pattern.hasComplement_derivative`, `Pattern.hasComplement_simplify`: No
  complement is brought in.
* `Pattern.emptyValue_exists_iff`: Which patterns have a value, for the empty
  text and for others.
* `Pattern.not_empty_has_emptyValue`: A complement that is overlooked.
-/

namespace WhileLang

namespace Pattern

/-- The parts of a pattern in which the search for the value of the empty text ends. -/
def emptyParts : Pattern → List Pattern
  | .alt p q => if p.isNullable then p.emptyParts else q.emptyParts
  | .seq p q => p.emptyParts ++ q.emptyParts
  | .plus p | .tagged _ p => p.emptyParts
  -- If no round is asked for, the body is not looked at.
  | .times p n | .range p n _ => if n = 0 then [] else p.emptyParts
  | p => [p]

/-- The pattern is a complement. -/
def isComplement : Pattern → Bool
  | .not _ => true
  | _ => false

/-- There is a complement in the pattern. -/
def hasComplement : Pattern → Bool
  | .never | .empty | .char _ | .oneOf _ | .noneOf _ => false
  | .alt p q | .seq p q => p.hasComplement || q.hasComplement
  | .star p | .plus p | .opt p | .times p _ | .range p _ _ | .tagged _ p => p.hasComplement
  | .not _ => true

/-- The first part that neither matches the empty text nor is a complement. -/
def refusing? (p : Pattern) : Option Pattern :=
  p.emptyParts.find? fun q => !(q.isNullable || q.isComplement)

/-- One of the parts is a complement that does not match the empty text. -/
def Overlooks (p : Pattern) : Prop :=
  ∃ q, .not q ∈ p.emptyParts ∧ q.isNullable = true

/-- A search for a value ends in a part that has none, or with a value if there is no such part. -/
def EndsIn (x : Except Mismatch Value) : Option Pattern → Prop
  | none => ∃ v, x = .ok v
  | some q => x = .error (.notNullable q)

section Search

variable {x y : Except Mismatch Value} {a b : Option Pattern}

theorem EndsIn.map {f : Value → Value} (hx : EndsIn x a) :
    EndsIn (do return f (← x)) a := by
  cases a with
  | none =>
      obtain ⟨v, rfl⟩ := hx
      exact ⟨f v, rfl⟩
  | some q =>
      have hx' : x = .error (.notNullable q) := hx
      rw [hx']
      rfl

/-- The first of two searches is over before the second one begins. -/
theorem EndsIn.map₂ {f : Value → Value → Value} (hx : EndsIn x a) (hy : EndsIn y b) :
    EndsIn (do return f (← x) (← y)) (a.or b) := by
  cases a with
  | none =>
      obtain ⟨v, rfl⟩ := hx
      exact hy.map
  | some q =>
      have hx' : x = .error (.notNullable q) := hx
      rw [hx']
      rfl

end Search

variable {p q : Pattern} {c : Char} {cs : List Char} {v : Value}

section EmptyText

/-- A pattern matches the empty text if its parts do. -/
theorem isNullable_eq_all_emptyParts (p : Pattern) :
    p.isNullable = p.emptyParts.all isNullable := by
  induction p with
  | alt p q ihp ihq =>
      by_cases hp : p.isNullable = true
      · simp [isNullable, emptyParts, hp, ← ihp]
      · simp [isNullable, emptyParts, hp, ← ihq]
  | seq p q ihp ihq => simp [isNullable, emptyParts, ihp, ihq]
  | plus p ih | tagged name p ih => simpa [isNullable, emptyParts] using ih
  | times p n ih | range p n m ih =>
      by_cases hn : n = 0
      · simp [isNullable, emptyParts, hn]
      · have hzero : (n == 0) = false := beq_eq_false_iff_ne.mpr hn
        simpa [isNullable, emptyParts, hn, hzero] using ih
  | _ => simp [isNullable, emptyParts]

/-- The rounds of a bounded repetition of the empty text. -/
theorem endsIn_emptyRounds {n : Nat} (ih : EndsIn p.emptyValue p.refusing?) :
    EndsIn (if n = 0 then return .stars [] else return .stars (List.replicate n (← p.emptyValue)))
      ((if n = 0 then [] else p.emptyParts).find? fun q => !(q.isNullable || q.isComplement)) := by
  by_cases hn : n = 0
  · rw [if_pos hn, if_pos hn]
    exact ⟨.stars [], rfl⟩
  · rw [if_neg hn, if_neg hn]
    exact ih.map (f := fun v => .stars (List.replicate n v))

/-- The search for the value of the empty text ends in the first part that has none. -/
theorem endsIn_emptyValue (p : Pattern) : EndsIn p.emptyValue p.refusing? := by
  induction p with
  | never | char _ | oneOf _ | noneOf _ => rfl
  | empty | star _ | opt _ => exact ⟨_, rfl⟩
  | not p =>
      -- Whatever the body is, the complement is let through.
      have hnone : refusing? (.not p) = none := by simp [refusing?, emptyParts, isComplement]
      rw [hnone]
      exact ⟨.stars [], rfl⟩
  | alt p q ihp ihq =>
      rw [emptyValue, refusing?, emptyParts]
      by_cases hp : p.isNullable = true
      · rw [if_pos hp, if_pos hp]
        exact ihp.map
      · rw [if_neg hp, if_neg hp]
        exact ihq.map
  | seq p q ihp ihq =>
      rw [refusing?, emptyParts, List.find?_append]
      exact ihp.map₂ ihq
  | plus p ih => exact ih.map (f := fun v => .stars [v])
  | tagged name p ih => exact ih.map
  | times p n ih | range p n m ih => exact endsIn_emptyRounds ih

/-- The search fails if there is a part that refuses, and names the first one. -/
theorem emptyValue_eq_error_iff {e : Mismatch} :
    p.emptyValue = .error e ↔ ∃ q, p.refusing? = some q ∧ e = .notNullable q := by
  have hends := endsIn_emptyValue p
  cases hr : p.refusing? with
  | none =>
      rw [hr] at hends
      obtain ⟨v, hv⟩ := hends
      rw [hv]
      exact iff_of_false nofun nofun
  | some q =>
      rw [hr] at hends
      have herror : p.emptyValue = .error (.notNullable q) := hends
      simp [herror, eq_comm]

/-- There is a value if no part refuses. -/
theorem exists_emptyValue_iff :
    (∃ v, p.emptyValue = .ok v) ↔
      ∀ q ∈ p.emptyParts, q.isNullable = true ∨ q.isComplement = true := by
  have hnone : p.refusing? = none ↔
      ∀ q ∈ p.emptyParts, q.isNullable = true ∨ q.isComplement = true := by
    simp only [refusing?, List.find?_eq_none, Bool.not_eq_true', Bool.not_eq_false,
      Bool.or_eq_true]
  rw [← hnone]
  cases hp : p.emptyValue with
  | ok v =>
      refine iff_of_true ⟨v, rfl⟩ (Option.eq_none_iff_forall_ne_some.mpr fun q hq => ?_)
      cases hp.symm.trans (emptyValue_eq_error_iff.mpr ⟨q, hq, rfl⟩)
  | error e =>
      obtain ⟨q, hq, -⟩ := emptyValue_eq_error_iff.mp hp
      rw [hq]
      exact iff_of_false nofun nofun

/-- A pattern that has a value matches the empty text, or a complement is overlooked. -/
theorem isNullable_or_overlooks (h : p.emptyValue = .ok v) :
    p.isNullable = true ∨ p.Overlooks := by
  have hparts := exists_emptyValue_iff.mp ⟨v, h⟩
  by_cases hover : p.Overlooks
  · exact Or.inr hover
  · rw [isNullable_eq_all_emptyParts, List.all_eq_true]
    refine Or.inl fun q hq => ?_
    cases q with
    | not b =>
        -- If the body matched the empty text, this would be the complement that is overlooked.
        have hb : b.isNullable = false := by
          rw [← Bool.not_eq_true]
          exact fun hb => hover ⟨b, hq, hb⟩
        rw [isNullable, hb, Bool.not_false]
    | _ => exact (hparts _ hq).resolve_right Bool.false_ne_true

end EmptyText

section Complements

/-- The parts of a pattern without complements are without them as well. -/
theorem hasComplement_of_mem_emptyParts (hq : q ∈ p.emptyParts) (h : q.hasComplement = true) :
    p.hasComplement = true := by
  induction p with
  | alt p₁ p₂ ih₁ ih₂ =>
      rw [hasComplement, Bool.or_eq_true]
      rw [emptyParts] at hq
      split at hq
      · exact Or.inl (ih₁ hq)
      · exact Or.inr (ih₂ hq)
  | seq p₁ p₂ ih₁ ih₂ =>
      rw [hasComplement, Bool.or_eq_true]
      rw [emptyParts, List.mem_append] at hq
      exact hq.imp ih₁ ih₂
  | plus p ih | tagged name p ih => exact ih hq
  | times p n ih | range p n m ih =>
      rw [emptyParts] at hq
      split at hq
      · cases hq
      · exact ih hq
  | _ =>
      -- The search ends here, and the part is the pattern itself.
      obtain rfl := List.mem_singleton.mp hq
      exact h

theorem not_overlooks (h : p.hasComplement = false) : ¬ p.Overlooks := by
  intro hp
  obtain ⟨q, hq, -⟩ := hp
  have hcomplement := hasComplement_of_mem_emptyParts hq rfl
  rw [h] at hcomplement
  cases hcomplement

/-- A derivative brings no complement in. -/
theorem hasComplement_derivative (c : Char) (h : p.hasComplement = false) :
    (p.derivative c).hasComplement = false := by
  induction p with
  | never | empty => rfl
  | char d | oneOf s | noneOf s =>
      rw [derivative]
      split <;> rfl
  | alt p q ihp ihq =>
      simp only [hasComplement, Bool.or_eq_false_iff] at h
      simp [derivative, hasComplement, ihp h.1, ihq h.2]
  | seq p q ihp ihq =>
      simp only [hasComplement, Bool.or_eq_false_iff] at h
      rw [derivative]
      split <;> simp [hasComplement, ihp h.1, ihq h.2, h.2]
  | star p ih | plus p ih =>
      have hp : p.hasComplement = false := h
      simp [derivative, hasComplement, ih hp, hp]
  | opt p ih | tagged name p ih => exact ih h
  | times p n ih | range p n m ih =>
      have hp : p.hasComplement = false := h
      rw [derivative]
      split <;> simp [hasComplement, ih hp, hp]
  | not p => cases h

/-- Simplifying brings no complement in. -/
theorem hasComplement_simplify (h : p.hasComplement = false) :
    p.simplify.pattern.hasComplement = false := by
  induction p with
  | alt p q ihp ihq =>
      simp only [hasComplement, Bool.or_eq_false_iff] at h
      rw [simplify]
      split
      · exact ihq h.2
      · split
        · exact ihp h.1
        · simp [hasComplement, ihp h.1, ihq h.2]
  | seq p q ihp ihq =>
      simp only [hasComplement, Bool.or_eq_false_iff] at h
      rw [simplify]
      split
      · rfl
      · split
        · exact ihq h.2
        · split
          · exact ihp h.1
          · simp [hasComplement, ihp h.1, ihq h.2]
  | tagged name p ih => exact ih h
  | not p => cases h
  | _ => exact h

theorem hasComplement_residual (h : p.hasComplement = false) :
    (p.residual cs).hasComplement = false := by
  induction cs generalizing p with
  | nil => exact h
  | cons c cs ih =>
      rw [residual_cons]
      exact ih (hasComplement_simplify (hasComplement_derivative c h))

theorem hasComplement_derivatives (h : p.hasComplement = false) :
    (p.derivatives cs).hasComplement = false := by
  induction cs generalizing p with
  | nil => exact h
  | cons c cs ih => exact ih (hasComplement_derivative c h)

end Complements

section Texts

/-- A value is built back from one of the empty text, for what is left behind the text. -/
theorem exists_emptyValue_residual (h : p.valueOf cs = .ok v) :
    ∃ w, (p.residual cs).emptyValue = .ok w := by
  induction cs generalizing p v with
  | nil => exact ⟨v, h⟩
  | cons c cs ih =>
      rw [residual_cons]
      rw [valueOf] at h
      cases hrest : (p.step c).pattern.valueOf cs with
      | ok w => exact ih hrest
      | error e =>
          rw [hrest] at h
          cases h

theorem exists_emptyValue_derivatives (h : p.plainValueOf cs = .ok v) :
    ∃ w, (p.derivatives cs).emptyValue = .ok w := by
  induction cs generalizing p v with
  | nil => exact ⟨v, h⟩
  | cons c cs ih =>
      rw [plainValueOf] at h
      cases hrest : (p.derivative c).plainValueOf cs with
      | ok w => exact ih hrest
      | error e =>
          rw [hrest] at h
          cases h

/-- Only a text that is accepted has a value, unless a complement was overlooked. -/
theorem accepts_or_overlooks (h : p.valueOf cs = .ok v) :
    p.accepts cs = true ∨ (p.residual cs).Overlooks := by
  obtain ⟨w, hw⟩ := exists_emptyValue_residual h
  exact isNullable_or_overlooks hw

theorem accepts_or_overlooks_plain (h : p.plainValueOf cs = .ok v) :
    p.accepts cs = true ∨ (p.derivatives cs).Overlooks := by
  obtain ⟨w, hw⟩ := exists_emptyValue_derivatives h
  rw [accepts_eq_isNullable_derivatives]
  exact isNullable_or_overlooks hw

/-- A text that is accepted has a value, built either way. -/
theorem exists_value_of_accepts (h : p.accepts cs = true) :
    ∃ v, p.valueOf cs = .ok v ∧ p.plainValueOf cs = .ok v := by
  have hmatches : p.Matches cs := accepts_iff_matches.mp h
  obtain ⟨v, hv, -⟩ := valueOf_prefers hmatches
  exact ⟨v, hv, (plainValueOf_eq_valueOf hmatches).trans hv⟩

end Texts

/-- There is a value for the empty text if all parts in which the search ends match it or are
    complements, and otherwise the first part that is neither is named as the cause. A text that is
    accepted has a value, and a text that has one is accepted unless a complement was overlooked
    behind it. Without complements it is the texts that are accepted that have a value. -/
theorem emptyValue_exists_iff (p : Pattern) :
    ((∃ v, p.emptyValue = .ok v) ↔
      ∀ q ∈ p.emptyParts, q.isNullable = true ∨ q.isComplement = true) ∧
    (p.isNullable = true ↔ ∀ q ∈ p.emptyParts, q.isNullable = true) ∧
    (∀ e, p.emptyValue = .error e ↔ ∃ q, p.refusing? = some q ∧ e = .notNullable q) ∧
    (∀ cs, p.accepts cs = true → ∃ v, p.valueOf cs = .ok v ∧ p.plainValueOf cs = .ok v) ∧
    (∀ cs v, (p.valueOf cs = .ok v → p.accepts cs = true ∨ (p.residual cs).Overlooks) ∧
      (p.plainValueOf cs = .ok v → p.accepts cs = true ∨ (p.derivatives cs).Overlooks)) ∧
    (p.hasComplement = false → ((∃ v, p.emptyValue = .ok v) ↔ p.isNullable = true) ∧
      ∀ cs, ((∃ v, p.valueOf cs = .ok v) ↔ p.accepts cs = true) ∧
        ((∃ v, p.plainValueOf cs = .ok v) ↔ p.accepts cs = true)) := by
  refine ⟨exists_emptyValue_iff, ?_, fun e => ?_, fun cs h => exists_value_of_accepts h,
    fun cs v => ⟨accepts_or_overlooks, accepts_or_overlooks_plain⟩, fun hnone => ⟨?_, fun cs => ?_⟩⟩
  · rw [isNullable_eq_all_emptyParts, List.all_eq_true]
  · exact emptyValue_eq_error_iff
  · constructor
    · rintro ⟨v, hv⟩
      exact (isNullable_or_overlooks hv).resolve_right (not_overlooks hnone)
    · intro hp
      obtain ⟨v, hv, -⟩ := emptyValue_prefers hp
      exact ⟨v, hv⟩
  · refine ⟨⟨?_, ?_⟩, ?_, ?_⟩
    · rintro ⟨v, hv⟩
      exact (accepts_or_overlooks hv).resolve_right (not_overlooks (hasComplement_residual hnone))
    · intro h
      obtain ⟨v, hv, -⟩ := exists_value_of_accepts h
      exact ⟨v, hv⟩
    · rintro ⟨v, hv⟩
      exact (accepts_or_overlooks_plain hv).resolve_right
        (not_overlooks (hasComplement_derivatives hnone))
    · intro h
      obtain ⟨v, -, hv⟩ := exists_value_of_accepts h
      exact ⟨v, hv⟩

/-- A character behind a complement that matches the empty text is what refuses; an option has no
    complement in it. -/
theorem emptyValue_exists_iff_of_parts :
    (seq (not (char 'a')) (char 'b')).emptyValue = .error (.notNullable (char 'b')) ∧
      (opt (char 'a')).hasComplement = false ∧
      ∃ v, (opt (char 'a')).valueOf ['a'] = .ok v := by
  have hrefusing : (seq (not (char 'a')) (char 'b')).refusing? = some (char 'b') := by decide
  have hnone : (opt (char 'a')).hasComplement = false := rfl
  have haccepts : (opt (char 'a')).accepts ['a'] = true := by decide
  obtain ⟨-, -, herror, -⟩ := emptyValue_exists_iff (seq (not (char 'a')) (char 'b'))
  obtain ⟨-, -, -, -, -, hiff⟩ := emptyValue_exists_iff (opt (char 'a'))
  refine ⟨(herror _).mpr ⟨char 'b', hrefusing, rfl⟩, hnone, ?_⟩
  exact ((hiff hnone).2 ['a']).1.mpr haccepts

/-- Nothing but the empty text is kept from matching here, but it has a value. -/
theorem not_empty_has_emptyValue :
    (not empty).isNullable = false ∧ (not empty).emptyValue = .ok (.stars []) ∧
      (not empty).accepts [] = false ∧ (not empty).valueOf [] = .ok (.stars []) :=
  ⟨rfl, rfl, rfl, rfl⟩

end Pattern

end WhileLang
