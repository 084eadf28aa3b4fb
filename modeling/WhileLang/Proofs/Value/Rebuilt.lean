import WhileLang.Proofs.Value.Preferred
import WhileLang.Value.OfText

/-!
# Values Built Backwards

The value of a match is built backwards along a chain of simplified
derivatives, and what comes out is the preferred value. It is so at the end of
the text, where `emptyValue` gives the preferred value of the empty text, and
it stays so through every step back.

A step back undoes two things. `restore` takes a preferred value of a
simplified pattern to one of the pattern it came from: a side that was removed
matches nothing, and of two equal sides the left one is preferred anyway.
`inject` takes a preferred value of a derivative to one of the pattern itself.
Here the greedy cuts have to be carried over, and they are, because what the
derivative matches is what the pattern matches behind the character.

None of these steps can fail on a preferred value, so a text that is matched
has a value.

## Theorems

* `Pattern.emptyValue_prefers`: The value of the empty text is the preferred one.
* `Pattern.inject_prefers`: Putting a character back keeps a value preferred.
* `Pattern.restore_prefers`: Undoing a simplification keeps a value preferred.
* `Pattern.step_prefers`: Both together.
* `Pattern.valueOf_prefers`: The value of a match is the preferred one.
-/

namespace WhileLang

section Built

variable {P Q R : Value → Prop} {x y : Except Mismatch Value}

/-- A value that is made of another one. -/
theorem exists_ok_map {f : Value → Value} (hx : ∃ v, x = .ok v ∧ P v) (hf : ∀ v, P v → Q (f v)) :
    ∃ w, (do return f (← x) : Except Mismatch Value) = .ok w ∧ Q w := by
  rcases hx with ⟨v, rfl, hv⟩
  exact ⟨f v, rfl, hf v hv⟩

/-- A value that is made of two others. -/
theorem exists_ok_map₂ {f : Value → Value → Value} (hx : ∃ v, x = .ok v ∧ P v)
    (hy : ∃ w, y = .ok w ∧ Q w) (hf : ∀ v w, P v → Q w → R (f v w)) :
    ∃ w, (do return f (← x) (← y) : Except Mismatch Value) = .ok w ∧ R w := by
  rcases hx with ⟨v, rfl, hv⟩
  rcases hy with ⟨w, rfl, hw⟩
  exact ⟨f v w, rfl, hf v w hv hw⟩

end Built

namespace Pattern

variable {p q r : Pattern} {c : Char} {cs : List Char} {v : Value}

/-- The rounds of a bounded repetition of the empty text. -/
theorem emptyRounds_prefers {n : Nat} (h : n = 0 ∨ p.isNullable = true)
    (ih : p.isNullable = true → ∃ v, p.emptyValue = .ok v ∧ p.Prefers [] v) :
    ∃ v, (if n = 0 then return .stars []
        else return .stars (List.replicate n (← p.emptyValue)) : Except Mismatch Value) =
      .ok (.stars (List.replicate n v)) ∧ (n ≠ 0 → p.Prefers [] v) := by
  by_cases hn : n = 0
  · -- No round is asked for, so the body need not match the empty text.
    refine ⟨.void, ?_, fun hne => absurd hn hne⟩
    rw [if_pos hn, hn]
    rfl
  · rcases ih (h.resolve_left hn) with ⟨v, hv, hpv⟩
    refine ⟨v, ?_, fun _ => hpv⟩
    rw [if_neg hn, hv]
    rfl

/-- The value of the empty text is the preferred one. -/
theorem emptyValue_prefers (h : p.isNullable = true) :
    ∃ v, p.emptyValue = .ok v ∧ p.Prefers [] v := by
  induction p with
  | never | char _ | oneOf _ | noneOf _ => exact absurd h Bool.false_ne_true
  | empty => exact ⟨.void, rfl, .empty⟩
  | alt p q ihp ihq =>
      rw [emptyValue]
      by_cases hp : p.isNullable = true
      · rw [if_pos hp]
        exact exists_ok_map (ihp hp) fun _ hv => .left hv
      · rw [if_neg hp]
        rw [isNullable, Bool.or_eq_true] at h
        exact exists_ok_map (ihq (h.resolve_left hp)) fun _ hv => .right hp hv
  | seq p q ihp ihq =>
      rw [isNullable, Bool.and_eq_true] at h
      exact exists_ok_map₂ (ihp h.1) (ihq h.2) fun _ _ hv hw => .seq rfl hv hw (greedy_nil p q [])
  | star p => exact ⟨.stars [], rfl, .starNil p⟩
  | opt p => exact ⟨.stars [], rfl, .optNil p⟩
  | not p =>
      rw [isNullable, Bool.not_eq_true'] at h
      exact ⟨.stars [], rfl, .not fun hp => Bool.false_ne_true (h.symm.trans hp)⟩
  | plus p ih => exact exists_ok_map (f := fun v => .stars [v]) (ih h) fun _ hv => .plusNil hv
  | times p n ih =>
      rw [isNullable, Bool.or_eq_true, beq_iff_eq] at h
      rcases emptyRounds_prefers h ih with ⟨v, hv, hpv⟩
      exact ⟨_, hv, .timesNil hpv⟩
  | range p n m ih =>
      rw [isNullable, Bool.or_eq_true, beq_iff_eq] at h
      rcases emptyRounds_prefers h ih with ⟨v, hv, hpv⟩
      exact ⟨_, hv, .rangeNil hpv⟩
  | tagged name p ih => exact exists_ok_map (ih h) fun _ hv => .tagged hv

theorem Round.inject_eq (hr : Round r p q) (c : Char) (v : Value) :
    r.inject c v = injectRound (p.inject c) v := by
  cases hr <;> rfl

/-- A round whose first character is put back is a round of the repetition. -/
theorem injectRound_prefers (hr : Round r p q)
    (ih : ∀ {cs v}, (p.derivative c).Prefers cs v →
      ∃ w, p.inject c v = .ok w ∧ p.Prefers (c :: cs) w)
    (h : (r.derivative c).Prefers cs v) :
    ∃ w, r.inject c v = .ok w ∧ r.Prefers (c :: cs) w := by
  rw [hr.derivative_eq] at h
  rw [hr.inject_eq]
  cases h with
  | @seq _ _ _ u t v w hcs hv hw hg =>
      rcases hr.exists_stars hw with ⟨vs, rfl⟩
      have hround : c :: u ++ t = c :: cs := congrArg (c :: ·) hcs
      exact exists_ok_map (f := fun x => .stars (x :: vs)) (ih hv) fun x hx =>
        .round hr hround (List.cons_ne_nil c u) hx hw hg
  | round hr' => cases hr'

/-- The derivative of a pattern of single characters has only the empty text. -/
theorem prefers_ite {P : Prop} [Decidable P]
    (h : (if P then Pattern.empty else never).Prefers cs v) : P ∧ cs = [] ∧ v = .void := by
  split at h
  · next hP =>
    cases h with
    | empty => exact ⟨hP, rfl, rfl⟩
    | round hr => cases hr
  · exact absurd h.matches (not_matches_never cs)

/-- Of a sequence, the first part took the character. -/
theorem injectHead_prefers
    (ih : ∀ {cs v}, (p.derivative c).Prefers cs v →
      ∃ w, p.inject c v = .ok w ∧ p.Prefers (c :: cs) w)
    (h : (seq (p.derivative c) q).Prefers cs v) :
    ∃ v₁ v₂, v = .seq v₁ v₂ ∧
      ∃ w, (do return .seq (← p.inject c v₁) v₂ : Except Mismatch Value) = .ok w ∧
        (seq p q).Prefers (c :: cs) w := by
  cases h with
  | @seq _ _ _ u t v₁ v₂ hcs hv hw hg =>
      have hfirst : c :: u ++ t = c :: cs := congrArg (c :: ·) hcs
      exact ⟨v₁, v₂, rfl, exists_ok_map (ih hv) fun w hpw => .seq hfirst hpw hw hg⟩
  | round hr => cases hr

/-- Of a sequence, the second part took the character, because the first part could not. -/
theorem injectTail_prefers (hnil : p.isNullable = true)
    (hp : ¬ (seq (p.derivative c) q).Matches cs)
    (h : ∃ w, q.inject c v = .ok w ∧ q.Prefers (c :: cs) w) :
    ∃ w, (seq p q).inject c (.right v) = .ok w ∧ (seq p q).Prefers (c :: cs) w := by
  have hg : Greedy p q [] (c :: cs) := by
    intro x y hx hxy hpx hqy
    cases x with
    | nil => exact hx rfl
    | cons d x =>
        -- If the first part could take more, its derivative would match on the left.
        rcases List.cons.inj hxy with ⟨rfl, rfl⟩
        exact hp (matches_seq.mpr ⟨x, y, rfl, hpx, hqy⟩)
  exact exists_ok_map₂ (emptyValue_prefers hnil) h fun _ _ hv hw => .seq (List.nil_append _) hv hw hg

/-- Putting a character back keeps a value preferred. -/
theorem inject_prefers (h : (p.derivative c).Prefers cs v) :
    ∃ w, p.inject c v = .ok w ∧ p.Prefers (c :: cs) w := by
  induction p generalizing cs v with
  | never | empty => exact absurd h.matches (not_matches_never cs)
  | char d =>
      rw [derivative] at h
      rcases prefers_ite h with ⟨rfl, rfl, rfl⟩
      exact ⟨.char d, rfl, .char d⟩
  | oneOf s =>
      rw [derivative] at h
      rcases prefers_ite h with ⟨hc, rfl, rfl⟩
      exact ⟨.char c, rfl, .oneOf hc⟩
  | noneOf s =>
      rw [derivative, ← ite_not] at h
      rcases prefers_ite h with ⟨hc, rfl, rfl⟩
      exact ⟨.char c, rfl, .noneOf hc⟩
  | alt p q ihp ihq =>
      cases h with
      | left hv => exact exists_ok_map (ihp hv) fun _ hw => .left hw
      | right hp hv => exact exists_ok_map (ihq hv) fun _ hw => .right hp hw
      | round hr => cases hr
  | seq p q ihp ihq =>
      rw [derivative] at h
      split at h
      · next hnil =>
        cases h with
        | left hv =>
            rcases injectHead_prefers ihp hv with ⟨v₁, v₂, rfl, hw⟩
            exact hw
        | right hp hv => exact injectTail_prefers hnil hp (ihq hv)
        | round hr => cases hr
      · rcases injectHead_prefers ihp h with ⟨v₁, v₂, rfl, hw⟩
        exact hw
  | star p ih => exact injectRound_prefers (.star p) ih h
  | plus p ih => exact injectRound_prefers (.plus p) ih h
  | times p n ih =>
      cases n with
      | zero => exact absurd h.matches (not_matches_never cs)
      | succ n => exact injectRound_prefers (.times p n) ih h
  | range p n m ih =>
      cases m with
      | zero => exact absurd h.matches (not_matches_never cs)
      | succ m => exact injectRound_prefers (.range p n m) ih h
  | opt p ih =>
      exact exists_ok_map (f := fun w => .stars [w]) (ih h) fun _ hw =>
        .optSome (List.cons_ne_nil c cs) hw
  | not p ih =>
      cases h with
      | not hp => exact ⟨.stars ((c :: cs).map .char), rfl, .not hp⟩
      | round hr => cases hr
  | tagged name p ih => exact exists_ok_map (ih h) fun _ hw => .tagged hw

/-- Undoing the simplification of a choice, whose sides may have been removed. -/
theorem restore_alt_prefers
    (ihp : ∀ {cs v}, p.simplify.pattern.Prefers cs v →
      ∃ w, p.simplify.restore v = .ok w ∧ p.Prefers cs w)
    (ihq : ∀ {cs v}, q.simplify.pattern.Prefers cs v →
      ∃ w, q.simplify.restore v = .ok w ∧ q.Prefers cs w)
    (h : (alt p q).simplify.pattern.Prefers cs v) :
    ∃ w, (alt p q).simplify.restore v = .ok w ∧ (alt p q).Prefers cs w := by
  rw [simplify] at h ⊢
  by_cases hp : p.simplify.pattern = never
  · rw [if_pos hp] at h ⊢
    -- The left side matches nothing, so the text is one of the right side.
    have hnot : ¬ p.Matches cs := by
      rw [← matches_simplify, hp]
      exact not_matches_never cs
    exact exists_ok_map (ihq h) fun _ hw => .right hnot hw
  · rw [if_neg hp] at h ⊢
    by_cases hq : q.simplify.pattern = never ∨ p.simplify.pattern = q.simplify.pattern
    · rw [if_pos hq] at h ⊢
      exact exists_ok_map (ihp h) fun _ hw => .left hw
    · rw [if_neg hq] at h ⊢
      cases h with
      | left hv => exact exists_ok_map (ihp hv) fun _ hw => .left hw
      | right hnot hv =>
          rw [matches_simplify] at hnot
          exact exists_ok_map (ihq hv) fun _ hw => .right hnot hw
      | round hr => cases hr

/-- Undoing the simplification of a sequence, whose parts may have been removed. -/
theorem restore_seq_prefers
    (ihp : ∀ {cs v}, p.simplify.pattern.Prefers cs v →
      ∃ w, p.simplify.restore v = .ok w ∧ p.Prefers cs w)
    (ihq : ∀ {cs v}, q.simplify.pattern.Prefers cs v →
      ∃ w, q.simplify.restore v = .ok w ∧ q.Prefers cs w)
    (h : (seq p q).simplify.pattern.Prefers cs v) :
    ∃ w, (seq p q).simplify.restore v = .ok w ∧ (seq p q).Prefers cs w := by
  rw [simplify] at h ⊢
  by_cases hnever : p.simplify.pattern = never ∨ q.simplify.pattern = never
  · rw [if_pos hnever] at h
    exact absurd h.matches (not_matches_never cs)
  · rw [if_neg hnever] at h ⊢
    by_cases hp : p.simplify.pattern = empty
    · rw [if_pos hp] at h ⊢
      -- The first part takes nothing, and its value is that of the empty text.
      have hvoid : p.simplify.pattern.Prefers [] .void := by
        rw [hp]
        exact .empty
      have hg : Greedy p q [] cs := by
        intro x y hx _ hpx
        rw [List.nil_append, ← matches_simplify, hp, matches_empty] at hpx
        exact absurd hpx hx
      exact exists_ok_map₂ (ihp hvoid) (ihq h) fun _ _ hv hw => .seq (List.nil_append cs) hv hw hg
    · rw [if_neg hp] at h ⊢
      by_cases hq : q.simplify.pattern = empty
      · rw [if_pos hq] at h ⊢
        have hvoid : q.simplify.pattern.Prefers [] .void := by
          rw [hq]
          exact .empty
        exact exists_ok_map₂ (ihp h) (ihq hvoid) fun _ _ hv hw =>
          .seq (List.append_nil cs) hv hw (greedy_nil p q cs)
      · rw [if_neg hq] at h ⊢
        cases h with
        | @seq _ _ _ u t _ _ hcs hv hw hg =>
            have hg' : Greedy p q u t := by
              intro x y hx hxy hpx hqy
              rw [← matches_simplify] at hpx hqy
              exact hg x y hx hxy hpx hqy
            exact exists_ok_map₂ (ihp hv) (ihq hw) fun _ _ hv hw => .seq hcs hv hw hg'
        | round hr => cases hr

/-- Undoing a simplification keeps a value preferred. -/
theorem restore_prefers (h : p.simplify.pattern.Prefers cs v) :
    ∃ w, p.simplify.restore v = .ok w ∧ p.Prefers cs w := by
  induction p generalizing cs v with
  | alt p q ihp ihq => exact restore_alt_prefers ihp ihq h
  | seq p q ihp ihq => exact restore_seq_prefers ihp ihq h
  | tagged name p ih =>
      rw [simplify] at h ⊢
      cases h with
      | tagged hv => exact exists_ok_map (ih hv) fun _ hw => .tagged hw
      | round hr => cases hr
  | not p ih =>
      rw [simplify] at h ⊢
      cases h with
      | not hp =>
          rw [matches_simplify] at hp
          exact ⟨_, rfl, .not hp⟩
      | round hr => cases hr
  | _ => exact ⟨v, rfl, h⟩

/-- The step from a pattern to what is left after a character, and back. -/
theorem step_prefers (h : (p.step c).pattern.Prefers cs v) :
    ∃ w, (p.step c).restore v = .ok w ∧ p.Prefers (c :: cs) w := by
  rcases restore_prefers h with ⟨x, hx, hpx⟩
  rcases inject_prefers hpx with ⟨w, hw, hpw⟩
  refine ⟨w, ?_, hpw⟩
  rw [step]
  dsimp only
  rw [hx]
  exact hw

/-- The value of a match is the preferred one. -/
theorem valueOf_prefers (h : p.Matches cs) : ∃ v, p.valueOf cs = .ok v ∧ p.Prefers cs v := by
  induction cs generalizing p with
  | nil => exact emptyValue_prefers h
  | cons c cs ih =>
      have hstep : (p.step c).pattern.Matches cs := (matches_simplify (p.derivative c) cs).mpr h
      rcases ih hstep with ⟨v, hv, hpv⟩
      rcases step_prefers hpv with ⟨w, hw, hpw⟩
      refine ⟨w, ?_, hpw⟩
      rw [valueOf, hv]
      exact hw

end Pattern

end WhileLang
