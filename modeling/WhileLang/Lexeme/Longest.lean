import WhileLang.Pattern.Residual

/-!
# The Longest Match

The longest non-empty beginning of a text that a pattern matches, with the
value by which it does. The text is read as long as anything of the pattern
is left, and the last place where the pattern was complete counts. The value
is then built on the way back from that place.

What was read beyond it stays unread: the beginning and the rest make up the
text again, and the rest is shorter than the text.

## Main definitions

* `Munch`: A text cut behind the longest match.
* `Pattern.longest`: The longest match at the beginning of a text.

## Theorems

* `Pattern.text_append_rest`: The match and the rest make up the text.
* `Pattern.text_ne_nil`: A match is not empty.
* `Pattern.length_rest_lt`: The rest is shorter than the text.
-/

namespace WhileLang

/-- A text cut behind a match at its beginning. -/
structure Munch where
  text : List Char
  value : Value
  rest : List Char

namespace Pattern

/-- The longest non-empty match at the beginning of the text, if there is one. -/
def longest (p : Pattern) : List Char → Except Mismatch (Option Munch)
  | [] => return none
  | c :: cs => do
    let next := p.step c
    if next.pattern = .never then return none
    -- A longer match wins; only if there is none does this place count.
    match ← next.pattern.longest cs with
    | some m => return some ⟨c :: m.text, ← next.restore m.value, m.rest⟩
    | none =>
      if next.pattern.isNullable then
        return some ⟨[c], ← next.restore (← next.pattern.emptyValue), cs⟩
      else return none

/-- How a longest match begins and goes on. -/
theorem longest_cons_eq_some {p : Pattern} {c : Char} {cs : List Char} {m : Munch}
    (h : p.longest (c :: cs) = .ok (some m)) :
    (∃ n, (p.step c).pattern.longest cs = .ok (some n) ∧ m.text = c :: n.text ∧ m.rest = n.rest) ∨
      (m.text = [c] ∧ m.rest = cs) := by
  rw [longest] at h
  split at h
  · simp [pure, Except.pure] at h
  · cases hl : (p.step c).pattern.longest cs with
    | error e => simp [hl, bind, Except.bind] at h
    | ok r =>
      rw [hl] at h
      cases r with
      -- A longer match was found, and this character is put in front of it.
      | some n =>
        cases hr : (p.step c).restore n.value with
        | error e => simp [hr, bind, Except.bind] at h
        | ok v =>
          simp only [hr, bind, Except.bind, pure, Except.pure, Except.ok.injEq,
            Option.some.injEq] at h
          exact .inl ⟨n, rfl, by rw [← h], by rw [← h]⟩
      -- No longer match was found, so the match is this character or there is none.
      | none =>
        dsimp only [bind, Except.bind] at h
        split at h
        · cases he : (p.step c).pattern.emptyValue with
          | error e => simp [he] at h
          | ok v =>
            cases hr : (p.step c).restore v with
            | error e => simp [he, hr] at h
            | ok w =>
              simp only [he, hr, pure, Except.pure, Except.ok.injEq, Option.some.injEq] at h
              exact .inr ⟨by rw [← h], by rw [← h]⟩
        · simp [pure, Except.pure] at h

/-- The match and the rest make up the text. -/
theorem text_append_rest {p : Pattern} {cs : List Char} {m : Munch}
    (h : p.longest cs = .ok (some m)) : m.text ++ m.rest = cs := by
  induction cs generalizing p m with
  | nil => simp [longest, pure, Except.pure] at h
  | cons c cs ih =>
    rcases longest_cons_eq_some h with ⟨n, hn, ht, hr⟩ | ⟨ht, hr⟩
    · rw [ht, hr, List.cons_append, ih hn]
    · rw [ht, hr, List.singleton_append]

/-- A match is not empty. -/
theorem text_ne_nil {p : Pattern} {cs : List Char} {m : Munch}
    (h : p.longest cs = .ok (some m)) : m.text ≠ [] := by
  cases cs with
  | nil => simp [longest, pure, Except.pure] at h
  | cons c cs =>
    rcases longest_cons_eq_some h with ⟨n, -, ht, -⟩ | ⟨ht, -⟩ <;>
      rw [ht] <;> exact List.cons_ne_nil _ _

/-- The rest is shorter than the text. -/
theorem length_rest_lt {p : Pattern} {cs : List Char} {m : Munch}
    (h : p.longest cs = .ok (some m)) : m.rest.length < cs.length := by
  have hpos := List.length_pos_iff.mpr (text_ne_nil h)
  rw [← text_append_rest h, List.length_append]
  omega

end Pattern

end WhileLang
