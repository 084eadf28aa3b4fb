/-!
# Blank Characters

The characters that may stand around a number on an input line without being
part of it: Unicode's `White_Space` property, as the ranges of the standard.

`trim` cuts a text down to its core, the part that neither begins nor ends
with a blank. The two lemmas at the end say so; together with the fact that
only blanks are cut they determine the result.

## Main definitions

* `isBlank`: A character has the `White_Space` property.
* `trim`: A text without the blanks at its two ends.

## Theorems

* `isBlank_of_isWhitespace`: The blanks of ASCII are blank.
* `head?_trim`: A trimmed text does not begin with a blank.
* `getLast?_trim`: A trimmed text does not end with a blank.
-/

namespace WhileLang

namespace Text

/-- The ranges of `White_Space`, first and last code point of each. -/
def blankRanges : List (Nat × Nat) :=
  [(0x09, 0x0D), (0x20, 0x20), (0x85, 0x85), (0xA0, 0xA0), (0x1680, 0x1680),
   (0x2000, 0x200A), (0x2028, 0x2029), (0x202F, 0x202F), (0x205F, 0x205F),
   (0x3000, 0x3000)]

/-- The character has Unicode's `White_Space` property. -/
def isBlank (c : Char) : Bool :=
  blankRanges.any fun r => r.1 ≤ c.toNat && c.toNat ≤ r.2

/-- Drops blanks from the end of a text. -/
def trimEnd : List Char → List Char
  | [] => []
  | c :: cs =>
    match trimEnd cs with
    -- Nothing but blanks follows, so this character decides for itself.
    | [] => if isBlank c then [] else [c]
    | d :: ds => c :: d :: ds

/-- Drops blanks from both ends of a text. -/
def trim (cs : List Char) : List Char :=
  trimEnd (cs.dropWhile isBlank)

/-- The white space of ASCII is blank. -/
theorem isBlank_of_isWhitespace (c : Char) (h : c.isWhitespace) : isBlank c := by
  simp only [Char.isWhitespace, Bool.or_eq_true, decide_eq_true_eq] at h
  rcases h with ((rfl | rfl) | rfl) | rfl <;> decide

/-- Trimming the end leaves the front alone unless everything goes. -/
theorem head?_trimEnd (cs : List Char) :
    (trimEnd cs).head? = none ∨ (trimEnd cs).head? = cs.head? := by
  cases cs with
  | nil => exact .inl rfl
  | cons c cs =>
    rw [trimEnd]
    split
    · split
      · exact .inl rfl
      · exact .inr rfl
    · exact .inr rfl

/-- What is left after trimming the end does not end with a blank. -/
theorem getLast?_trimEnd (cs : List Char) (c : Char)
    (h : (trimEnd cs).getLast? = some c) : isBlank c = false := by
  induction cs with
  | nil => simp [trimEnd] at h
  | cons d ds ih =>
    rw [trimEnd] at h
    split at h
    · split at h
      · simp at h
      · simp_all
    -- The last character of what is left is that of the rest.
    · next e es heq =>
      rw [heq] at ih
      exact ih (by simpa using h)

/-- A trimmed text does not end with a blank. -/
theorem getLast?_trim (cs : List Char) (c : Char)
    (h : (trim cs).getLast? = some c) : isBlank c = false :=
  getLast?_trimEnd _ c h

/-- A trimmed text does not begin with a blank. -/
theorem head?_trim (cs : List Char) (c : Char)
    (h : (trim cs).head? = some c) : isBlank c = false := by
  rcases head?_trimEnd (cs.dropWhile isBlank) with h0 | h0
  · rw [trim, h0] at h
    exact absurd h (by simp)
  · rw [trim, h0] at h
    have := List.head?_dropWhile_not isBlank cs
    rw [h] at this
    simpa using this

end Text

end WhileLang
