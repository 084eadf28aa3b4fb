/-!
# Sets of Characters

Finite sets of characters, kept as their members in ascending order. The
order makes two sets with the same members equal, so that patterns built from
them can be compared, and it is the order in which a set is printed.

## Main definitions

* `CharSet`: A finite set of characters.
* `CharSet.insert`: A set with one more member.
* `CharSet.ofList`: The set of the characters of a list.
* `CharSet.between`: The set of all characters between two bounds.

## Theorems

* `CharSet.ext`: Sets with the same members are equal.
* `CharSet.mem_insert`: Membership after an insertion.
* `CharSet.mem_ofList`: Membership in the set of a list.
-/

namespace WhileLang

/-- A finite set of characters. -/
structure CharSet where
  chars : List Char
  ascending : chars.Pairwise (· < ·)
deriving DecidableEq

namespace CharSet

instance : Membership Char CharSet := ⟨fun s c => c ∈ s.chars⟩

instance (c : Char) (s : CharSet) : Decidable (c ∈ s) :=
  inferInstanceAs (Decidable (c ∈ s.chars))

/-- The set without members. -/
def empty : CharSet := ⟨[], .nil⟩

instance : Inhabited CharSet := ⟨empty⟩

/-- Puts a character in its place, unless it is there already. -/
def insertChar (c : Char) : List Char → List Char
  | [] => [c]
  | d :: ds => if c < d then c :: d :: ds else if c = d then d :: ds else d :: insertChar c ds

theorem mem_insertChar (c d : Char) (ds : List Char) :
    d ∈ insertChar c ds ↔ d = c ∨ d ∈ ds := by
  induction ds with
  | nil => simp only [insertChar, List.mem_cons, List.not_mem_nil, or_false]
  | cons e es ih =>
    rw [insertChar]
    split
    · rw [List.mem_cons]
    · split
      · next h =>
        rw [List.mem_cons, h, or_self_left]
      · rw [List.mem_cons, ih, List.mem_cons, or_left_comm]

theorem pairwise_insertChar (c : Char) (ds : List Char) (h : ds.Pairwise (· < ·)) :
    (insertChar c ds).Pairwise (· < ·) := by
  induction ds with
  | nil => exact List.pairwise_singleton _ _
  | cons d ds ih =>
    rw [List.pairwise_cons] at h
    rw [insertChar]
    split
    -- The character goes in front of the first member, and so of all others.
    · next hlt =>
      refine List.pairwise_cons.mpr ⟨fun e he => ?_, List.pairwise_cons.mpr h⟩
      rcases List.mem_cons.mp he with rfl | he
      · exact hlt
      · exact Char.lt_trans hlt (h.1 e he)
    · split
      · exact List.pairwise_cons.mpr h
      -- The character goes further down; the first member stays below it.
      · next hle hne =>
        refine List.pairwise_cons.mpr ⟨fun e he => ?_, ih h.2⟩
        rcases (mem_insertChar c e ds).mp he with rfl | he
        · exact Char.not_le.mp fun h => hne (Char.le_antisymm (Char.not_lt.mp hle) h).symm
        · exact h.1 e he

/-- The set with one more member. -/
def insert (c : Char) (s : CharSet) : CharSet :=
  ⟨insertChar c s.chars, pairwise_insertChar c s.chars s.ascending⟩

/-- The set of the characters of a list. -/
def ofList (cs : List Char) : CharSet :=
  cs.foldr insert empty

/-- The set of all characters from the first to the second one. -/
def between (lo hi : Char) : CharSet :=
  ofList <| (List.range' lo.toNat (hi.toNat + 1 - lo.toNat)).filterMap fun n =>
    -- The surrogates between the bounds are no characters.
    if h : n.isValidChar then some (Char.ofNatAux n h) else none

@[simp] theorem not_mem_empty (c : Char) : c ∉ empty := List.not_mem_nil

@[simp] theorem mem_insert (c d : Char) (s : CharSet) : d ∈ s.insert c ↔ d = c ∨ d ∈ s :=
  mem_insertChar c d s.chars

@[simp] theorem mem_ofList (c : Char) (cs : List Char) : c ∈ ofList cs ↔ c ∈ cs := by
  induction cs with
  | nil => exact iff_of_false (not_mem_empty c) List.not_mem_nil
  | cons d ds ih => rw [ofList, List.foldr_cons, mem_insert, ← ofList, ih, List.mem_cons]

/-- Sets with the same members are equal. -/
theorem ext {s t : CharSet} (h : ∀ c, c ∈ s ↔ c ∈ t) : s = t := by
  obtain ⟨cs, hs⟩ := s
  obtain ⟨ds, ht⟩ := t
  -- The members agree up to order, and there is only one ascending order.
  have hperm : cs.Perm ds :=
    (List.perm_ext_iff_of_nodup (hs.imp Char.ne_of_lt) (ht.imp Char.ne_of_lt)).mpr h
  obtain rfl := hperm.eq_of_pairwise (fun a b _ _ hab hba => absurd hba (Char.lt_asymm hab)) hs ht
  rfl

end CharSet

end WhileLang
