import Mathlib.Data.List.Nodup
import Mathlib.Data.Prod.Basic

/-!
# Lists in the Order of Keys

What it means that a list has its elements for certain reasons, each reason
once, and in a certain order. A reason is a key, such as the place at which an
element was found in another list, or the path that led to it. A list
enumerates a relation between keys and values if its elements can be given
keys that ascend, and that are exactly the keys with a value. As no key comes
before itself, no two elements have the same one.

This is a stronger property than having the right elements, because a value
that there are two reasons for has to be there twice, and it is kept by what
programs do with lists. Each law gives the keys of the new list: those of a
list of lists are pairs, in lexicographic order.

## Main definitions

* `Enumerates`: A list has the values of the keys, in the order of the keys.

## Theorems

* `enumerates_getElem?`: A list enumerates its elements by their places.
* `Enumerates.map`, `Enumerates.filter`, `Enumerates.flatMap`,
  `Enumerates.append`: The laws for lists that are made from others.
* `Enumerates.rekey`: The same list by other keys.
* `Enumerates.unique`: No key has two values.
-/

namespace WhileLang

variable {κ κ' β γ : Type} {lt : κ → κ → Prop} {lt' : κ' → κ' → Prop} {R S : κ → β → Prop}
  {xs ys : List β}

/-- The list has the values of the keys, one element for each key, in the order of the keys. -/
def Enumerates (lt : κ → κ → Prop) (R : κ → β → Prop) (xs : List β) : Prop :=
  ∃ keyed : List (κ × β), keyed.map Prod.snd = xs ∧ (keyed.Pairwise fun r s => lt r.1 s.1) ∧
    ∀ k b, (k, b) ∈ keyed ↔ R k b

/-- A list enumerates its elements by their places. -/
theorem enumerates_getElem? (xs : List β) :
    Enumerates (· < ·) (fun (i : Nat) b => xs[i]? = some b) xs := by
  refine ⟨xs.zipIdx.map Prod.swap, ?_, ?_, fun i b => ?_⟩
  · rw [List.map_map]
    exact List.zipIdx_map_fst 0 xs
  · have hplaces : (xs.zipIdx.map Prod.snd).Pairwise (· < ·) := by
      rw [List.zipIdx_map_snd]
      exact List.pairwise_lt_range'
    rw [List.pairwise_map] at hplaces ⊢
    exact hplaces
  · rw [List.mem_map]
    constructor
    · rintro ⟨⟨c, j⟩, hmem, heq⟩
      cases heq
      exact List.mem_zipIdx_iff_getElem?.mp hmem
    · intro h
      exact ⟨(b, i), List.mem_zipIdx_iff_getElem?.mpr h, rfl⟩

/-- One value enumerates the only key that there is. -/
theorem enumerates_singleton (b : β) :
    Enumerates (fun _ _ => False) (fun (_ : Unit) c => c = b) [b] := by
  refine ⟨[((), b)], rfl, List.pairwise_singleton _ _, fun k c => ?_⟩
  rw [List.mem_singleton, Prod.mk.injEq]
  exact and_iff_right rfl

namespace Enumerates

theorem nil (h : ∀ k b, ¬ R k b) : Enumerates lt R [] :=
  ⟨[], rfl, List.Pairwise.nil, fun k b => iff_of_false List.not_mem_nil (h k b)⟩

/-- The keys of the empty list have no values. -/
theorem not_of_nil (h : Enumerates lt R []) (k : κ) (b : β) : ¬ R k b := by
  rcases h with ⟨keyed, hvalues, -, hkeyed⟩
  rw [← hkeyed, List.map_eq_nil_iff.mp hvalues]
  exact List.not_mem_nil

theorem congr (h : Enumerates lt R xs) (hRS : ∀ k b, R k b ↔ S k b) : Enumerates lt S xs := by
  rcases h with ⟨keyed, hvalues, hsorted, hkeyed⟩
  exact ⟨keyed, hvalues, hsorted, fun k b => (hkeyed k b).trans (hRS k b)⟩

/-- No key has two values if none comes before itself. -/
theorem unique (h : Enumerates lt R xs) (hlt : ∀ k, ¬ lt k k) {k : κ} {b c : β} (hb : R k b)
    (hc : R k c) : b = c := by
  rcases h with ⟨keyed, -, hsorted, hkeyed⟩
  -- Keys that ascend are all different.
  have hkeys : (keyed.map Prod.fst).Nodup := by
    refine List.pairwise_map.mpr (hsorted.imp ?_)
    intro r s hrs heq
    rw [heq] at hrs
    exact hlt s.1 hrs
  rw [← hkeyed] at hb hc
  exact congrArg Prod.snd (List.inj_on_of_nodup_map hkeys hb hc rfl)

/-- The same keys in another order, if those that have values keep theirs. -/
theorem mono {lt₁ : κ → κ → Prop} (h : Enumerates lt R xs)
    (hlt : ∀ k b k' b', R k b → R k' b' → lt k k' → lt₁ k k') : Enumerates lt₁ R xs := by
  rcases h with ⟨keyed, hvalues, hsorted, hkeyed⟩
  refine ⟨keyed, hvalues, hsorted.imp_of_mem fun hr hs hrs => ?_, hkeyed⟩
  exact hlt _ _ _ _ ((hkeyed _ _).mp hr) ((hkeyed _ _).mp hs) hrs

/-- The same list by other keys, if the order of those that have values stays the same. -/
theorem rekey (h : Enumerates lt R xs) (f : κ → κ')
    (hlt : ∀ k b k' b', R k b → R k' b' → lt k k' → lt' (f k) (f k')) :
    Enumerates lt' (fun k' b => ∃ k, R k b ∧ f k = k') xs := by
  rcases h with ⟨keyed, hvalues, hsorted, hkeyed⟩
  refine ⟨keyed.map fun r => (f r.1, r.2), ?_, ?_, fun k' b => ?_⟩
  · rw [List.map_map]
    exact hvalues
  · rw [List.pairwise_map]
    refine hsorted.imp_of_mem fun hr hs hrs => ?_
    exact hlt _ _ _ _ ((hkeyed _ _).mp hr) ((hkeyed _ _).mp hs) hrs
  · rw [List.mem_map]
    constructor
    · rintro ⟨⟨k, c⟩, hmem, heq⟩
      cases heq
      exact ⟨k, (hkeyed k c).mp hmem, rfl⟩
    · rintro ⟨k, hk, rfl⟩
      exact ⟨(k, b), (hkeyed k b).mpr hk, rfl⟩

theorem map (h : Enumerates lt R xs) (f : β → γ) :
    Enumerates lt (fun k c => ∃ b, R k b ∧ f b = c) (xs.map f) := by
  rcases h with ⟨keyed, hvalues, hsorted, hkeyed⟩
  refine ⟨keyed.map fun r => (r.1, f r.2), ?_, ?_, fun k c => ?_⟩
  · rw [← hvalues, List.map_map, List.map_map]
    rfl
  · rw [List.pairwise_map]
    exact hsorted
  · rw [List.mem_map]
    constructor
    · rintro ⟨⟨k', b⟩, hmem, heq⟩
      cases heq
      exact ⟨b, (hkeyed k' b).mp hmem, rfl⟩
    · rintro ⟨b, hb, rfl⟩
      exact ⟨(k, b), (hkeyed k b).mpr hb, rfl⟩

theorem filter (h : Enumerates lt R xs) (p : β → Bool) :
    Enumerates lt (fun k b => R k b ∧ p b = true) (xs.filter p) := by
  rcases h with ⟨keyed, hvalues, hsorted, hkeyed⟩
  refine ⟨keyed.filter fun r => p r.2, ?_, hsorted.filter _, fun k b => ?_⟩
  · rw [← hvalues, List.filter_map]
    rfl
  · rw [List.mem_filter, hkeyed]

/-- Of two lists one after the other, the keys of the first come before those of the second. -/
theorem append (h : Enumerates lt R xs) (h' : Enumerates lt S ys)
    (hlt : ∀ k b k' b', R k b → S k' b' → lt k k') :
    Enumerates lt (fun k b => R k b ∨ S k b) (xs ++ ys) := by
  rcases h with ⟨keyed, rfl, hsorted, hkeyed⟩
  rcases h' with ⟨keyed', rfl, hsorted', hkeyed'⟩
  refine ⟨keyed ++ keyed', List.map_append, ?_, fun k b => ?_⟩
  · refine List.pairwise_append.mpr ⟨hsorted, hsorted', fun r hr s hs => ?_⟩
    exact hlt r.1 r.2 s.1 s.2 ((hkeyed _ _).mp hr) ((hkeyed' _ _).mp hs)
  · rw [List.mem_append, hkeyed, hkeyed']

/-- Of lists in a row, the key of an element is that of its list and its own in there. -/
theorem flatMap {T : β → κ' → γ → Prop} {f : β → List γ} (h : Enumerates lt R xs)
    (hf : ∀ b, Enumerates lt' (T b) (f b)) :
    Enumerates (Prod.Lex lt lt') (fun k c => ∃ b, R k.1 b ∧ T b k.2 c) (xs.flatMap f) := by
  rcases h with ⟨keyed, rfl, hsorted, hkeyed⟩
  -- The keys of each inner list are put behind the key of its place in the outer one.
  choose inner hvalues hsorted' hkeyed' using hf
  refine ⟨keyed.flatMap fun r => (inner r.2).map fun s => ((r.1, s.1), s.2), ?_, ?_, ?_⟩
  · rw [List.map_flatMap, List.flatMap_map]
    refine List.flatMap_congr fun r _ => ?_
    rw [List.map_map, ← hvalues]
    rfl
  · refine List.pairwise_flatMap.mpr ⟨fun r _ => ?_, hsorted.imp fun hrs s hs t ht => ?_⟩
    · rw [List.pairwise_map]
      refine (hsorted' r.2).imp ?_
      intro s t hst
      exact Prod.Lex.right r.1 hst
    · rcases List.mem_map.mp hs with ⟨s', -, rfl⟩
      rcases List.mem_map.mp ht with ⟨t', -, rfl⟩
      exact Prod.Lex.left s'.1 t'.1 hrs
  · rintro ⟨k, k'⟩ c
    simp only [List.mem_flatMap, List.mem_map, Prod.mk.injEq, Prod.exists]
    constructor
    · rintro ⟨k, b, hb, k', c, hc, ⟨rfl, rfl⟩, rfl⟩
      exact ⟨b, (hkeyed k b).mp hb, (hkeyed' b k' c).mp hc⟩
    · rintro ⟨b, hb, hc⟩
      exact ⟨k, b, (hkeyed k b).mpr hb, k', c, (hkeyed' b k' c).mpr hc, ⟨rfl, rfl⟩, rfl⟩

end Enumerates

end WhileLang
