import WhileLang.Proofs.Value.Preferred

/-!
# What Simple Patterns Match

Laws for the patterns that rules of a language are written with: single
characters, literal texts, choices from a list, and repetition. A repetition
of single characters matches the texts all of whose characters are allowed,
and this is said once for every pattern of single characters.

## Main definitions

* `Pattern.MatchesChars`: A pattern of the single characters with a property.

## Theorems

* `Pattern.matches_star_cons`: A repetition that is not over begins with one of its parts.
* `Pattern.matches_star_chars`, `Pattern.matches_plus_chars`: Repetition of single characters.
* `Pattern.matches_literal`: A literal matches itself.
* `Pattern.matches_alts`, `Pattern.matches_alts_literal`: A choice matches what
  one of its patterns does.
-/

namespace WhileLang

namespace Pattern

variable {p q : Pattern} {c : Char} {cs : List Char} {P : Char → Prop}

/-- The pattern matches the single characters that have the property. -/
def MatchesChars (p : Pattern) (P : Char → Prop) : Prop :=
  ∀ cs, p.Matches cs ↔ ∃ c, cs = [c] ∧ P c

/-- A pattern that leaves the empty text behind some characters and nothing behind the others is one
    of single characters. -/
theorem matchesChars_of_derivative (hnil : p.isNullable = false)
    (h : ∀ c cs, (p.derivative c).Matches cs ↔ P c ∧ cs = []) : p.MatchesChars P := by
  intro cs
  cases cs with
  | nil =>
      rw [matches_nil, hnil]
      refine iff_of_false Bool.false_ne_true ?_
      rintro ⟨c, hc, -⟩
      cases hc
  | cons c cs =>
      rw [matches_cons, h]
      constructor
      · rintro ⟨hc, rfl⟩
        exact ⟨c, rfl, hc⟩
      · rintro ⟨d, heq, hd⟩
        rcases List.cons.inj heq with ⟨rfl, rfl⟩
        exact ⟨hd, rfl⟩

theorem matchesChars_char (d : Char) : (char d).MatchesChars (· = d) := by
  refine matchesChars_of_derivative rfl fun c cs => ?_
  rw [derivative, matches_ite]
  exact and_congr_left' eq_comm

theorem matchesChars_anyOf (ds : List Char) : (anyOf ds).MatchesChars (· ∈ ds) := by
  refine matchesChars_of_derivative rfl fun c cs => ?_
  rw [anyOf, derivative, matches_ite, CharSet.mem_ofList]

theorem matchesChars_anyBut (ds : List Char) : (anyBut ds).MatchesChars (· ∉ ds) := by
  refine matchesChars_of_derivative rfl fun c cs => ?_
  rw [anyBut, derivative, ← ite_not, matches_ite, CharSet.mem_ofList]

theorem matchesChars_alt {Q : Char → Prop} (hp : p.MatchesChars P) (hq : q.MatchesChars Q) :
    (alt p q).MatchesChars fun c => P c ∨ Q c := by
  intro cs
  rw [matches_alt, hp, hq]
  simp only [and_or_left, exists_or]

/-- A repetition that is not over begins with one of its parts. -/
theorem matches_star_cons :
    (star p).Matches (c :: cs) ↔
      ∃ u v, u ++ v = cs ∧ p.Matches (c :: u) ∧ (star p).Matches v :=
  (Round.star p).matches_cons

theorem matches_star_chars (hp : p.MatchesChars P) : (star p).Matches cs ↔ ∀ c ∈ cs, P c := by
  induction cs with
  | nil => exact iff_of_true rfl nofun
  | cons c cs ih =>
      rw [matches_star_cons, List.forall_mem_cons, ← ih]
      constructor
      · rintro ⟨u, v, rfl, hu, hv⟩
        rcases (hp _).mp hu with ⟨d, heq, hd⟩
        rcases List.cons.inj heq with ⟨rfl, rfl⟩
        exact ⟨hd, hv⟩
      · rintro ⟨hc, hcs⟩
        exact ⟨[], cs, rfl, (hp _).mpr ⟨c, rfl, hc⟩, hcs⟩

theorem matches_plus_chars (hp : p.MatchesChars P) :
    (plus p).Matches cs ↔ cs ≠ [] ∧ ∀ c ∈ cs, P c := by
  rw [← matches_star_chars hp]
  cases cs with
  | nil =>
      rw [matches_nil, isNullable, ← matches_nil, hp]
      refine iff_of_false ?_ fun h => h.1 rfl
      rintro ⟨c, hc, -⟩
      cases hc
  -- Behind its first character, it is a repetition as any other.
  | cons c cs => exact (and_iff_right (List.cons_ne_nil c cs)).symm

theorem matches_literal {w : List Char} : (literal w).Matches cs ↔ cs = w := by
  induction w generalizing cs with
  | nil => exact matches_empty
  | cons d w ih =>
      cases w with
      | nil =>
          refine (matchesChars_char d cs).trans ?_
          constructor
          · rintro ⟨c, rfl, rfl⟩
            rfl
          · rintro rfl
            exact ⟨d, rfl, rfl⟩
      | cons e w =>
          change (seq (char d) (literal (e :: w))).Matches cs ↔ _
          rw [matches_seq]
          simp only [ih, matchesChars_char d _]
          constructor
          · rintro ⟨_, _, rfl, ⟨c, rfl, rfl⟩, rfl⟩
            rfl
          · rintro rfl
            exact ⟨[d], e :: w, rfl, ⟨d, rfl, rfl⟩, rfl⟩

theorem matches_alts {ps : List Pattern} : (alts ps).Matches cs ↔ ∃ p ∈ ps, p.Matches cs := by
  induction ps with
  | nil =>
      refine iff_of_false (not_matches_never cs) ?_
      rintro ⟨p, hp, -⟩
      cases hp
  | cons p ps ih =>
      cases ps with
      | nil =>
          rw [alts]
          simp only [List.mem_singleton, exists_eq_left]
      | cons q ps =>
          change (alt p (alts (q :: ps))).Matches cs ↔ _
          rw [matches_alt, ih]
          simp only [List.mem_cons, exists_eq_or_imp]

/-- A choice of texts matches these texts. -/
theorem matches_alts_literal {ι : Type} {l : List ι} {f : ι → List Char} :
    (alts (l.map fun x => literal (f x))).Matches cs ↔ ∃ x ∈ l, cs = f x := by
  rw [matches_alts]
  constructor
  · rintro ⟨p, hp, hmatches⟩
    rcases List.mem_map.mp hp with ⟨x, hx, rfl⟩
    exact ⟨x, hx, matches_literal.mp hmatches⟩
  · rintro ⟨x, hx, h⟩
    exact ⟨_, List.mem_map_of_mem hx, matches_literal.mpr h⟩

end Pattern

end WhileLang
