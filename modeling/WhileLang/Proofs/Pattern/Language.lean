import Mathlib.Computability.Language
import WhileLang.Proofs.Pattern.Plain

/-!
# The Language of a Pattern

What a pattern is meant to match, said without derivatives: a choice stands
for the union of two languages, a sequence for their product, a bounded
repetition for a power or for several of them, and a complement for all
other texts.

A derivative undoes one character. For the operations on languages this is
the law of the product, `cons_mem_mul_iff`, and what follows from it for
powers and for the star. A first round that takes nothing is what makes
these laws more than a computation: it has to be moved behind the others,
where the body still offers it.

The bounds of a range have to be in order. A range counts as matching the
empty text once its body does, whatever the upper bound is, and the derivative
of a sequence asks just that of its first part. Derivatives keep the bounds in
order, so both laws hold all along a scan, and together they give its answer.

## Main definitions

* `Pattern.language`: The texts that a pattern is meant to match.
* `Pattern.Ordered`: Every range of the pattern has its bounds in order.

## Theorems

* `cons_mem_pow_iff`, `cons_mem_kstar_iff`, `exists_cons_mem_pow_iff`: A
  character in front of a repetition belongs to a round of it.
* `Pattern.mem_language_derivative`: The derivative law.
* `Pattern.nil_mem_language_iff`: The law of the empty text.
* `Pattern.matches_iff_mem_language`: Derivatives decide the language.
* `Pattern.scan_decides_language`: The scan, the test for the empty text and
  the derivative, each against the language.
-/

namespace WhileLang

open Computability

section Language

variable {l m : Language Char} {c : Char} {cs : List Char}

theorem mem_mul_iff : cs ∈ l * m ↔ ∃ u v, u ++ v = cs ∧ u ∈ l ∧ v ∈ m := by
  rw [Language.mem_mul]
  constructor
  · intro h
    rcases h with ⟨u, hu, v, hv, h⟩
    exact ⟨u, v, h, hu, hv⟩
  · intro h
    rcases h with ⟨u, v, h, hu, hv⟩
    exact ⟨u, hu, v, hv, h⟩

theorem nil_mem_mul_iff : [] ∈ l * m ↔ [] ∈ l ∧ [] ∈ m := by
  rw [mem_mul_iff]
  constructor
  · intro h
    rcases h with ⟨u, v, h, hu, hv⟩
    rcases List.append_eq_nil_iff.mp h with ⟨rfl, rfl⟩
    exact ⟨hu, hv⟩
  · intro h
    rcases h with ⟨hl, hm⟩
    exact ⟨[], [], rfl, hl, hm⟩

theorem nil_mem_pow_iff {n : Nat} : [] ∈ l ^ n ↔ n = 0 ∨ [] ∈ l := by
  induction n with
  | zero => exact iff_of_true Language.nil_mem_one (Or.inl rfl)
  | succ n ih =>
      rw [pow_succ', nil_mem_mul_iff, ih]
      constructor
      · intro h
        rcases h with ⟨h, -⟩
        exact Or.inr h
      · intro h
        rcases h with h | h
        · exact absurd h (Nat.succ_ne_zero n)
        · exact ⟨h, Or.inr h⟩

theorem cons_mem_mul_iff :
    c :: cs ∈ l * m ↔
      (∃ u v, u ++ v = cs ∧ c :: u ∈ l ∧ v ∈ m) ∨ [] ∈ l ∧ c :: cs ∈ m := by
  rw [mem_mul_iff]
  constructor
  · intro h
    rcases h with ⟨u, v, h, hu, hv⟩
    cases u with
    | nil =>
        rw [List.nil_append] at h
        rw [h] at hv
        exact Or.inr ⟨hu, hv⟩
    | cons d u =>
        rcases List.cons.inj h with ⟨rfl, hcs⟩
        exact Or.inl ⟨u, v, hcs, hu, hv⟩
  · intro h
    rcases h with ⟨u, v, rfl, hu, hv⟩ | ⟨hl, hm⟩
    · exact ⟨c :: u, v, rfl, hu, hv⟩
    · exact ⟨[], c :: cs, rfl, hl, hm⟩

/-- A language with the empty text has at least the texts of each of its powers in the next. -/
theorem mem_pow_succ_of_nil_mem (h : [] ∈ l) {n : Nat} (hcs : cs ∈ l ^ n) : cs ∈ l ^ (n + 1) := by
  rw [pow_succ', mem_mul_iff]
  exact ⟨[], cs, rfl, h, hcs⟩

theorem cons_mem_pow_iff {n : Nat} :
    c :: cs ∈ l ^ n ↔
      ∃ k, n = k + 1 ∧ ∃ u v, u ++ v = cs ∧ c :: u ∈ l ∧ v ∈ l ^ k := by
  induction n with
  | zero =>
      rw [pow_zero, Language.mem_one]
      refine iff_of_false (List.cons_ne_nil c cs) ?_
      intro h
      rcases h with ⟨k, hk, -⟩
      omega
  | succ n ih =>
      rw [pow_succ', cons_mem_mul_iff]
      constructor
      · intro h
        rcases h with h | ⟨hnil, hcs⟩
        · exact ⟨n, rfl, h⟩
        · -- The first round takes nothing, so it can as well come last.
          rcases ih.mp hcs with ⟨k, rfl, u, v, h, hu, hv⟩
          exact ⟨k + 1, rfl, u, v, h, hu, mem_pow_succ_of_nil_mem hnil hv⟩
      · intro h
        rcases h with ⟨k, hk, h⟩
        obtain rfl : n = k := by omega
        exact Or.inl h

theorem mem_kstar_iff_exists_pow : cs ∈ l∗ ↔ ∃ n, cs ∈ l ^ n := by
  rw [Language.kstar_eq_iSup_pow, Language.mem_iSup]

theorem cons_mem_kstar_iff :
    c :: cs ∈ l∗ ↔ ∃ u v, u ++ v = cs ∧ c :: u ∈ l ∧ v ∈ l∗ := by
  simp only [mem_kstar_iff_exists_pow, cons_mem_pow_iff]
  constructor
  · intro h
    rcases h with ⟨_, k, rfl, u, v, h, hu, hv⟩
    exact ⟨u, v, h, hu, k, hv⟩
  · intro h
    rcases h with ⟨u, v, h, hu, k, hv⟩
    exact ⟨k + 1, k, rfl, u, v, h, hu, hv⟩

theorem cons_mem_pow_succ_iff {n : Nat} :
    c :: cs ∈ l ^ (n + 1) ↔ ∃ u v, u ++ v = cs ∧ c :: u ∈ l ∧ v ∈ l ^ n := by
  rw [cons_mem_pow_iff]
  constructor
  · intro h
    rcases h with ⟨k, hk, h⟩
    obtain rfl : n = k := by omega
    exact h
  · intro h
    exact ⟨n, rfl, h⟩

/-- One round of a range leaves one fewer, and both bounds count it. -/
theorem exists_cons_mem_pow_iff {n m : Nat} :
    (∃ k, n ≤ k ∧ k ≤ m + 1 ∧ c :: cs ∈ l ^ k) ↔
      ∃ u v, u ++ v = cs ∧ c :: u ∈ l ∧ ∃ k, n - 1 ≤ k ∧ k ≤ m ∧ v ∈ l ^ k := by
  simp only [cons_mem_pow_iff]
  constructor
  · intro h
    rcases h with ⟨_, hnk, hkm, k, rfl, u, v, h, hu, hv⟩
    exact ⟨u, v, h, hu, k, by omega, by omega, hv⟩
  · intro h
    rcases h with ⟨u, v, h, hu, k, hnk, hkm, hv⟩
    exact ⟨k + 1, by omega, by omega, k, rfl, u, v, h, hu, hv⟩

end Language

namespace Pattern

/-- The texts that a pattern is meant to match. -/
def language : Pattern → Language Char
  | .never => 0
  | .empty => 1
  | .char c => {[c]}
  | .alt p q => p.language + q.language
  | .seq p q => p.language * q.language
  | .star p => p.language∗
  | .oneOf s => {cs | ∃ c, c ∈ s ∧ cs = [c]}
  | .noneOf s => {cs | ∃ c, c ∉ s ∧ cs = [c]}
  | .plus p => p.language * p.language∗
  | .opt p => 1 + p.language
  | .times p n => p.language ^ n
  | .range p n m => {cs | ∃ k, n ≤ k ∧ k ≤ m ∧ cs ∈ p.language ^ k}
  | .not p => {cs | cs ∉ p.language}
  | .tagged _ p => p.language

/-- Every range of the pattern has its bounds in order. -/
def Ordered : Pattern → Prop
  | .never | .empty | .char _ | .oneOf _ | .noneOf _ => True
  | .alt p q | .seq p q => p.Ordered ∧ q.Ordered
  | .star p | .plus p | .opt p | .times p _ | .not p | .tagged _ p => p.Ordered
  | .range p n m => n ≤ m ∧ p.Ordered

theorem mem_language_seq {p q : Pattern} {cs : List Char} :
    cs ∈ (seq p q).language ↔ ∃ u v, u ++ v = cs ∧ u ∈ p.language ∧ v ∈ q.language :=
  mem_mul_iff

theorem not_mem_language_never (cs : List Char) : cs ∉ never.language :=
  Language.notMem_zero cs

theorem mem_language_empty {cs : List Char} : cs ∈ empty.language ↔ cs = [] :=
  Language.mem_one cs

theorem mem_language_alt {p q : Pattern} {cs : List Char} :
    cs ∈ (alt p q).language ↔ cs ∈ p.language ∨ cs ∈ q.language :=
  Language.mem_add p.language q.language cs

/-- The derivative of a pattern of single characters is the empty text or nothing. -/
theorem mem_language_ite {P : Prop} [Decidable P] {cs : List Char} :
    cs ∈ (if P then empty else never).language ↔ P ∧ cs = [] := by
  by_cases h : P
  · rw [if_pos h, mem_language_empty, and_iff_right h]
  · rw [if_neg h]
    exact iff_of_false (not_mem_language_never cs) fun hcs => h hcs.1

/-- The law of the empty text. -/
theorem nil_mem_language_iff {p : Pattern} (hp : p.Ordered) :
    [] ∈ p.language ↔ p.isNullable = true := by
  induction p with
  | never => exact iff_of_false (not_mem_language_never []) Bool.false_ne_true
  | empty => exact iff_of_true Language.nil_mem_one rfl
  | char c => exact iff_of_false (List.cons_ne_nil c []).symm Bool.false_ne_true
  | alt p q ihp ihq =>
      rw [mem_language_alt, ihp hp.1, ihq hp.2, isNullable, Bool.or_eq_true]
  | seq p q ihp ihq =>
      rw [isNullable, Bool.and_eq_true, ← ihp hp.1, ← ihq hp.2]
      exact nil_mem_mul_iff
  | star p ih => exact iff_of_true (Language.nil_mem_kstar p.language) rfl
  | oneOf s | noneOf s =>
      refine iff_of_false ?_ Bool.false_ne_true
      intro h
      rcases h with ⟨c, -, h⟩
      exact List.cons_ne_nil c [] h.symm
  | plus p ih =>
      rw [isNullable, ← ih hp, language, nil_mem_mul_iff]
      exact and_iff_left (Language.nil_mem_kstar p.language)
  | opt p ih => exact iff_of_true (Or.inl rfl) rfl
  | times p n ih =>
      rw [isNullable, Bool.or_eq_true, beq_iff_eq, ← ih hp]
      exact nil_mem_pow_iff
  | range p n m ih =>
      rw [isNullable, Bool.or_eq_true, beq_iff_eq, ← ih hp.2]
      constructor
      · intro h
        rcases h with ⟨k, hnk, -, hk⟩
        rcases nil_mem_pow_iff.mp hk with rfl | h
        · exact Or.inl (Nat.le_zero.mp hnk)
        · exact Or.inr h
      · intro h
        exact ⟨n, le_refl n, hp.1, nil_mem_pow_iff.mpr h⟩
  | not p ih =>
      rw [isNullable, Bool.not_eq_true', ← Bool.not_eq_true, ← ih hp]
      exact Iff.rfl
  | tagged name p ih => exact ih hp

/-- The derivative law: what is left after a character are the texts behind that character. -/
theorem mem_language_derivative {p : Pattern} (hp : p.Ordered) (c : Char) (cs : List Char) :
    cs ∈ (p.derivative c).language ↔ c :: cs ∈ p.language := by
  induction p generalizing cs with
  | never => exact Iff.rfl
  | empty =>
      rw [derivative, mem_language_empty]
      exact iff_of_false (not_mem_language_never cs) (List.cons_ne_nil c cs)
  | char d =>
      rw [derivative, mem_language_ite]
      change _ ↔ c :: cs = [d]
      rw [List.cons.injEq, eq_comm]
  | oneOf s =>
      rw [derivative, mem_language_ite]
      constructor
      · intro h
        rcases h with ⟨hc, rfl⟩
        exact ⟨c, hc, rfl⟩
      · intro h
        rcases h with ⟨d, hd, h⟩
        rcases List.cons.inj h with ⟨rfl, rfl⟩
        exact ⟨hd, rfl⟩
  | noneOf s =>
      rw [derivative, ← ite_not, mem_language_ite]
      constructor
      · intro h
        rcases h with ⟨hc, rfl⟩
        exact ⟨c, hc, rfl⟩
      · intro h
        rcases h with ⟨d, hd, h⟩
        rcases List.cons.inj h with ⟨rfl, rfl⟩
        exact ⟨hd, rfl⟩
  | alt p q ihp ihq =>
      rw [derivative, mem_language_alt, mem_language_alt, ihp hp.1, ihq hp.2]
  | seq p q ihp ihq =>
      rw [derivative, language, cons_mem_mul_iff, nil_mem_language_iff hp.1, ← ihq hp.2]
      simp only [← ihp hp.1]
      by_cases hnil : p.isNullable = true
      · rw [if_pos hnil, mem_language_alt, mem_language_seq, and_iff_right hnil]
      · rw [if_neg hnil, mem_language_seq, or_iff_left fun h => hnil h.1]
  | star p ih =>
      rw [derivative, mem_language_seq]
      simp only [ih hp]
      exact cons_mem_kstar_iff.symm
  | plus p ih =>
      change _ ↔ c :: cs ∈ p.language * p.language∗
      rw [derivative, mem_language_seq, cons_mem_mul_iff, cons_mem_kstar_iff]
      simp only [ih hp]
      exact (or_iff_left_of_imp And.right).symm
  | opt p ih =>
      change _ ↔ c :: cs ∈ 1 + p.language
      rw [derivative, ih hp, Language.mem_add, Language.mem_one]
      exact (or_iff_right (List.cons_ne_nil c cs)).symm
  | times p n ih =>
      cases n with
      | zero => exact iff_of_false (not_mem_language_never cs) (List.cons_ne_nil c cs)
      | succ n =>
          change _ ↔ c :: cs ∈ p.language ^ (n + 1)
          rw [derivative, if_neg (Nat.succ_ne_zero n), Nat.add_sub_cancel, mem_language_seq]
          simp only [ih hp]
          exact cons_mem_pow_succ_iff.symm
  | range p n m ih =>
      cases m with
      | zero =>
          refine iff_of_false (not_mem_language_never cs) ?_
          intro h
          rcases h with ⟨k, -, hk, h⟩
          rw [Nat.le_zero.mp hk] at h
          exact List.cons_ne_nil c cs h
      | succ m =>
          change _ ↔ ∃ k, n ≤ k ∧ k ≤ m + 1 ∧ c :: cs ∈ p.language ^ k
          rw [derivative, if_neg (Nat.succ_ne_zero m), Nat.add_sub_cancel, mem_language_seq]
          simp only [ih hp.2]
          exact exists_cons_mem_pow_iff.symm
  | not p ih => exact not_congr (ih hp cs)
  | tagged name p ih => exact ih hp cs

theorem ordered_derivative {p : Pattern} (hp : p.Ordered) (c : Char) :
    (p.derivative c).Ordered := by
  induction p with
  | never | empty => trivial
  | char d | oneOf s | noneOf s =>
      rw [derivative]
      split <;> trivial
  | alt p q ihp ihq => exact ⟨ihp hp.1, ihq hp.2⟩
  | seq p q ihp ihq =>
      rw [derivative]
      split
      · exact ⟨⟨ihp hp.1, hp.2⟩, ihq hp.2⟩
      · exact ⟨ihp hp.1, hp.2⟩
  | star p ih | plus p ih => exact ⟨ih hp, hp⟩
  | opt p ih | not p ih | tagged name p ih => exact ih hp
  | times p n ih =>
      rw [derivative]
      split
      · trivial
      · exact ⟨ih hp, hp⟩
  | range p n m ih =>
      rw [derivative]
      split
      · trivial
      · exact ⟨ih hp.2, Nat.sub_le_sub_right hp.1 1, hp.2⟩

/-- Derivatives decide the language. -/
theorem matches_iff_mem_language {p : Pattern} (hp : p.Ordered) {cs : List Char} :
    p.Matches cs ↔ cs ∈ p.language := by
  induction cs generalizing p with
  | nil => rw [matches_nil, nil_mem_language_iff hp]
  | cons c cs ih => rw [matches_cons, ih (ordered_derivative hp c), mem_language_derivative hp]

/-- The scan, the test for the empty text and the derivative all go by the language. -/
theorem scan_decides_language (p : Pattern) (hp : p.Ordered) (cs : List Char) (c : Char) :
    (p.accepts cs = true ↔ cs ∈ p.language) ∧ (p.isNullable = true ↔ [] ∈ p.language) ∧
      (cs ∈ (p.derivative c).language ↔ c :: cs ∈ p.language) := by
  refine ⟨?_, ?_, ?_⟩
  · rw [accepts_iff_matches, matches_iff_mem_language hp]
  · rw [nil_mem_language_iff hp]
  · exact mem_language_derivative hp c cs

/-- Rounds that may take nothing, counted between two bounds and then excluded. -/
theorem scan_decides_language_of_range :
    (Pattern.not (range (opt (char 'a')) 1 2)).Ordered ∧
      ['a', 'a'] ∉ (Pattern.not (range (opt (char 'a')) 1 2)).language ∧
      [] ∉ (Pattern.not (range (opt (char 'a')) 1 2)).language ∧
      ['a', 'a'] ∈ ((Pattern.not (range (opt (char 'a')) 1 2)).derivative 'a').language := by
  have hp : (Pattern.not (range (opt (char 'a')) 1 2)).Ordered := ⟨by decide, trivial⟩
  have h := scan_decides_language _ hp ['a', 'a'] 'a'
  have h' := scan_decides_language _ hp ['a', 'a', 'a'] 'a'
  refine ⟨hp, ?_, ?_, ?_⟩
  · rw [← h.1]
    decide
  · rw [← h.2.1]
    decide
  · rw [h.2.2, ← h'.1]
    decide

end Pattern

end WhileLang
