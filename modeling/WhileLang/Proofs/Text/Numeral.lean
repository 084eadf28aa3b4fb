import Mathlib.Data.List.TakeWhile
import WhileLang.Text.Blank
import WhileLang.Text.Decimal

/-!
# What Is Trimmed and What Is Read

Trimming and reading numerals, said without the functions that do it. The core
of a text is what is left when the blanks around it are taken away, as many as
there are; a text has one core only, and trimming gives it. A numeral is one
digit or more behind an optional sign, and it is read as the number it
denotes if that number has 32 bits, and else not at all.

Leading zeros do no harm, and a plus sign and a minus sign may stand before a
zero. A sign alone is not a numeral, nor is a text with a blank behind the
sign.

## Main definitions

* `Text.IsCore`: The text without the blanks around it.
* `Decimal.Denotes`: The numeral of an integer.

## Theorems

* `Text.isCore_iff`: Trimming gives the core.
* `Decimal.readInt?_eq_some_iff`: Numerals are read as what they denote.
* `Decimal.readInt32?_eq_some_iff`: So are those of machine integers, and no
  others.
-/

namespace WhileLang

namespace Text

/-- The text is the core with blanks around it, and the core does not begin or end with one. -/
def IsCore (core text : List Char) : Prop :=
  ∃ before behind, text = before ++ core ++ behind ∧
    (∀ c ∈ before, isBlank c = true) ∧ (∀ c ∈ behind, isBlank c = true) ∧
    (∀ c, core.head? = some c → isBlank c = false) ∧
    (∀ c, core.getLast? = some c → isBlank c = false)

variable {cs bs core text : List Char}

theorem isBlank_of_isDigit {c : Char} (h : c.isDigit = true) : isBlank c = false := by
  have hdigit : 48 ≤ c.toNat ∧ c.toNat ≤ 57 := by
    rw [Char.isDigit, Bool.and_eq_true, decide_eq_true_eq, decide_eq_true_eq] at h
    exact h
  have hranges : ∀ r ∈ blankRanges, r.2 < 48 ∨ 57 < r.1 := by decide
  rw [isBlank, List.any_eq_false]
  intro r hr
  have hr := hranges r hr
  rw [Bool.and_eq_true, decide_eq_true_eq, decide_eq_true_eq]
  omega

theorem exists_append_trimEnd (cs : List Char) :
    ∃ behind, cs = trimEnd cs ++ behind ∧ ∀ c ∈ behind, isBlank c = true := by
  induction cs with
  | nil => exact ⟨[], rfl, nofun⟩
  | cons c cs ih =>
      rcases ih with ⟨behind, hcs, hbehind⟩
      rw [trimEnd]
      cases hend : trimEnd cs with
      | nil =>
          rw [hend, List.nil_append] at hcs
          dsimp only
          by_cases hc : isBlank c = true
          · rw [if_pos hc]
            refine ⟨c :: cs, rfl, List.forall_mem_cons.mpr ⟨hc, ?_⟩⟩
            rw [hcs]
            exact hbehind
          · rw [if_neg hc]
            refine ⟨cs, rfl, ?_⟩
            rw [hcs]
            exact hbehind
      | cons d ds =>
          rw [hend] at hcs
          exact ⟨behind, congrArg (c :: ·) hcs, hbehind⟩

theorem trimEnd_eq_nil (h : ∀ c ∈ bs, isBlank c = true) : trimEnd bs = [] := by
  induction bs with
  | nil => rfl
  | cons b bs ih =>
      rw [List.forall_mem_cons] at h
      rw [trimEnd, ih h.2]
      exact if_pos h.1

theorem trimEnd_append (cs : List Char) (h : ∀ c ∈ bs, isBlank c = true) :
    trimEnd (cs ++ bs) = trimEnd cs := by
  induction cs with
  | nil => exact trimEnd_eq_nil h
  | cons c cs ih => rw [List.cons_append, trimEnd, trimEnd, ih]

/-- Nothing is dropped from a text that does not end with a blank. -/
theorem trimEnd_of_getLast? (h : ∀ c, cs.getLast? = some c → isBlank c = false) :
    trimEnd cs = cs := by
  rcases exists_append_trimEnd cs with ⟨behind, hcs, hbehind⟩
  cases hlast : behind.getLast? with
  | none =>
      rw [List.getLast?_eq_none_iff.mp hlast, List.append_nil] at hcs
      exact hcs.symm
  | some c =>
      have hblank : isBlank c = true := hbehind c (List.mem_of_getLast? hlast)
      have hend : cs.getLast? = some c := by
        rw [hcs, List.getLast?_append, hlast]
        rfl
      rw [h c hend] at hblank
      cases hblank

theorem isCore_trim (text : List Char) : IsCore (trim text) text := by
  rcases exists_append_trimEnd (text.dropWhile isBlank) with ⟨behind, htext, hbehind⟩
  refine ⟨text.takeWhile isBlank, behind, ?_, ?_, hbehind, head?_trim text, getLast?_trim text⟩
  · rw [List.append_assoc, trim, ← htext, List.takeWhile_append_dropWhile]
  · exact fun c hc => List.mem_takeWhile_imp hc

/-- Trimming gives the core. -/
theorem isCore_iff : IsCore core text ↔ trim text = core := by
  constructor
  · rintro ⟨before, behind, rfl, hbefore, hbehind, hhead, hlast⟩
    have hdrop : (before ++ (core ++ behind)).dropWhile isBlank =
        (core ++ behind).dropWhile isBlank := List.dropWhile_append_of_pos hbefore
    rw [trim, List.append_assoc, hdrop]
    cases core with
    | nil =>
        rw [List.nil_append, List.dropWhile_eq_nil_iff.mpr hbehind]
        rfl
    | cons c core =>
        have hc : ¬ isBlank c = true := by
          rw [hhead c rfl]
          exact Bool.false_ne_true
        rw [List.cons_append, List.dropWhile_cons_of_neg hc, ← List.cons_append,
          trimEnd_append (c :: core) hbehind, trimEnd_of_getLast? hlast]
  · rintro rfl
    exact isCore_trim text

/-- Blanks behind a text do not belong to its core. -/
theorem trim_append (cs : List Char) (h : ∀ c ∈ bs, isBlank c = true) :
    trim (cs ++ bs) = trim cs := by
  rcases isCore_trim cs with ⟨before, behind, hcs, hbefore, hbehind, hcore⟩
  refine isCore_iff.mp ⟨before, behind ++ bs, ?_, hbefore, ?_, hcore⟩
  · rw [← List.append_assoc, ← hcs]
  · exact List.forall_mem_append.mpr ⟨hbehind, h⟩

end Text

namespace Decimal

/-- The text is a numeral of the integer: digits, and in front of them a sign or none. -/
inductive Denotes : List Char → Int → Prop
  | unsigned {ds : List Char} (hne : ds ≠ []) (hds : ∀ d ∈ ds, d.isDigit = true) :
      Denotes ds (Nat.ofDigitChars 10 ds 0)
  | plus {ds : List Char} (hne : ds ≠ []) (hds : ∀ d ∈ ds, d.isDigit = true) :
      Denotes ('+' :: ds) (Nat.ofDigitChars 10 ds 0)
  | minus {ds : List Char} (hne : ds ≠ []) (hds : ∀ d ∈ ds, d.isDigit = true) :
      Denotes ('-' :: ds) (-(Nat.ofDigitChars 10 ds 0))

variable {cs : List Char} {i : Int} {n : Nat} {v : Int32}

theorem readNat?_eq_some_iff :
    readNat? cs = some n ↔
      (cs ≠ [] ∧ ∀ c ∈ cs, c.isDigit = true) ∧ Nat.ofDigitChars 10 cs 0 = n := by
  rw [readNat?, ← List.all_eq_true]
  by_cases h : cs ≠ [] ∧ cs.all Char.isDigit = true
  · rw [if_pos h, and_iff_right h, Option.some.injEq]
  · rw [if_neg h]
    exact iff_of_false (Option.some_ne_none n).symm fun hn => h hn.1

theorem readNat?_eq_some (hne : cs ≠ []) (hcs : ∀ c ∈ cs, c.isDigit = true) :
    readNat? cs = some (Nat.ofDigitChars 10 cs 0) :=
  readNat?_eq_some_iff.mpr ⟨⟨hne, hcs⟩, rfl⟩

/-- Numerals are read as what they denote. -/
theorem readInt?_eq_some_iff : readInt? cs = some i ↔ Denotes cs i := by
  constructor
  · intro h
    rw [readInt?.eq_def] at h
    split at h
    all_goals
      rcases Option.map_eq_some_iff.mp h with ⟨n, hn, rfl⟩
      rcases readNat?_eq_some_iff.mp hn with ⟨⟨hne, hds⟩, rfl⟩
    · exact .minus hne hds
    · exact .plus hne hds
    · exact .unsigned hne hds
  · intro h
    cases h with
    | unsigned hne hds =>
        rcases List.exists_cons_of_ne_nil hne with ⟨d, ds, rfl⟩
        rw [readInt?_of_isDigit (hds d List.mem_cons_self), readNat?_eq_some hne hds]
        rfl
    | plus hne hds =>
        rw [readInt?, readNat?_eq_some hne hds]
        rfl
    | minus hne hds =>
        rw [readInt?, readNat?_eq_some hne hds]
        rfl

/-- The numerals of machine integers are read as what they denote, and no others. -/
theorem readInt32?_eq_some_iff : readInt32? cs = some v ↔ Denotes cs v.toInt := by
  rw [readInt32?, Option.bind_eq_some_iff, ← readInt?_eq_some_iff]
  constructor
  · rintro ⟨i, hi, hv⟩
    by_cases hfits : Fits32 i
    · rw [if_pos hfits] at hv
      have htoInt : v.toInt = i := by
        rw [← Option.some.inj hv]
        exact Int32.toInt_ofInt_of_le hfits.1 (by have := hfits.2; omega)
      rw [hi, htoInt]
    · rw [if_neg hfits] at hv
      cases hv
  · intro h
    refine ⟨v.toInt, h, ?_⟩
    rw [if_pos (fits32_toInt v), Int32.ofInt_toInt]

end Decimal

end WhileLang
