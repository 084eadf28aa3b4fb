import WhileLang.Proofs.Pattern.Language
import WhileLang.Proofs.Value.Rebuilt

/-!
# Values That Fit a Pattern

A value fits a pattern if it has the shape that the pattern calls for: a side
for a choice, two parts for a sequence, as many rounds as a repetition allows.
Nothing is said about preference, so a text may have many fitting values, and
the value of a match is only one of them.

Whatever fits, the three steps that build values keep it so. The value of the
empty text fits; a value that fits a derivative is taken by `inject` to one
that fits the pattern, with the character put in front of its text; and one
that fits a simplified pattern is taken by `restore` to one that fits the
pattern itself, with the same text. None of the steps can fail on a value that
fits, so a mismatch of shapes is only ever reported for a value that did not
fit from the start.

A repetition counts its rounds, and `inject` gives it one more. `Round` has
the bounds of the repetition one lower for the rounds behind the first, so
one lemma, `Round.fits_cons`, serves all of them.

The empty text needs the bounds of a range in order: the value has as many
rounds as the lower bound asks for, and these have to be allowed.

## Main definitions

* `Pattern.Fits`: The value has the shape that the pattern calls for.

## Theorems

* `Pattern.emptyValue_fits`: The value of the empty text fits.
* `Pattern.inject_fits`: Putting a character back keeps a value fitting.
* `Pattern.restore_fits`: Undoing a simplification keeps a value fitting.
* `Pattern.fitting_preserved`: The three of them, with the texts of the values.
* `Pattern.exists_fits_iff_mem_language`: The texts of the fitting values are
  the language.
-/

namespace WhileLang

namespace Pattern

/-- The value has the shape that the pattern calls for. -/
inductive Fits : Pattern → Value → Prop
  | empty : Fits empty .void
  | char (c : Char) : Fits (char c) (.char c)
  | oneOf {s : CharSet} {c : Char} (hc : c ∈ s) : Fits (oneOf s) (.char c)
  | noneOf {s : CharSet} {c : Char} (hc : c ∉ s) : Fits (noneOf s) (.char c)
  | left {p q : Pattern} {v : Value} (hv : Fits p v) : Fits (alt p q) (.left v)
  | right {p q : Pattern} {v : Value} (hv : Fits q v) : Fits (alt p q) (.right v)
  | seq {p q : Pattern} {v w : Value} (hv : Fits p v) (hw : Fits q w) : Fits (seq p q) (.seq v w)
  | star {p : Pattern} {vs : List Value} (hvs : ∀ v ∈ vs, Fits p v) : Fits (star p) (.stars vs)
  | plus {p : Pattern} {vs : List Value} (hvs : ∀ v ∈ vs, Fits p v) (hlen : 1 ≤ vs.length) :
      Fits (plus p) (.stars vs)
  | opt {p : Pattern} {vs : List Value} (hvs : ∀ v ∈ vs, Fits p v) (hlen : vs.length ≤ 1) :
      Fits (opt p) (.stars vs)
  | times {p : Pattern} {n : Nat} {vs : List Value} (hvs : ∀ v ∈ vs, Fits p v)
      (hlen : vs.length = n) : Fits (times p n) (.stars vs)
  | range {p : Pattern} {n m : Nat} {vs : List Value} (hvs : ∀ v ∈ vs, Fits p v)
      (hlow : n ≤ vs.length) (hhigh : vs.length ≤ m) : Fits (range p n m) (.stars vs)
  /-- The characters of a text that the body does not match. -/
  | not {p : Pattern} {cs : List Char} (hp : p.accepts cs = false) :
      Fits (not p) (.stars (cs.map .char))
  | tagged {name : String} {p : Pattern} {v : Value} (hv : Fits p v) :
      Fits (tagged name p) (.tagged name v)

variable {p q r : Pattern} {c : Char} {cs : List Char} {v : Value} {vs : List Value}

theorem accepts_eq_false_iff : p.accepts cs = false ↔ ¬ p.Matches cs := by
  rw [← Bool.not_eq_true, accepts_iff_matches]

theorem flatten_map_char (cs : List Char) : (Value.stars (cs.map .char)).flatten = cs := by
  rw [Value.flatten_stars, List.flatMap_map, funext Value.flatten_char, List.flatMap_singleton']

section EmptyText

/-- The rounds of a bounded repetition of the empty text. -/
theorem emptyRounds_fits {n : Nat} (h : n = 0 ∨ p.isNullable = true)
    (ih : p.isNullable = true → ∃ v, p.emptyValue = .ok v ∧ p.Fits v ∧ v.flatten = []) :
    ∃ vs, (if n = 0 then return .stars []
        else return .stars (List.replicate n (← p.emptyValue)) : Except Mismatch Value) =
      .ok (.stars vs) ∧ vs.length = n ∧ (∀ v ∈ vs, p.Fits v) ∧
        (Value.stars vs).flatten = [] := by
  by_cases hn : n = 0
  · refine ⟨[], ?_, hn.symm, List.forall_mem_nil _, ?_⟩
    · rw [if_pos hn]
      rfl
    · rw [Value.flatten_stars, List.flatMap_nil]
  · rcases ih (h.resolve_left hn) with ⟨v, hv, hfits, hflat⟩
    refine ⟨List.replicate n v, ?_, List.length_replicate, ?_, ?_⟩
    · rw [if_neg hn, hv]
      rfl
    · intro w hw
      rw [List.eq_of_mem_replicate hw]
      exact hfits
    · rw [Value.flatten_stars, List.flatMap_eq_nil_iff]
      intro w hw
      rw [List.eq_of_mem_replicate hw, hflat]

/-- The value of the empty text fits. -/
theorem emptyValue_fits (hp : p.Ordered) (h : p.isNullable = true) :
    ∃ v, p.emptyValue = .ok v ∧ p.Fits v ∧ v.flatten = [] := by
  have hnone : (Value.stars []).flatten = [] := by rw [Value.flatten_stars, List.flatMap_nil]
  induction p with
  | never | char _ | oneOf _ | noneOf _ => exact absurd h Bool.false_ne_true
  | empty => exact ⟨.void, rfl, .empty, Value.flatten_void⟩
  | alt p q ihp ihq =>
      rw [emptyValue]
      by_cases hnil : p.isNullable = true
      · rw [if_pos hnil]
        exact exists_ok_map (ihp hp.1 hnil) fun v hv =>
          ⟨.left hv.1, by rw [Value.flatten_left, hv.2]⟩
      · rw [if_neg hnil]
        rw [isNullable, Bool.or_eq_true] at h
        exact exists_ok_map (ihq hp.2 (h.resolve_left hnil)) fun v hv =>
          ⟨.right hv.1, by rw [Value.flatten_right, hv.2]⟩
  | seq p q ihp ihq =>
      rw [isNullable, Bool.and_eq_true] at h
      exact exists_ok_map₂ (ihp hp.1 h.1) (ihq hp.2 h.2) fun v w hv hw =>
        ⟨.seq hv.1 hw.1, by rw [Value.flatten_seq, hv.2, hw.2, List.append_nil]⟩
  | star p => exact ⟨.stars [], rfl, .star (List.forall_mem_nil _), hnone⟩
  | opt p => exact ⟨.stars [], rfl, .opt (List.forall_mem_nil _) (Nat.zero_le 1), hnone⟩
  | not p =>
      rw [isNullable, Bool.not_eq_true'] at h
      have hbody : p.accepts [] = false := h
      exact ⟨.stars [], rfl, .not hbody, hnone⟩
  | plus p ih =>
      refine exists_ok_map (f := fun v => .stars [v]) (ih hp h) fun v hv => ⟨?_, ?_⟩
      · exact .plus (List.forall_mem_singleton.mpr hv.1) (Nat.le_refl 1)
      · rw [Value.flatten_stars, List.flatMap_singleton, hv.2]
  | times p n ih =>
      rw [isNullable, Bool.or_eq_true, beq_iff_eq] at h
      rcases emptyRounds_fits h (ih hp) with ⟨vs, hv, hlen, hvs, hflat⟩
      exact ⟨_, hv, .times hvs hlen, hflat⟩
  | range p n m ih =>
      rw [isNullable, Bool.or_eq_true, beq_iff_eq] at h
      rcases emptyRounds_fits h (ih hp.2) with ⟨vs, hv, hlen, hvs, hflat⟩
      -- There are as many rounds as the lower bound, which the upper bound allows.
      exact ⟨_, hv, .range hvs (Nat.le_of_eq hlen.symm) (hlen.trans_le hp.1), hflat⟩
  | tagged name p ih =>
      exact exists_ok_map (ih hp h) fun v hv => ⟨.tagged hv.1, by rw [Value.flatten_tagged, hv.2]⟩

end EmptyText

section Injection

/-- One round more, where the rounds behind it fit what is left of the repetition. -/
theorem Round.fits_cons (hr : Round r p q) (hv : p.Fits v) (hvs : q.Fits (.stars vs)) :
    r.Fits (.stars (v :: vs)) := by
  cases hr with
  | star =>
      cases hvs with
      | star hvs => exact .star (List.forall_mem_cons.mpr ⟨hv, hvs⟩)
  | plus =>
      cases hvs with
      | star hvs =>
          exact .plus (List.forall_mem_cons.mpr ⟨hv, hvs⟩) (Nat.succ_le_succ (Nat.zero_le _))
  | times =>
      cases hvs with
      | times hvs hlen =>
          exact .times (List.forall_mem_cons.mpr ⟨hv, hvs⟩) (congrArg Nat.succ hlen)
  | range =>
      cases hvs with
      | range hvs hlow hhigh =>
          refine .range (List.forall_mem_cons.mpr ⟨hv, hvs⟩) ?_ (Nat.succ_le_succ hhigh)
          rw [List.length_cons]
          omega

/-- What fits the rounds that are left is a list of rounds. -/
theorem Round.exists_stars_of_fits (hr : Round r p q) (hv : q.Fits v) : ∃ vs, v = .stars vs := by
  cases hr <;> cases hv <;> exact ⟨_, rfl⟩

/-- A round whose first character is put back is a round of the repetition. -/
theorem injectRound_fits (hr : Round r p q)
    (ih : ∀ {v}, (p.derivative c).Fits v →
      ∃ w, p.inject c v = .ok w ∧ p.Fits w ∧ w.flatten = c :: v.flatten)
    (h : (r.derivative c).Fits v) :
    ∃ w, r.inject c v = .ok w ∧ r.Fits w ∧ w.flatten = c :: v.flatten := by
  rw [hr.derivative_eq] at h
  rw [hr.inject_eq]
  cases h with
  | @seq _ _ v w hv hw =>
      rcases hr.exists_stars_of_fits hw with ⟨vs, rfl⟩
      refine exists_ok_map (f := fun x => .stars (x :: vs)) (ih hv) fun x hx =>
        ⟨hr.fits_cons hx.1 hw, ?_⟩
      rw [Value.flatten_stars, List.flatMap_cons, hx.2, Value.flatten_seq, Value.flatten_stars,
        List.cons_append]

/-- What fits the derivative of a pattern of single characters has no text. -/
theorem fits_ite {P : Prop} [Decidable P] (h : (if P then Pattern.empty else never).Fits v) :
    P ∧ v = .void := by
  split at h
  · next hP =>
    cases h
    exact ⟨hP, rfl⟩
  · cases h

/-- Of a sequence, the first part took the character. -/
theorem injectHead_fits
    (ih : ∀ {v}, (p.derivative c).Fits v →
      ∃ w, p.inject c v = .ok w ∧ p.Fits w ∧ w.flatten = c :: v.flatten)
    (h : (seq (p.derivative c) q).Fits v) :
    ∃ v₁ v₂, v = .seq v₁ v₂ ∧
      ∃ w, (do return .seq (← p.inject c v₁) v₂ : Except Mismatch Value) = .ok w ∧
        (seq p q).Fits w ∧ w.flatten = c :: v.flatten := by
  cases h with
  | @seq _ _ v₁ v₂ hv hw =>
      refine ⟨v₁, v₂, rfl, exists_ok_map (ih hv) fun w hpw => ⟨.seq hpw.1 hw, ?_⟩⟩
      rw [Value.flatten_seq, hpw.2, Value.flatten_seq, List.cons_append]

/-- Putting a character back keeps a value fitting, and the character comes before its text. -/
theorem inject_fits (hp : p.Ordered) (h : (p.derivative c).Fits v) :
    ∃ w, p.inject c v = .ok w ∧ p.Fits w ∧ w.flatten = c :: v.flatten := by
  induction p generalizing v with
  | never | empty => cases h
  | char d =>
      rw [derivative] at h
      rcases fits_ite h with ⟨rfl, rfl⟩
      exact ⟨.char d, rfl, .char d, by rw [Value.flatten_char, Value.flatten_void]⟩
  | oneOf s =>
      rw [derivative] at h
      rcases fits_ite h with ⟨hc, rfl⟩
      exact ⟨.char c, rfl, .oneOf hc, by rw [Value.flatten_char, Value.flatten_void]⟩
  | noneOf s =>
      rw [derivative, ← ite_not] at h
      rcases fits_ite h with ⟨hc, rfl⟩
      exact ⟨.char c, rfl, .noneOf hc, by rw [Value.flatten_char, Value.flatten_void]⟩
  | alt p q ihp ihq =>
      cases h with
      | left hv =>
          exact exists_ok_map (ihp hp.1 hv) fun w hw =>
            ⟨.left hw.1, by rw [Value.flatten_left, hw.2, Value.flatten_left]⟩
      | right hv =>
          exact exists_ok_map (ihq hp.2 hv) fun w hw =>
            ⟨.right hw.1, by rw [Value.flatten_right, hw.2, Value.flatten_right]⟩
  | seq p q ihp ihq =>
      rw [derivative] at h
      split at h
      · next hnil =>
        cases h with
        | left hv =>
            rcases injectHead_fits (ihp hp.1) hv with ⟨v₁, v₂, rfl, hw⟩
            rw [Value.flatten_left]
            exact hw
        | right hv =>
            -- The first part took nothing, and its value is that of the empty text.
            refine exists_ok_map₂ (emptyValue_fits hp.1 hnil) (ihq hp.2 hv) fun w x hw hx =>
              ⟨.seq hw.1 hx.1, ?_⟩
            rw [Value.flatten_seq, hw.2, hx.2, Value.flatten_right, List.nil_append]
      · rcases injectHead_fits (ihp hp.1) h with ⟨v₁, v₂, rfl, hw⟩
        exact hw
  | star p ih => exact injectRound_fits (.star p) (ih hp) h
  | plus p ih => exact injectRound_fits (.plus p) (ih hp) h
  | times p n ih =>
      cases n with
      | zero => cases h
      | succ n => exact injectRound_fits (.times p n) (ih hp) h
  | range p n m ih =>
      cases m with
      | zero => cases h
      | succ m => exact injectRound_fits (.range p n m) (ih hp.2) h
  | opt p ih =>
      refine exists_ok_map (f := fun w => .stars [w]) (ih hp h) fun w hw => ⟨?_, ?_⟩
      · exact .opt (List.forall_mem_singleton.mpr hw.1) (Nat.le_refl 1)
      · rw [Value.flatten_stars, List.flatMap_singleton, hw.2]
  | not p ih =>
      cases h with
      | @not _ cs hcs =>
          rw [accepts_eq_false_iff, ← matches_cons, ← accepts_eq_false_iff] at hcs
          refine ⟨.stars ((c :: cs).map .char), rfl, .not hcs, ?_⟩
          rw [flatten_map_char, flatten_map_char]
  | tagged name p ih =>
      exact exists_ok_map (ih hp h) fun w hw => ⟨.tagged hw.1, by rw [Value.flatten_tagged, hw.2]⟩

end Injection

section Simplification

/-- Undoing the simplification of a choice, whose sides may have been removed. -/
theorem restore_alt_fits
    (ihp : ∀ {v}, p.simplify.pattern.Fits v →
      ∃ w, p.simplify.restore v = .ok w ∧ p.Fits w ∧ w.flatten = v.flatten)
    (ihq : ∀ {v}, q.simplify.pattern.Fits v →
      ∃ w, q.simplify.restore v = .ok w ∧ q.Fits w ∧ w.flatten = v.flatten)
    (h : (alt p q).simplify.pattern.Fits v) :
    ∃ w, (alt p q).simplify.restore v = .ok w ∧ (alt p q).Fits w ∧ w.flatten = v.flatten := by
  rw [simplify] at h ⊢
  by_cases hp : p.simplify.pattern = never
  · rw [if_pos hp] at h ⊢
    exact exists_ok_map (ihq h) fun w hw => ⟨.right hw.1, by rw [Value.flatten_right, hw.2]⟩
  · rw [if_neg hp] at h ⊢
    by_cases hq : q.simplify.pattern = never ∨ p.simplify.pattern = q.simplify.pattern
    · rw [if_pos hq] at h ⊢
      exact exists_ok_map (ihp h) fun w hw => ⟨.left hw.1, by rw [Value.flatten_left, hw.2]⟩
    · rw [if_neg hq] at h ⊢
      cases h with
      | left hv =>
          exact exists_ok_map (ihp hv) fun w hw =>
            ⟨.left hw.1, by rw [Value.flatten_left, hw.2, Value.flatten_left]⟩
      | right hv =>
          exact exists_ok_map (ihq hv) fun w hw =>
            ⟨.right hw.1, by rw [Value.flatten_right, hw.2, Value.flatten_right]⟩

/-- Undoing the simplification of a sequence, whose parts may have been removed. -/
theorem restore_seq_fits
    (ihp : ∀ {v}, p.simplify.pattern.Fits v →
      ∃ w, p.simplify.restore v = .ok w ∧ p.Fits w ∧ w.flatten = v.flatten)
    (ihq : ∀ {v}, q.simplify.pattern.Fits v →
      ∃ w, q.simplify.restore v = .ok w ∧ q.Fits w ∧ w.flatten = v.flatten)
    (h : (seq p q).simplify.pattern.Fits v) :
    ∃ w, (seq p q).simplify.restore v = .ok w ∧ (seq p q).Fits w ∧ w.flatten = v.flatten := by
  rw [simplify] at h ⊢
  by_cases hnever : p.simplify.pattern = never ∨ q.simplify.pattern = never
  · rw [if_pos hnever] at h
    cases h
  · rw [if_neg hnever] at h ⊢
    by_cases hp : p.simplify.pattern = empty
    · rw [if_pos hp] at h ⊢
      have hvoid : p.simplify.pattern.Fits .void := by
        rw [hp]
        exact .empty
      refine exists_ok_map₂ (ihp hvoid) (ihq h) fun w x hw hx => ⟨.seq hw.1 hx.1, ?_⟩
      rw [Value.flatten_seq, hw.2, hx.2, Value.flatten_void, List.nil_append]
    · rw [if_neg hp] at h ⊢
      by_cases hq : q.simplify.pattern = empty
      · rw [if_pos hq] at h ⊢
        have hvoid : q.simplify.pattern.Fits .void := by
          rw [hq]
          exact .empty
        refine exists_ok_map₂ (ihp h) (ihq hvoid) fun w x hw hx => ⟨.seq hw.1 hx.1, ?_⟩
        rw [Value.flatten_seq, hw.2, hx.2, Value.flatten_void, List.append_nil]
      · rw [if_neg hq] at h ⊢
        cases h with
        | seq hv hw =>
            refine exists_ok_map₂ (ihp hv) (ihq hw) fun w x hw hx => ⟨.seq hw.1 hx.1, ?_⟩
            rw [Value.flatten_seq, hw.2, hx.2, Value.flatten_seq]

/-- Undoing a simplification keeps a value fitting, and its text. -/
theorem restore_fits (h : p.simplify.pattern.Fits v) :
    ∃ w, p.simplify.restore v = .ok w ∧ p.Fits w ∧ w.flatten = v.flatten := by
  induction p generalizing v with
  | alt p q ihp ihq => exact restore_alt_fits ihp ihq h
  | seq p q ihp ihq => exact restore_seq_fits ihp ihq h
  | tagged name p ih =>
      rw [simplify] at h ⊢
      cases h with
      | tagged hv =>
          exact exists_ok_map (ih hv) fun w hw =>
            ⟨.tagged hw.1, by rw [Value.flatten_tagged, hw.2, Value.flatten_tagged]⟩
  | not p ih =>
      rw [simplify] at h ⊢
      cases h with
      | not hp =>
          rw [accepts_eq_false_iff, matches_simplify, ← accepts_eq_false_iff] at hp
          exact ⟨_, rfl, .not hp, rfl⟩
  | _ => exact ⟨v, rfl, h, rfl⟩

end Simplification

section Texts

open Computability

/-- Rounds with texts of a language have a text of its power. -/
theorem flatten_stars_mem_pow {l : Language Char} (h : ∀ v ∈ vs, v.flatten ∈ l) :
    (Value.stars vs).flatten ∈ l ^ vs.length := by
  induction vs with
  | nil =>
      rw [Value.flatten_stars, List.flatMap_nil]
      exact Language.nil_mem_one
  | cons v vs ih =>
      rw [List.forall_mem_cons] at h
      rw [Value.flatten_stars, List.flatMap_cons, ← Value.flatten_stars, List.length_cons,
        pow_succ', mem_mul_iff]
      exact ⟨_, _, rfl, h.1, ih h.2⟩

/-- What fits a pattern has a text of its language. -/
theorem Fits.mem_language (hp : p.Ordered) (h : p.Fits v) : v.flatten ∈ p.language := by
  induction h with
  | empty =>
      rw [Value.flatten_void]
      exact Language.nil_mem_one
  | char c =>
      rw [Value.flatten_char]
      exact rfl
  | @oneOf s c hc | @noneOf s c hc =>
      rw [Value.flatten_char]
      exact ⟨c, hc, rfl⟩
  | left _ ih =>
      rw [Value.flatten_left]
      exact Or.inl (ih hp.1)
  | right _ ih =>
      rw [Value.flatten_right]
      exact Or.inr (ih hp.2)
  | seq _ _ ihv ihw =>
      rw [Value.flatten_seq, mem_language_seq]
      exact ⟨_, _, rfl, ihv hp.1, ihw hp.2⟩
  | star _ ih =>
      exact mem_kstar_iff_exists_pow.mpr ⟨_, flatten_stars_mem_pow fun v hv => ih v hv hp⟩
  | @plus p vs _ hlen ih =>
      cases vs with
      | nil => exact absurd hlen (Nat.not_succ_le_zero 0)
      | cons v vs =>
          have hall : ∀ w ∈ v :: vs, w.flatten ∈ p.language := fun w hw => ih w hw hp
          rw [List.forall_mem_cons] at hall
          have hrest : (Value.stars vs).flatten ∈ p.language∗ :=
            mem_kstar_iff_exists_pow.mpr ⟨_, flatten_stars_mem_pow hall.2⟩
          rw [Value.flatten_stars, List.flatMap_cons, ← Value.flatten_stars]
          exact mem_mul_iff.mpr ⟨_, _, rfl, hall.1, hrest⟩
  | @opt p vs _ hlen ih =>
      have hpow := flatten_stars_mem_pow fun v hv => ih v hv hp
      -- There is no round or a single one, and the powers are the two sides of an option.
      rcases Nat.le_one_iff_eq_zero_or_eq_one.mp hlen with hlen | hlen
      · rw [hlen, pow_zero] at hpow
        exact Or.inl hpow
      · rw [hlen, pow_one] at hpow
        exact Or.inr hpow
  | times _ hlen ih =>
      have hpow := flatten_stars_mem_pow fun v hv => ih v hv hp
      rw [hlen] at hpow
      exact hpow
  | range _ hlow hhigh ih =>
      exact ⟨_, hlow, hhigh, flatten_stars_mem_pow fun v hv => ih v hv hp.2⟩
  | @not p cs hcs =>
      have hbody : p.Ordered := hp
      rw [accepts_eq_false_iff, matches_iff_mem_language hbody] at hcs
      rw [flatten_map_char]
      exact hcs
  | tagged _ ih =>
      rw [Value.flatten_tagged]
      exact ih hp

/-- The texts of the values that fit a pattern are those of its language. -/
theorem exists_fits_iff_mem_language (hp : p.Ordered) :
    (∃ v, p.Fits v ∧ v.flatten = cs) ↔ cs ∈ p.language := by
  constructor
  · intro h
    rcases h with ⟨v, hv, rfl⟩
    exact hv.mem_language hp
  · intro h
    -- A fitting value is built back along the derivatives, one character at a time.
    induction cs generalizing p with
    | nil =>
        rcases emptyValue_fits hp ((nil_mem_language_iff hp).mp h) with ⟨v, -, hv⟩
        exact ⟨v, hv⟩
    | cons c cs ih =>
        rcases ih (ordered_derivative hp c) ((mem_language_derivative hp c cs).mpr h) with
          ⟨v, hv, hflat⟩
        rcases inject_fits hp hv with ⟨w, -, hw, hwflat⟩
        exact ⟨w, hw, by rw [hwflat, hflat]⟩

end Texts

/-- The value of the empty text fits; putting a character back and undoing a simplification work on
    every value that fits, give one that fits, and change its text as they should. -/
theorem fitting_preserved (p : Pattern) (hp : p.Ordered) :
    (p.isNullable = true → ∃ v, p.emptyValue = .ok v ∧ p.Fits v ∧ v.flatten = []) ∧
      (∀ c v, (p.derivative c).Fits v →
        ∃ w, p.inject c v = .ok w ∧ p.Fits w ∧ w.flatten = c :: v.flatten) ∧
      (∀ v, p.simplify.pattern.Fits v →
        ∃ w, p.simplify.restore v = .ok w ∧ p.Fits w ∧ w.flatten = v.flatten) := by
  refine ⟨?_, ?_, ?_⟩
  · exact emptyValue_fits hp
  · intro c v
    exact inject_fits hp
  · intro v
    exact restore_fits

/-- The character is left to the complement, although the range prefers to take it, and behind a
    side that matches nothing. -/
theorem fitting_preserved_of_complement :
    (seq (range (opt (char 'a')) 1 2) (alt never (Pattern.not (char 'b')))).Ordered ∧
      (seq (range (opt (char 'a')) 1 2) (alt never (Pattern.not (char 'b')))).inject 'a'
          (.right (.right (.stars []))) =
        .ok (.seq (.stars [.stars []]) (.right (.stars [.char 'a']))) ∧
      (seq (range (opt (char 'a')) 1 2) (alt never (Pattern.not (char 'b')))).Fits
        (.seq (.stars [.stars []]) (.right (.stars [.char 'a']))) ∧
      (seq (range (opt (char 'a')) 1 2) (alt never (Pattern.not (char 'b')))).simplify.restore
          (.seq (.stars [.stars []]) (.stars [.char 'a'])) =
        .ok (.seq (.stars [.stars []]) (.right (.stars [.char 'a']))) := by
  have hp : (seq (range (opt (char 'a')) 1 2) (alt never (Pattern.not (char 'b')))).Ordered :=
    ⟨⟨by decide, trivial⟩, trivial, trivial⟩
  have hround : (range (opt (char 'a')) 1 2).Fits (.stars [.stars []]) :=
    .range (List.forall_mem_singleton.mpr (.opt (List.forall_mem_nil _) (by decide)))
      (by decide) (by decide)
  have hnone : never.accepts [] = false := by decide
  have hletter : (char 'b').accepts ['a'] = false := by decide
  have hinject := (fitting_preserved _ hp).2.1 'a' (.right (.right (.stars [])))
    (.right (.right (.not hnone)))
  have hrestore := (fitting_preserved _ hp).2.2 (.seq (.stars [.stars []]) (.stars [.char 'a']))
    (.seq hround (.not hletter))
  rcases hinject with ⟨w, hw, hfits, -⟩
  rcases hrestore with ⟨x, hx, -, -⟩
  cases hw
  cases hx
  exact ⟨hp, rfl, hfits, rfl⟩

end Pattern

end WhileLang
