import WhileLang.Proofs.Pattern.Plain
import WhileLang.Value.Traversal

/-!
# The Preferred Value

Among all ways in which a pattern matches a text there is one that it
prefers: of two sides the left one, and of the places where a text can be cut
between two parts the last one. `Prefers` says this rule by rule, without
derivatives and without simplification, and it leaves no choice: a text has
one preferred value at most.

Since only one value is preferred, nothing about the way in which a value was
found matters. Two computations that both end in the preferred value of a
text end in the same one, however little their steps have in common.

The four repetitions differ in how many rounds they allow, but not in what a
round is. `Round` names what they have in common: the pattern of a round and
the pattern of the rounds behind it. As for matching, the bounds of a range
need not be in order.

## Main definitions

* `Pattern.Round`: A repetition as one round and what follows it.
* `Pattern.Greedy`: A cut behind which the first part cannot take more.
* `Pattern.Prefers`: The value by which a pattern prefers to match a text.

## Theorems

* `Pattern.Round.matches_cons`: The first character belongs to the first round that takes something.
* `Pattern.Prefers.matches`: Only a text that is matched has a preferred value.
* `Pattern.Prefers.flatten`: A preferred value has the text it is preferred for.
* `Pattern.Greedy.unique`: A text is cut greedily in one way at most.
* `Pattern.Prefers.unique`: A text has one preferred value at most.
-/

namespace WhileLang

namespace Pattern

/-- A repetition, the pattern of its first round, and that of the rounds behind it. -/
inductive Round : Pattern → Pattern → Pattern → Prop
  | star (p : Pattern) : Round (star p) p (star p)
  | plus (p : Pattern) : Round (plus p) p (star p)
  | times (p : Pattern) (n : Nat) : Round (times p (n + 1)) p (times p n)
  | range (p : Pattern) (n m : Nat) : Round (range p n (m + 1)) p (range p (n - 1) m)

/-- Behind this cut of a text the first part cannot take more. -/
def Greedy (p q : Pattern) (u t : List Char) : Prop :=
  ∀ w x, w ≠ [] → w ++ x = t → p.Matches (u ++ w) → ¬ q.Matches x

/-- The value by which a pattern prefers to match a text. -/
inductive Prefers : Pattern → List Char → Value → Prop
  | empty : Prefers empty [] .void
  | char (c : Char) : Prefers (char c) [c] (.char c)
  | oneOf {s : CharSet} {c : Char} (hc : c ∈ s) : Prefers (oneOf s) [c] (.char c)
  | noneOf {s : CharSet} {c : Char} (hc : c ∉ s) : Prefers (noneOf s) [c] (.char c)
  | left {p q : Pattern} {cs : List Char} {v : Value} (hv : Prefers p cs v) :
      Prefers (alt p q) cs (.left v)
  | right {p q : Pattern} {cs : List Char} {v : Value} (hp : ¬ p.Matches cs)
      (hv : Prefers q cs v) : Prefers (alt p q) cs (.right v)
  | seq {p q : Pattern} {cs u t : List Char} {v w : Value} (hcs : u ++ t = cs)
      (hv : Prefers p u v) (hw : Prefers q t w) (hg : Greedy p q u t) :
      Prefers (seq p q) cs (.seq v w)
  | starNil (p : Pattern) : Prefers (star p) [] (.stars [])
  | plusNil {p : Pattern} {v : Value} (hv : Prefers p [] v) : Prefers (plus p) [] (.stars [v])
  | timesNil {p : Pattern} {n : Nat} {v : Value} (hv : n ≠ 0 → Prefers p [] v) :
      Prefers (times p n) [] (.stars (List.replicate n v))
  | rangeNil {p : Pattern} {n m : Nat} {v : Value} (hv : n ≠ 0 → Prefers p [] v) :
      Prefers (range p n m) [] (.stars (List.replicate n v))
  | round {r p q : Pattern} {cs u t : List Char} {v : Value} {vs : List Value}
      (hr : Round r p q) (hcs : u ++ t = cs) (hu : u ≠ []) (hv : Prefers p u v)
      (hvs : Prefers q t (.stars vs)) (hg : Greedy p q u t) : Prefers r cs (.stars (v :: vs))
  | optNil (p : Pattern) : Prefers (opt p) [] (.stars [])
  | optSome {p : Pattern} {cs : List Char} {v : Value} (hcs : cs ≠ []) (hv : Prefers p cs v) :
      Prefers (opt p) cs (.stars [v])
  | not {p : Pattern} {cs : List Char} (hp : ¬ p.Matches cs) :
      Prefers (not p) cs (.stars (cs.map .char))
  | tagged {name : String} {p : Pattern} {cs : List Char} {v : Value} (hv : Prefers p cs v) :
      Prefers (tagged name p) cs (.tagged name v)

variable {p q r : Pattern} {cs u t : List Char} {v w : Value}

theorem Round.derivative_eq (hr : Round r p q) (c : Char) :
    r.derivative c = .seq (p.derivative c) q := by
  cases hr with
  | star | plus => rfl
  | times _ n => rw [derivative, if_neg (Nat.succ_ne_zero n), Nat.add_sub_cancel]
  | range _ n m => rw [derivative, if_neg (Nat.succ_ne_zero m), Nat.add_sub_cancel]

/-- The rounds behind a round are a list. -/
theorem Round.exists_stars (hr : Round r p q) (hv : Prefers q cs v) : ∃ vs, v = .stars vs := by
  cases hr <;> cases hv <;> exact ⟨_, rfl⟩

/-- The first character of a repetition belongs to the first round that takes something. -/
theorem Round.matches_cons {c : Char} (hr : Round r p q) :
    r.Matches (c :: cs) ↔ ∃ u t, u ++ t = cs ∧ p.Matches (c :: u) ∧ q.Matches t := by
  rw [Pattern.matches_cons, hr.derivative_eq, matches_seq]
  simp only [Pattern.matches_cons]

theorem Round.matches (hr : Round r p q) (hu : u ≠ []) (hp : p.Matches u) (hq : q.Matches t) :
    r.Matches (u ++ t) := by
  cases u with
  | nil => exact absurd rfl hu
  | cons c u => exact hr.matches_cons.mpr ⟨u, t, rfl, hp, hq⟩

theorem Round.functional {p' q' : Pattern} (hr : Round r p q) (hr' : Round r p' q') :
    p = p' ∧ q = q' := by
  cases hr <;> cases hr' <;> exact ⟨rfl, rfl⟩

/-- Only a text that is matched has a preferred value. -/
theorem Prefers.matches (h : Prefers p cs v) : p.Matches cs := by
  induction h with
  | empty => rfl
  | char c => rw [matches_cons, derivative, if_pos rfl, matches_empty]
  | oneOf hc => rw [matches_cons, derivative, if_pos hc, matches_empty]
  | noneOf hc => rw [matches_cons, derivative, if_neg hc, matches_empty]
  | left _ ih => exact matches_alt.mpr (Or.inl ih)
  | right _ _ ih => exact matches_alt.mpr (Or.inr ih)
  | seq hcs _ _ _ ihv ihw => exact matches_seq.mpr ⟨_, _, hcs, ihv, ihw⟩
  | starNil | optNil => rfl
  | plusNil _ ih => exact ih
  | @timesNil p n v hv ih | @rangeNil p n m v hv ih =>
      rw [matches_nil, isNullable, Bool.or_eq_true, beq_iff_eq]
      by_cases hn : n = 0
      · exact Or.inl hn
      · exact Or.inr (ih hn)
  | round hr hcs hu _ _ _ ihv ihvs =>
      rw [← hcs]
      exact hr.matches hu ihv ihvs
  | @optSome p cs v hcs _ ih =>
      cases cs with
      | nil => rfl
      | cons c cs => exact ih
  | not hp => exact matches_not.mpr hp
  | tagged _ ih => exact matches_tagged.mpr ih

/-- A preferred value has the text it is preferred for. -/
theorem Prefers.flatten (h : Prefers p cs v) : v.flatten = cs := by
  induction h with
  | empty => rw [Value.flatten_void]
  | char | oneOf | noneOf => rw [Value.flatten_char]
  | left _ ih => rw [Value.flatten_left, ih]
  | right _ _ ih => rw [Value.flatten_right, ih]
  | seq hcs _ _ _ ihv ihw => rw [Value.flatten_seq, ihv, ihw, hcs]
  | starNil | optNil => rw [Value.flatten_stars, List.flatMap_nil]
  | plusNil _ ih => rw [Value.flatten_stars, List.flatMap_singleton, ih]
  | @timesNil p n v hv ih | @rangeNil p n m v hv ih =>
      rw [Value.flatten_stars, List.flatMap_eq_nil_iff]
      intro x hx
      rw [List.mem_replicate] at hx
      rw [hx.2, ih hx.1]
  | round _ hcs _ _ _ _ ihv ihvs =>
      rw [Value.flatten_stars] at ihvs
      rw [Value.flatten_stars, List.flatMap_cons, ihv, ihvs, hcs]
  | optSome _ _ ih => rw [Value.flatten_stars, List.flatMap_singleton, ih]
  | not _ =>
      rw [Value.flatten_stars, List.flatMap_map, funext Value.flatten_char,
        List.flatMap_singleton']
  | tagged _ ih => rw [Value.flatten_tagged, ih]

/-- A first part that takes the whole text cannot take more. -/
theorem greedy_nil (p q : Pattern) (cs : List Char) : Greedy p q cs [] := by
  intro x y hx hxy
  exact absurd (List.append_eq_nil_iff.mp hxy).1 hx

/-- A text is cut greedily in one way at most. -/
theorem Greedy.unique {u' t' : List Char} (h : u ++ t = u' ++ t') (hg : Greedy p q u t)
    (hg' : Greedy p q u' t') (hu : p.Matches u) (hu' : p.Matches u') (ht : q.Matches t)
    (ht' : q.Matches t') : u = u' ∧ t = t' := by
  rcases List.append_eq_append_iff.mp h with ⟨a, rfl, rfl⟩ | ⟨a, rfl, rfl⟩
  · by_cases ha : a = []
    · rw [ha, List.append_nil, List.nil_append]
      exact ⟨rfl, rfl⟩
    · exact absurd ht' (hg a t' ha rfl hu')
  · by_cases ha : a = []
    · rw [ha, List.append_nil, List.nil_append]
      exact ⟨rfl, rfl⟩
    · exact absurd ht (hg' a t ha rfl hu)

/-- A round takes something, so there is none in the empty text. -/
theorem append_ne_nil_of_round (hcs : u ++ t = cs) (hu : u ≠ []) : cs ≠ [] := by
  rw [← hcs]
  exact List.append_ne_nil_of_left_ne_nil hu t

/-- A text has one preferred value at most. -/
theorem Prefers.unique (h : Prefers p cs v) (h' : Prefers p cs w) : v = w := by
  induction h generalizing w with
  | empty | char | oneOf | noneOf =>
      cases h' with
      | round hr => cases hr
      | _ => rfl
  | left hv ih =>
      cases h' with
      | left hv' => rw [ih hv']
      | right hp _ => exact absurd hv.matches hp
      | round hr => cases hr
  | right hp hv ih =>
      cases h' with
      | left hv' => exact absurd hv'.matches hp
      | right _ hv' => rw [ih hv']
      | round hr => cases hr
  | seq hcs hv hw hg ihv ihw =>
      cases h' with
      | seq hcs' hv' hw' hg' =>
          rcases hg.unique (hcs.trans hcs'.symm) hg' hv.matches hv'.matches hw.matches hw'.matches with
            ⟨rfl, rfl⟩
          rw [ihv hv', ihw hw']
      | round hr => cases hr
  | starNil =>
      cases h' with
      | starNil => rfl
      | round _ hcs hu => exact absurd rfl (append_ne_nil_of_round hcs hu)
  | plusNil _ ih =>
      cases h' with
      | plusNil hv' => rw [ih hv']
      | round _ hcs hu => exact absurd rfl (append_ne_nil_of_round hcs hu)
  | @timesNil p n v hv ih =>
      cases h' with
      | timesNil hv' =>
          by_cases hn : n = 0
          · rw [hn, List.replicate_zero, List.replicate_zero]
          · rw [ih hn (hv' hn)]
      | round _ hcs hu => exact absurd rfl (append_ne_nil_of_round hcs hu)
  | @rangeNil p n m v hv ih =>
      cases h' with
      | rangeNil hv' =>
          by_cases hn : n = 0
          · rw [hn, List.replicate_zero, List.replicate_zero]
          · rw [ih hn (hv' hn)]
      | round _ hcs hu => exact absurd rfl (append_ne_nil_of_round hcs hu)
  | round hr hcs hu hv hvs hg ihv ihvs =>
      have hne := append_ne_nil_of_round hcs hu
      cases h' with
      | round hr' hcs' _ hv' hvs' hg' =>
          rcases hr.functional hr' with ⟨rfl, rfl⟩
          rcases hg.unique (hcs.trans hcs'.symm) hg' hv.matches hv'.matches hvs.matches hvs'.matches with
            ⟨rfl, rfl⟩
          have htail := Value.stars.inj (ihvs hvs')
          rw [ihv hv', htail]
      | starNil | plusNil | timesNil | rangeNil => exact absurd rfl hne
      | _ => cases hr
  | optNil =>
      cases h' with
      | optNil => rfl
      | optSome hcs => exact absurd rfl hcs
      | round hr => cases hr
  | optSome hcs _ ih =>
      cases h' with
      | optNil => exact absurd rfl hcs
      | optSome _ hv' => rw [ih hv']
      | round hr => cases hr
  | not =>
      cases h' with
      | not => rfl
      | round hr => cases hr
  | tagged _ ih =>
      cases h' with
      | tagged hv' => rw [ih hv']
      | round hr => cases hr

end Pattern

end WhileLang
