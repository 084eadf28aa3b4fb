import Mathlib.Data.List.Lex
import Mathlib.Logic.Function.Iterate
import WhileLang.Parser.Repeat
import WhileLang.Proofs.Parser.Enumeration

/-!
# Repetitions Enumerate Chains

What a repetition returns, with the order and the number of times. A chain is
a number of parses one after the other, each of which leaves less than it was
given, and it is told by the places at which its parses stand among those of
the parser. A repetition returns every chain once, the longest ones first,
and those of the same length in the lexicographic order of the places.

The repetition goes by levels. `level_enumerates` is one level more: its
chains are those of the level before with one parse put behind, in the same
order, as it is decided by the first place at which two chains differ. What is
returned are the levels, the last one in front, up to one that is empty. No
chain is missing then, because a longer one would begin with one of that level.

Nothing is asked of the parsers. They may return anything for an input, also
inputs that are longer or that have nothing to do with it, and the same parse
more than once.

## Main definitions

* `Parser.Chain`: Parses one after the other.
* `Parser.Grown`: What has been built at the end of a chain.
* `Parser.LongerFirst`: The order in which chains are returned.
* `Parser.EndsAfter`: The levels that a repetition returns.
* `Parser.Picks`, `Parser.PicksBoth`, `Parser.PicksBehind`: Parses by their
  places.

## Theorems

* `Parser.exists_endsAfter`: The levels of a repetition end.
* `Parser.level_enumerates`: A level enumerates the chains of one length.
* `Parser.grow_enumerates`: A repetition enumerates all of them.
* `Parser.repetition_enumerates`: What collecting repetitions return.
-/

namespace WhileLang

namespace Parser

variable {τ α β ι κ : Type}

/-- Parses one after the other, each of which leaves less than it was given: the input, the places
    at which they were picked, their values, and what the last one leaves. -/
inductive Chain (pick : κ → List τ → β × List τ → Prop) :
    List τ → List κ → List β → List τ → Prop
  | nil (input : List τ) : Chain pick input [] [] input
  | cons {input mid rest : List τ} {k : κ} {ks : List κ} {b : β} {bs : List β} :
      pick k input (b, mid) → mid.length < input.length → Chain pick mid ks bs rest →
      Chain pick input (k :: ks) (b :: bs) rest

section Chains

variable {pick : κ → List τ → β × List τ → Prop} {input rest : List τ} {k : κ} {ks : List κ}
  {bs : List β}

/-- The last parse of a chain. -/
theorem chain_concat :
    Chain pick input (ks ++ [k]) bs rest ↔ ∃ front b mid, Chain pick input ks front mid ∧
      pick k mid (b, rest) ∧ rest.length < mid.length ∧ bs = front ++ [b] := by
  constructor
  · intro h
    induction ks generalizing input bs with
    | nil =>
        cases h with
        | @cons _ mid _ _ _ b bs hpick hlt hrest =>
            cases hrest
            exact ⟨[], b, input, .nil input, hpick, hlt, rfl⟩
    | cons k' ks ih =>
        cases h with
        | @cons _ mid _ _ _ b bs hpick hlt hrest =>
            rcases ih hrest with ⟨front, b', mid', hfront, hpick', hlt', rfl⟩
            exact ⟨b :: front, b', mid', .cons hpick hlt hfront, hpick', hlt', rfl⟩
  · rintro ⟨front, b, mid, hfront, hpick, hlt, rfl⟩
    induction hfront with
    | nil input => exact .cons hpick hlt (.nil rest)
    | cons hpick' hlt' _ ih => exact .cons hpick' hlt' (ih hpick hlt)

/-- A chain begins with shorter ones. -/
theorem Chain.take (h : Chain pick input ks bs rest) (n : Nat) :
    ∃ front mid, Chain pick input (ks.take n) front mid := by
  induction h generalizing n with
  | nil input =>
      rw [List.take_nil]
      exact ⟨[], input, .nil input⟩
  | @cons input mid rest k ks b bs hpick hlt _ ih =>
      cases n with
      | zero => exact ⟨[], input, .nil input⟩
      | succ n =>
          rcases ih n with ⟨front, mid', hfront⟩
          exact ⟨b :: front, mid', .cons hpick hlt hfront⟩

end Chains

/-- Longer keys come first, and those of the same length in the given order. -/
def LongerFirst (length : κ → Nat) (lt : κ → κ → Prop) (k k' : κ) : Prop :=
  length k' < length k ∨ length k = length k' ∧ lt k k'

theorem not_longerFirst_self {length : κ → Nat} {lt : κ → κ → Prop} [Std.Irrefl lt] (k : κ) :
    ¬ LongerFirst length lt k k := by
  rintro (h | ⟨-, h⟩)
  · exact Nat.lt_irrefl _ h
  · exact irrefl k h

/-- Of lists that are as long as each other the first difference decides, whatever is behind. -/
theorem lex_append {lt : κ → κ → Prop} {ks ks' : List κ} (h : List.Lex lt ks ks')
    (hlength : ks.length = ks'.length) (ls ls' : List κ) : List.Lex lt (ks ++ ls) (ks' ++ ls') := by
  induction h with
  | nil => cases hlength
  | cons _ ih => exact .cons (ih (Nat.succ.inj hlength))
  | rel hlt => exact .rel hlt

/-- The order of chains and last places is that of the chains with the places put behind. -/
theorem lex_concat {lt₀ : ι → ι → Prop} {lt : κ → κ → Prop} {k k' : (ι × List κ) × κ}
    (hlength : k.1.2.length = k'.1.2.length) (h : Prod.Lex (Prod.Lex lt₀ (List.Lex lt)) lt k k') :
    Prod.Lex lt₀ (List.Lex lt) (k.1.1, k.1.2 ++ [k.2]) (k'.1.1, k'.1.2 ++ [k'.2]) := by
  cases h with
  | left l l' h =>
      cases h with
      | left ks ks' h => exact Prod.Lex.left _ _ h
      | right i h => exact Prod.Lex.right i (lex_append h hlength _ _)
  | right k h => exact Prod.Lex.right k.1 (List.Lex.append_left lt (List.Lex.rel h) k.2)

/-- The repetition from a first level on ends, as there are no more parses after that many levels,
    and it returns all levels up to there, the last one in front. -/
def EndsAfter (step : α → Parser τ α) (level : List (α × List τ)) (n : Nat)
    (results : List (α × List τ)) : Prop :=
  (extend step)^[n] level = [] ∧
    results = ((List.range n).map fun i => (extend step)^[i] level).reverse.flatten

/-- The levels of a repetition in front of what is given. -/
theorem grow_eq_levels (step : α → Parser τ α) (level below : List (α × List τ)) :
    ∃ n ≤ reach level + 1, (extend step)^[n] level = [] ∧ grow step level below
      = ((List.range n).map fun i => (extend step)^[i] level).reverse.flatten ++ below := by
  fun_induction grow step level below with
  | case1 level below next hnext =>
      refine ⟨1, Nat.le_add_left 1 _, hnext, ?_⟩
      simp
  | case2 level below next hnext ih =>
      rcases ih with ⟨n, hn, hend, hgrow⟩
      have hreach : reach next < reach level := reach_extend_lt hnext
      -- The levels of the next one are those of this one, without the first.
      refine ⟨n + 1, by omega, hend, ?_⟩
      rw [hgrow, List.range_succ_eq_map, List.map_cons, List.map_map, List.reverse_cons,
        List.flatten_append, List.append_assoc]
      simp only [Function.comp_def, Function.iterate_succ_apply, Function.iterate_zero_apply,
        List.flatten_cons, List.flatten_nil, List.append_nil]
      rfl

/-- A repetition ends after as many levels as there is input left at first, and one more. -/
theorem exists_endsAfter (step : α → Parser τ α) (level : List (α × List τ)) :
    ∃ n ≤ reach level + 1, EndsAfter step level n (grow step level []) := by
  rcases grow_eq_levels step level [] with ⟨n, hn, hend, hgrow⟩
  rw [List.append_nil] at hgrow
  exact ⟨n, hn, hend, hgrow⟩

section Levels

variable {seed : ι → α × List τ → Prop} {pick : κ → List τ → β × List τ → Prop}
  {lt₀ : ι → ι → Prop} {lt : κ → κ → Prop} {f : α → β → α} {q : Parser τ β}
  {level : List (α × List τ)}

/-- What has been built at the end of a chain that begins at a seed, and what is left there. -/
def Grown (seed : ι → α × List τ → Prop) (pick : κ → List τ → β × List τ → Prop) (f : α → β → α)
    (k : ι × List κ) (r : α × List τ) : Prop :=
  ∃ x mid bs, seed k.1 (x, mid) ∧ Chain pick mid k.2 bs r.2 ∧ bs.foldl f x = r.1

/-- With one parse more, what is built is extended by its value. -/
theorem grown_concat {i : ι} {ks : List κ} {k : κ} {s : α × List τ} :
    Grown seed pick f (i, ks ++ [k]) s ↔ ∃ r b, Grown seed pick f (i, ks) r ∧
      pick k r.2 (b, s.2) ∧ s.2.length < r.2.length ∧ f r.1 b = s.1 := by
  constructor
  · rintro ⟨x, mid, bs, hx, hchain, hs⟩
    rcases chain_concat.mp hchain with ⟨front, b, last, hfront, hpick, hlt, rfl⟩
    rw [List.foldl_append] at hs
    exact ⟨(front.foldl f x, last), b, ⟨x, mid, front, hx, hfront, rfl⟩, hpick, hlt, hs⟩
  · rintro ⟨r, b, ⟨x, mid, front, hx, hfront, hr⟩, hpick, hlt, hs⟩
    refine ⟨x, mid, front ++ [b], hx, ?_, ?_⟩
    · exact chain_concat.mpr ⟨front, b, r.2, hfront, hpick, hlt, rfl⟩
    · rw [List.foldl_append, hr]
      exact hs

/-- The next level has the chains with one parse more. -/
theorem extend_enumerates (hq : ∀ input, Enumerates lt (fun k r => pick k input r) (q input))
    {n : Nat} (hlevel : Enumerates (Prod.Lex lt₀ (List.Lex lt))
      (fun k r => k.2.length = n ∧ Grown seed pick f k r) level) :
    Enumerates (Prod.Lex lt₀ (List.Lex lt))
      (fun k r => k.2.length = n + 1 ∧ Grown seed pick f k r)
      (extend (fun x => map (f x) q) level) := by
  -- That a step has to leave less is a filter, so it becomes a part of the relation.
  have hsteps : ∀ r : α × List τ, Enumerates lt
      (fun k s => (∃ b, pick k r.2 b ∧ (f r.1 b.1, b.2) = s) ∧
        decide (s.2.length < r.2.length) = true)
      ((map (f r.1) q r.2).filter fun s => s.2.length < r.2.length) :=
    fun r => ((hq r.2).map _).filter _
  -- A chain and a place behind it are put together to a longer chain.
  refine ((hlevel.flatMap hsteps).rekey (fun k => (k.1.1, k.1.2 ++ [k.2])) ?_).congr ?_
  · rintro k s k' s' ⟨r, ⟨hk, -⟩, -⟩ ⟨r', ⟨hk', -⟩, -⟩ hlt
    exact lex_concat (hk.trans hk'.symm) hlt
  · rintro ⟨i, ks⟩ s
    constructor
    · rintro ⟨⟨⟨i', front⟩, k⟩, ⟨r, ⟨hfront, hr⟩, ⟨b, hpick, rfl⟩, hlt⟩, heq⟩
      cases heq
      refine ⟨?_, grown_concat.mpr ⟨r, b.1, hr, hpick, of_decide_eq_true hlt, rfl⟩⟩
      rw [List.length_append, hfront, List.length_singleton]
    · rintro ⟨hlength, hs⟩
      rcases List.eq_nil_or_concat' ks with rfl | ⟨front, k, rfl⟩
      · cases hlength
      · rcases grown_concat.mp hs with ⟨r, b, hr, hpick, hlt, hfb⟩
        have hfront : front.length = n := by simpa using hlength
        refine ⟨((i, front), k), ⟨r, ⟨hfront, hr⟩, ⟨(b, s.2), hpick, ?_⟩, decide_eq_true hlt⟩, rfl⟩
        rw [hfb]

/-- A level has the chains of its length. -/
theorem level_enumerates (hseed : Enumerates lt₀ seed level)
    (hq : ∀ input, Enumerates lt (fun k r => pick k input r) (q input)) (n : Nat) :
    Enumerates (Prod.Lex lt₀ (List.Lex lt))
      (fun k r => k.2.length = n ∧ Grown seed pick f k r)
      ((extend fun x => map (f x) q)^[n] level) := by
  induction n with
  | zero =>
      -- A seed is a chain without parses behind it.
      refine (hseed.rekey (fun i => (i, [])) ?_).congr ?_
      · intro i _ i' _ _ _ hlt
        exact Prod.Lex.left [] [] hlt
      · rintro ⟨i, ks⟩ r
        constructor
        · rintro ⟨i', hr, heq⟩
          cases heq
          exact ⟨rfl, r.1, r.2, [], hr, .nil r.2, rfl⟩
        · rintro ⟨hnil, x, mid, bs, hx, hchain, hr⟩
          obtain rfl := List.length_eq_zero_iff.mp hnil
          cases hchain
          rw [List.foldl_nil] at hr
          rw [hr] at hx
          exact ⟨i, hx, rfl⟩
  | succ n ih =>
      rw [Function.iterate_succ_apply']
      exact extend_enumerates hq ih

/-- The levels up to some length, the last one in front, have the chains that are shorter. -/
theorem levels_enumerate (hseed : Enumerates lt₀ seed level)
    (hq : ∀ input, Enumerates lt (fun k r => pick k input r) (q input)) (n : Nat) :
    Enumerates (LongerFirst (fun k => k.2.length) (Prod.Lex lt₀ (List.Lex lt)))
      (fun k r => k.2.length < n ∧ Grown seed pick f k r)
      ((List.range n).map fun i => (extend fun x => map (f x) q)^[i] level).reverse.flatten := by
  induction n with
  | zero => exact .nil fun k r h => Nat.not_lt_zero _ h.1
  | succ n ih =>
      rw [List.range_succ, List.map_append, List.map_singleton, List.reverse_append,
        List.reverse_singleton, List.flatten_append, List.flatten_singleton]
      have hlast : Enumerates (LongerFirst (fun k => k.2.length) (Prod.Lex lt₀ (List.Lex lt)))
          (fun k r => k.2.length = n ∧ Grown seed pick f k r) _ :=
        (level_enumerates hseed hq n).mono fun k r k' r' hk hk' hlt =>
          .inr ⟨hk.1.trans hk'.1.symm, hlt⟩
      have hbefore : ∀ k r k' r', k.2.length = n ∧ Grown seed pick f k r →
          k'.2.length < n ∧ Grown seed pick f k' r' →
          LongerFirst (fun k => k.2.length) (Prod.Lex lt₀ (List.Lex lt)) k k' :=
        fun k r k' r' hk hk' => .inl (Nat.lt_of_lt_of_eq hk'.1 hk.1.symm)
      refine (hlast.append ih hbefore).congr fun k r => ?_
      rw [← or_and_right, Nat.lt_succ_iff_lt_or_eq, or_comm]

/-- A repetition enumerates all chains, longer ones first. -/
theorem grow_enumerates (hseed : Enumerates lt₀ seed level)
    (hq : ∀ input, Enumerates lt (fun k r => pick k input r) (q input)) :
    Enumerates (LongerFirst (fun k => k.2.length) (Prod.Lex lt₀ (List.Lex lt)))
      (Grown seed pick f) (grow (fun x => map (f x) q) level []) := by
  rcases exists_endsAfter (fun x => map (f x) q) level with ⟨n, -, hend, hgrow⟩
  rw [hgrow]
  refine (levels_enumerate hseed hq n).congr fun k r => and_iff_right_of_imp ?_
  rintro ⟨x, mid, bs, hx, hchain, -⟩
  by_contra hlong
  -- The chain begins with one of the level that is empty.
  rcases hchain.take n with ⟨front, last, hfront⟩
  have hempty := level_enumerates hseed hq (f := f) n
  rw [hend] at hempty
  refine hempty.not_of_nil (k.1, k.2.take n) (front.foldl f x, last) ⟨?_, x, mid, front, hx,
    hfront, rfl⟩
  exact List.length_take_of_le (Nat.le_of_not_lt hlong)

end Levels

theorem reach_map (f : α → β) (p : Parser τ α) (input : List τ) :
    reach (map f p input) = reach (p input) := by
  rw [reach, reach, map, List.foldr_map]

section Collected

variable {p : Parser τ α} {q : Parser τ β} {input : List τ}

/-- The parse is at that place among the parses of the input. -/
def Picks (p : Parser τ α) (i : Nat) (input : List τ) (r : α × List τ) : Prop :=
  (p input)[i]? = some r

/-- The parses are one behind the other, at the first place and at the second one. -/
def PicksBoth (p : Parser τ α) (q : Parser τ β) (k : Nat × Nat) (input : List τ)
    (r : (α × β) × List τ) : Prop :=
  ∃ mid, p.Picks k.1 input (r.1.1, mid) ∧ q.Picks k.2 mid (r.1.2, r.2)

/-- The parse is at the second place, behind that of the first parser at the first place. -/
def PicksBehind (p : Parser τ α) (q : Parser τ β) (k : Nat × Nat) (input : List τ)
    (r : β × List τ) : Prop :=
  ∃ a, PicksBoth p q k input ((a, r.1), r.2)

/-- A first parse, and a chain of separators and parses from there on. -/
def SeparatedChain (p : Parser τ α) (sep : Parser τ β) (input : List τ)
    (k : Nat × List (Nat × Nat)) (r : Items α × List τ) : Prop :=
  ∃ x mid xs, p.Picks k.1 input (x, mid) ∧ Chain (PicksBehind sep p) mid k.2 xs r.2 ∧
    r.1.toList = x :: xs

theorem andThen_enumerates (p : Parser τ α) (q : Parser τ β) (input : List τ) :
    Enumerates (Prod.Lex (· < ·) (· < ·)) (fun k r => PicksBoth p q k input r)
      (andThen p q input) := by
  have hinner : ∀ r : α × List τ, Enumerates (· < ·)
      (fun (i : Nat) s => ∃ b, (q r.2)[i]? = some b ∧ ((r.1, b.1), b.2) = s)
      ((q r.2).map fun s => ((r.1, s.1), s.2)) :=
    fun r => (enumerates_getElem? (q r.2)).map _
  refine ((enumerates_getElem? (p input)).flatMap hinner).congr fun k s => ?_
  constructor
  · rintro ⟨r, hr, b, hb, rfl⟩
    exact ⟨r.2, hr, hb⟩
  · rintro ⟨mid, hp, hq⟩
    exact ⟨(s.1.1, mid), hp, (s.1.2, s.2), hq, rfl⟩

theorem right_enumerates (p : Parser τ α) (q : Parser τ β) (input : List τ) :
    Enumerates (Prod.Lex (· < ·) (· < ·)) (fun k r => PicksBehind p q k input r)
      (right p q input) := by
  refine ((andThen_enumerates p q input).map _).congr fun k r => ?_
  constructor
  · rintro ⟨b, hb, rfl⟩
    exact ⟨b.1.1, hb⟩
  · rintro ⟨a, ha⟩
    exact ⟨((a, r.1), r.2), ha, rfl⟩

theorem toList_foldl_push (xs : Items α) (ys : List α) :
    (ys.foldl Items.push xs).toList = xs.toList ++ ys := by
  induction ys generalizing xs with
  | nil => exact (List.append_nil _).symm
  | cons y ys ih => rw [List.foldl_cons, ih, Items.toList_push, List.append_assoc]; rfl

/-- Any number of parses are those of the chains from the input on. -/
theorem many_enumerates (p : Parser τ α) (input : List τ) :
    Enumerates (LongerFirst List.length (List.Lex (· < ·)))
      (fun ks r => Chain p.Picks input ks r.1.toList r.2) (many p input) := by
  have hall := grow_enumerates (f := Items.push) (enumerates_singleton (Items.empty, input))
    fun input => enumerates_getElem? (p input)
  -- There is only one seed, so the key does not have to name it.
  refine (hall.rekey Prod.snd ?_).congr fun ks r => ?_
  · rintro ⟨_, ks⟩ r ⟨_, ks'⟩ r' - - (h | ⟨hlength, h⟩)
    · exact .inl h
    · cases h with
      | left _ _ h => exact h.elim
      | right _ h => exact .inr ⟨hlength, h⟩
  · constructor
    · rintro ⟨k, ⟨x, mid, xs, heq, hchain, hr⟩, rfl⟩
      cases heq
      rw [← hr, toList_foldl_push]
      exact hchain
    · intro h
      have hbuilt : r.1.toList.foldl Items.push Items.empty = r.1 :=
        Items.toList_inj.mp (toList_foldl_push Items.empty r.1.toList)
      exact ⟨((), ks), ⟨Items.empty, input, r.1.toList, rfl, h, hbuilt⟩, rfl⟩

/-- Parses with separators are those of the chains from a first parse on. -/
theorem sepBy1_enumerates (p : Parser τ α) (sep : Parser τ β) (input : List τ) :
    Enumerates (LongerFirst (fun k => k.2.length)
        (Prod.Lex (· < ·) (List.Lex (Prod.Lex (· < ·) (· < ·)))))
      (SeparatedChain p sep input) (sepBy1 p sep input) := by
  have hseed := (enumerates_getElem? (p input)).map fun r => (Items.empty.push r.1, r.2)
  refine (grow_enumerates (f := Items.push) hseed (right_enumerates sep p)).congr fun k r => ?_
  constructor
  · rintro ⟨_, mid, xs, ⟨x, hx, heq⟩, hchain, hr⟩
    cases heq
    refine ⟨x.1, x.2, xs, hx, hchain, ?_⟩
    rw [← hr, toList_foldl_push]
    rfl
  · rintro ⟨x, mid, xs, hx, hchain, hr⟩
    have hbuilt : xs.foldl Items.push (Items.empty.push x) = r.1 :=
      Items.toList_inj.mp ((toList_foldl_push _ _).trans hr.symm)
    exact ⟨Items.empty.push x, mid, xs, ⟨(x, mid), hx, rfl⟩, hchain, hbuilt⟩

/-- Repetitions return every chain once, longer ones first and those of the same length in the
    lexicographic order of the places at which their parses were picked, with the values of the
    chain in order. The places determine a chain. And the loop that goes from level to level ends,
    for collecting without separators after no more levels than there are tokens, and one. -/
theorem repetition_enumerates (p : Parser τ α) (sep : Parser τ β) (input : List τ) :
    Enumerates (LongerFirst List.length (List.Lex (· < ·)))
      (fun ks r => Chain p.Picks input ks r.1.toList r.2) (many p input) ∧
    Enumerates (LongerFirst (fun k => k.2.length)
        (Prod.Lex (· < ·) (List.Lex (Prod.Lex (· < ·) (· < ·)))))
      (SeparatedChain p sep input) (sepBy1 p sep input) ∧
    (∀ ks (r r' : Items α × List τ), Chain p.Picks input ks r.1.toList r.2 →
      Chain p.Picks input ks r'.1.toList r'.2 → r = r') ∧
    (∀ k r r', SeparatedChain p sep input k r → SeparatedChain p sep input k r' → r = r') ∧
    (∃ n ≤ input.length + 1,
      EndsAfter (fun xs => map xs.push p) [(Items.empty, input)] n (many p input)) ∧
    ∃ n ≤ reach (p input) + 1,
      EndsAfter (fun xs => map xs.push (right sep p)) (map Items.empty.push p input) n
        (sepBy1 p sep input) := by
  have hmany := many_enumerates p input
  have hsepBy1 := sepBy1_enumerates p sep input
  refine ⟨hmany, hsepBy1, fun ks r r' => hmany.unique not_longerFirst_self,
    fun k r r' => hsepBy1.unique not_longerFirst_self, ?_, ?_⟩
  · have hends := exists_endsAfter (fun xs : Items α => map xs.push p) [(.empty, input)]
    rw [reach, List.foldr_cons, List.foldr_nil, Nat.max_zero] at hends
    exact hends
  · have hends := exists_endsAfter (fun xs => map xs.push (right sep p))
      (map Items.empty.push p input)
    rw [reach_map] at hends
    exact hends

end Collected

end Parser

end WhileLang
