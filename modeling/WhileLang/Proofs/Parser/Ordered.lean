import WhileLang.Proofs.Parser.Results

/-!
# The Order of Parses

How the parses of a parser are ordered by what they leave. `Ordered` compares
any two of them by a relation, the one in front with the one behind it, and
says nothing about their values, so a parser may change these at will.

The laws rest on one idea. Where a second parser goes on behind a first one,
the parses multiply, and nothing could be said of them if it went on behind
more than one. So the relation should tell where it cannot: if being behind
another parse already means that the second parser fails, then it goes on
behind the first parse alone. A repetition does so in every level, and each
level is then in front of the one that it grew from.

## Main definitions

* `Parser.Ordered`: Any two parses are related by what they leave.
* `Parser.LongestFirst`: Every parse leaves less than those behind it.

## Theorems

* `Parser.ordered_map`, `Parser.ordered_satisfy`, `Parser.ordered_orElse`,
  `Parser.ordered_andThen`: The order of the parses of the combinators.
* `Parser.ordered_grow`: The order of the parses of a repetition.
* `Parser.fix_forall`: What holds of all parses of a recursive parser.
-/

namespace WhileLang

namespace Parser

variable {τ α β : Type} {R S : List τ → List τ → Prop} {p : Parser τ α} {q : Parser τ β}
  {input : List τ}

/-- What a parse leaves is related to what those behind it leave. -/
def Ordered (R : List τ → List τ → Prop) (results : List (α × List τ)) : Prop :=
  results.Pairwise fun r s => R r.2 s.2

/-- Every parse leaves less than those behind it. -/
def LongestFirst (results : List (α × List τ)) : Prop :=
  Ordered (fun rest rest' => rest.length < rest'.length) results

/-- No two parses leave the same if each leaves less than those behind it. -/
theorem LongestFirst.nodup {results : List (α × List τ)} (h : LongestFirst results) :
    (results.map Prod.snd).Nodup := by
  refine List.pairwise_map.mpr (h.imp fun hlt heq => ?_)
  rw [heq] at hlt
  exact Nat.lt_irrefl _ hlt

theorem ordered_map {f : α → β} : Ordered R (map f p input) ↔ Ordered R (p input) :=
  List.pairwise_map

/-- There is no more than one parse of a token. -/
theorem ordered_satisfy {f : τ → Option α} : Ordered R (satisfy f input) := by
  cases input with
  | nil => exact List.Pairwise.nil
  | cons t rest =>
      rw [satisfy]
      cases f t with
      | none => exact List.Pairwise.nil
      | some a => exact List.pairwise_singleton _ _

theorem ordered_orElse {q : Parser τ α} (hp : Ordered R (p input)) (hq : Ordered R (q input))
    (h : ∀ r ∈ p input, ∀ s ∈ q input, R r.2 s.2) : Ordered R (orElse p q input) :=
  List.pairwise_append.mpr ⟨hp, hq, h⟩

theorem andThen_eq_nil (h : p input = []) : andThen p q input = [] := by
  rw [andThen, h, List.flatMap_nil]

/-- The second parser goes on behind the first parse only, if it fails where one is in front. -/
theorem ordered_andThen (hp : Ordered R (p input)) (hfails : ∀ mid mid', R mid mid' → q mid' = [])
    (hq : ∀ mid, Ordered S (q mid)) : Ordered S (andThen p q input) := by
  refine List.pairwise_flatMap.mpr ⟨fun r _ => List.pairwise_map.mpr (hq r.2), ?_⟩
  refine hp.imp fun {r s} hrs x _ y hy => ?_
  rw [hfails r.2 s.2 hrs] at hy
  exact absurd hy List.not_mem_nil

theorem ordered_right (hp : Ordered R (p input)) (hfails : ∀ mid mid', R mid mid' → q mid' = [])
    (hq : ∀ mid, Ordered S (q mid)) : Ordered S (right p q input) :=
  ordered_map.mpr (ordered_andThen hp hfails hq)

theorem ordered_left (hp : Ordered R (p input)) (hfails : ∀ mid mid', R mid mid' → q mid' = [])
    (hq : ∀ mid, Ordered S (q mid)) : Ordered S (left p q input) :=
  ordered_map.mpr (ordered_andThen hp hfails hq)

section Levels

variable {f : α → β → α} {level below : List (α × List τ)}

/-- A level is as ordered as the parses of a step are, since it grows from one parse only. -/
theorem ordered_extend (hfails : ∀ mid mid', R mid mid' → q mid' = [])
    (hq : ∀ mid, Ordered R (q mid)) (hlevel : Ordered R level) :
    Ordered R (extend (fun x => map (f x) q) level) := by
  refine List.pairwise_flatMap.mpr ⟨fun r _ => (ordered_map.mpr (hq r.2)).filter _, ?_⟩
  refine hlevel.imp fun {r s} hrs x _ y hy => ?_
  rcases List.mem_map.mp (List.mem_filter.mp hy).1 with ⟨b, hb, -⟩
  rw [hfails r.2 s.2 hrs] at hb
  exact absurd hb List.not_mem_nil

/-- The next level is in front of the level, and so in front of what is behind that. -/
theorem rel_of_mem_extend (htrans : ∀ {a b c}, S a b → S b c → S a c)
    (hfails : ∀ mid mid', R mid mid' → q mid' = [])
    (hstep : ∀ mid, ∀ s ∈ q mid, s.2.length < mid.length → S s.2 mid)
    (hlevel : Ordered R level) (hall : Ordered S (level ++ below)) :
    ∀ s ∈ extend (fun x => map (f x) q) level, ∀ t ∈ level ++ below, S s.2 t.2 := by
  intro s hs t ht
  rcases mem_extend.mp hs with ⟨r, hr, hmem, hlt⟩
  rcases List.mem_map.mp hmem with ⟨b, hb, rfl⟩
  have hbr : S b.2 r.2 := hstep r.2 b hb hlt
  cases level with
  | nil => exact absurd hr List.not_mem_nil
  | cons first level =>
      -- The parse that was extended is the first one of its level.
      have hfirst : r = first := by
        refine (List.mem_cons.mp hr).resolve_right fun hr => ?_
        rw [hfails first.2 r.2 (List.rel_of_pairwise_cons hlevel hr)] at hb
        exact absurd hb List.not_mem_nil
      rw [hfirst] at hbr
      rcases List.mem_cons.mp ht with rfl | ht
      · exact hbr
      · exact htrans hbr (List.rel_of_pairwise_cons hall ht)

/-- A repetition whose step goes on behind the first parse of a level only. -/
theorem ordered_grow (htrans : ∀ {a b c}, S a b → S b c → S a c) (hRS : ∀ {a b}, R a b → S a b)
    (hfails : ∀ mid mid', R mid mid' → q mid' = []) (hq : ∀ mid, Ordered R (q mid))
    (hstep : ∀ mid, ∀ s ∈ q mid, s.2.length < mid.length → S s.2 mid)
    (hlevel : Ordered R level) (hall : Ordered S (level ++ below)) :
    Ordered S (grow (fun x => map (f x) q) level below) := by
  fun_induction grow (fun x => map (f x) q) level below with
  | case1 level below next hnext => exact hall
  | case2 level below next hnext ih =>
      have hnextLevel : Ordered R next := ordered_extend hfails hq hlevel
      have hfront : ∀ s ∈ next, ∀ t ∈ level ++ below, S s.2 t.2 :=
        rel_of_mem_extend htrans hfails hstep hlevel hall
      exact ih hnextLevel (List.pairwise_append.mpr ⟨hnextLevel.imp hRS, hall, hfront⟩)

end Levels

/-- What holds of all parses of a recursive parser if it holds of no parses at all, and of those of
    its definition with any parser in place of the calls of which it holds, and which has no parses
    of its own. -/
theorem fix_forall {f : Parser τ α → Parser τ α} {P : List (α × List τ) → Prop} (hnil : P [])
    (h : ∀ p : Parser τ α, (∀ input, P (p input)) → (∀ input, p input ⊆ fix f input) →
      ∀ input, P (f p input)) (input : List τ) : P (fix f input) := by
  induction hn : input.length using Nat.strongRecOn generalizing input with
  | ind n ih =>
      rw [fix_eq]
      refine h _ (fun rest => ?_) (fun rest => ?_) input
      · split
        next hlt => exact ih rest.length (hn ▸ hlt) rest rfl
        next => exact hnil
      · split
        next => exact List.Subset.refl _
        next => exact List.nil_subset _

end Parser

end WhileLang
