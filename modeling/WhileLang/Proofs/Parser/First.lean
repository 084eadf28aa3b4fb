import WhileLang.Proofs.Parser.Results

/-!
# The First Parse

Which of its parses a parser prefers. The question makes sense only with what
comes afterwards in view: the first parse of all may leave something that
nothing else can go on from, and then it is the first of the others that
counts. `first?` takes this as a test on what is left.

With the test as a parameter the combinators can be followed one by one. Of
two parsers one after the other, the first one gives its first parse behind
which the second one passes the test. A repetition is not different, although
it goes by levels: its first parse is at the end of a chain in which every
step is the first one that passes some test.

## Main definitions

* `Parser.first?`: The first parse that leaves something that passes a test.
* `Parser.FirstExtends`: A step that is the first one for some test.

## Theorems

* `Parser.find?_flatMap_eq_some`: The first element of lists in a row.
* `Parser.first?_orElse`, `Parser.first?_map`, `Parser.first?_andThen`,
  `Parser.first?_opt`: First parses of the combinators.
* `Parser.first?_grow`: The first parse of a repetition.
-/

namespace WhileLang

namespace Parser

variable {τ α β : Type} {ok : List τ → Bool} {input rest : List τ} {a : α} {b : β}

/-- The first parse that leaves something that passes the test. -/
def first? (ok : List τ → Bool) (results : List (α × List τ)) : Option (α × List τ) :=
  results.find? fun r => ok r.2

/-- A parse that leaves nothing is a first one for the test that there is nothing. -/
theorem resolve_eq_some {results : List (α × List τ)} :
    resolve results = some a ↔ ∃ rest, first? List.isEmpty results = some (a, rest) := by
  rw [resolve, Option.map_eq_some_iff]
  exact ⟨fun ⟨r, h, ha⟩ => ⟨r.2, ha ▸ h⟩, fun ⟨rest, h⟩ => ⟨(a, rest), h, rfl⟩⟩

theorem mem_of_first? {results : List (α × List τ)} (h : first? ok results = some (a, rest)) :
    (a, rest) ∈ results ∧ ok rest = true := by
  rw [first?] at h
  have hok := List.find?_some h
  exact ⟨List.mem_of_find?_eq_some h, hok⟩

/-- If a parse passes the test, then there is a first one. -/
theorem exists_first? (ok : List τ → Bool) {results : List (α × List τ)}
    (h : (a, rest) ∈ results) (hok : ok rest = true) : ∃ r, first? ok results = some r :=
  Option.isSome_iff_exists.mp (List.find?_isSome.mpr ⟨(a, rest), h, hok⟩)

/-- Of lists in a row, the first element is in the first list that has one. -/
theorem find?_flatMap_eq_some {γ δ : Type} {l : List γ} {f : γ → List δ} {p : δ → Bool} {y : δ}
    (h : (l.flatMap f).find? p = some y) :
    ∃ x, l.find? (fun x => (f x).any p) = some x ∧ (f x).find? p = some y := by
  induction l with
  | nil => cases h
  | cons x l ih =>
      rw [List.flatMap_cons, List.find?_append] at h
      rw [List.find?_cons]
      cases hx : (f x).find? p with
      -- Where nothing passes, the list is passed over by the other search as well.
      | none =>
          have hany : (f x).any p = false := by
            rw [List.any_eq_false]
            exact List.find?_eq_none.mp hx
          rw [hx, Option.none_or] at h
          rw [hany]
          exact ih h
      | some z =>
          have hany : (f x).any p = true := List.any_eq_true.mpr
            ⟨z, List.mem_of_find?_eq_some hx, List.find?_some hx⟩
          rw [hx, Option.some_or] at h
          rw [hany]
          exact ⟨x, rfl, hx.trans h⟩

theorem first?_append {rs ss : List (α × List τ)} {r : α × List τ}
    (h : first? ok (rs ++ ss) = some r) : first? ok rs = some r ∨ first? ok ss = some r := by
  rw [first?, List.find?_append] at h
  exact (Option.or_eq_some_iff.mp h).imp_right And.right

theorem first?_orElse {p q : Parser τ α} {r : α × List τ}
    (h : first? ok (orElse p q input) = some r) :
    first? ok (p input) = some r ∨ first? ok (q input) = some r :=
  first?_append h

theorem first?_map {f : α → β} {p : Parser τ α} :
    first? ok (map f p input) = some (b, rest) ↔
      ∃ a, first? ok (p input) = some (a, rest) ∧ f a = b := by
  rw [first?, map, List.find?_map, Option.map_eq_some_iff]
  constructor
  · rintro ⟨⟨a, rest'⟩, h, heq⟩
    cases heq
    exact ⟨a, h, rfl⟩
  · rintro ⟨a, h, rfl⟩
    exact ⟨(a, rest), h, rfl⟩

/-- Of two parsers one after the other, the first one has regard to the second one. -/
theorem first?_andThen {p : Parser τ α} {q : Parser τ β}
    (h : first? ok (andThen p q input) = some ((a, b), rest)) :
    ∃ mid, first? (fun mid => (q mid).any fun s => ok s.2) (p input) = some (a, mid) ∧
      first? ok (q mid) = some (b, rest) := by
  rw [first?, andThen] at h
  rcases find?_flatMap_eq_some h with ⟨⟨a', mid⟩, hp, hq⟩
  rw [List.find?_map, Option.map_eq_some_iff] at hq
  rcases hq with ⟨⟨b', rest'⟩, hq, heq⟩
  cases heq
  simp only [List.any_map, Function.comp_def] at hp
  exact ⟨mid, hp, hq⟩

theorem first?_right {p : Parser τ α} {q : Parser τ β}
    (h : first? ok (right p q input) = some (b, rest)) :
    ∃ a mid, (a, mid) ∈ p input ∧ first? ok (q mid) = some (b, rest) := by
  rcases first?_map.mp h with ⟨⟨a, b'⟩, hpair, hb⟩
  cases hb
  rcases first?_andThen hpair with ⟨mid, hp, hq⟩
  exact ⟨a, mid, (mem_of_first? hp).1, hq⟩

theorem first?_left {p : Parser τ α} {q : Parser τ β}
    (h : first? ok (left p q input) = some (a, rest)) :
    ∃ ok' b mid, first? ok' (p input) = some (a, mid) ∧ (b, rest) ∈ q mid := by
  rcases first?_map.mp h with ⟨⟨a', b⟩, hpair, ha⟩
  cases ha
  rcases first?_andThen hpair with ⟨mid, hp, hq⟩
  exact ⟨_, b, mid, hp, (mem_of_first? hq).1⟩

/-- Nothing at all is preferred only where no parse passes the test. -/
theorem first?_opt {p : Parser τ α} {o : Option α} (h : first? ok (opt p input) = some (o, rest)) :
    (∃ a, o = some a ∧ first? ok (p input) = some (a, rest)) ∨
      o = none ∧ rest = input ∧ ∀ r ∈ p input, ok r.2 = false := by
  rw [first?, opt, List.find?_append, List.find?_map] at h
  rcases Option.or_eq_some_iff.mp h with hsome | ⟨hnone, hempty⟩
  · rcases Option.map_eq_some_iff.mp hsome with ⟨⟨a, rest'⟩, ha, heq⟩
    cases heq
    exact Or.inl ⟨a, rfl, ha⟩
  · rw [Option.map_eq_none_iff, List.find?_eq_none] at hnone
    refine Or.inr ?_
    cases List.mem_singleton.mp (List.mem_of_find?_eq_some hempty)
    exact ⟨rfl, rfl, fun r hr => Bool.eq_false_iff.mpr (hnone r hr)⟩

/-- A step of a repetition that is the first one for some test. -/
def FirstExtends (f : α → β → α) (q : Parser τ β) (r s : α × List τ) : Prop :=
  ∃ ok b, first? ok (q r.2) = some (b, s.2) ∧ f r.1 b = s.1

theorem first?_extend {f : α → β → α} {q : Parser τ β} {level : List (α × List τ)}
    {s : α × List τ} (h : first? ok (extend (fun x => map (f x) q) level) = some s) :
    ∃ ok' r, first? ok' level = some r ∧ FirstExtends f q r s := by
  rw [first?, extend] at h
  rcases find?_flatMap_eq_some h with ⟨r, hr, hs⟩
  -- What a step leaves does not depend on what was built so far.
  have htest : ∀ r : α × List τ,
      ((map (f r.1) q r.2).filter fun s => s.2.length < r.2.length).any (fun s => ok s.2) =
        (q r.2).any fun s => decide (s.2.length < r.2.length) && ok s.2 := by
    intro r
    rw [List.any_filter, map, List.any_map]
    rfl
  simp only [htest] at hr
  simp only [List.find?_filter, Bool.decide_and, Bool.decide_eq_true] at hs
  have hfirst : first? (fun rest => decide (rest.length < r.2.length) && ok rest)
      (map (f r.1) q r.2) = some (s.1, s.2) := hs
  rcases first?_map.mp hfirst with ⟨b, hb, hfb⟩
  exact ⟨fun mid => (q mid).any fun s => decide (s.2.length < mid.length) && ok s.2, r, hr,
    _, b, hb, hfb⟩

/-- The first parse of a repetition is at the end of a chain of first steps. -/
theorem first?_grow {f : α → β → α} {q : Parser τ β} {level below : List (α × List τ)}
    {s : α × List τ} (h : first? ok (grow (fun x => map (f x) q) level below) = some s) :
    first? ok below = some s ∨
      ∃ ok' r, first? ok' level = some r ∧ Relation.ReflTransGen (FirstExtends f q) r s := by
  fun_induction grow (fun x => map (f x) q) level below with
  | case1 level below next hnext =>
      rcases first?_append h with h | h
      · exact Or.inr ⟨ok, s, h, .refl⟩
      · exact Or.inl h
  | case2 level below next hnext ih =>
      rcases ih h with h | ⟨ok', t, ht, hchain⟩
      · rcases first?_append h with h | h
        · exact Or.inr ⟨ok, s, h, .refl⟩
        · exact Or.inl h
      · rcases first?_extend ht with ⟨ok'', r, hr, hlink⟩
        exact Or.inr ⟨ok'', r, hr, .head hlink hchain⟩

end Parser

end WhileLang
