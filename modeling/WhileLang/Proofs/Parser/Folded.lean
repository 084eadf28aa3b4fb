import WhileLang.Proofs.Parser.Chains

/-!
# Folding While Repeating

A repetition that combines the value of each step with what it has built so
far returns the same as one that collects the values and combines them in the
end. What is built can be changed at any time: if a change of what is built
turns one step into another, it turns the whole repetition into the other,
parse by parse and level by level, because the inputs that are left do not
depend on what is built.

`operands` is the repetition that `chainLeft` would be if it collected. It
keeps the operators that `sepBy1` drops, and is the same repetition in
everything else. So the left fold of its parses is `chainLeft`, and its
parses without the operators are `sepBy1`.

## Main definitions

* `Parser.operands`: Operands with the operators between them, collected.
* `Parser.foldOperands`: Operands combined from the left.
* `Parser.withoutOperators`: Operands alone.
* `Parser.OperandChain`: A first operand, and a chain of operators and operands.

## Theorems

* `Parser.map_grow`: A change of what is built turns one repetition into
  another.
* `Parser.operands_enumerates`: Collected operands enumerate chains.
* `Parser.sepBy1_eq_operands`: They are collected as with separators.
* `Parser.chainLeft_eq_operands`: Operands combined at once and in the end.
* `Parser.chainLeft_folds`: Combining from the left is the left fold of what is
  collected.
-/

namespace WhileLang

namespace Parser

section Changes

variable {τ α α' β : Type} {q : Parser τ β} {f : α → β → α} {g : α → α'}

/-- A level with a change of what is built, which leaves what it leaves. -/
theorem map_extend (f' : α' → β → α') (h : ∀ x b, g (f x b) = f' (g x) b)
    (level : List (α × List τ)) :
    (extend (fun x => map (f x) q) level).map (fun r => (g r.1, r.2))
      = extend (fun x => map (f' x) q) (level.map fun r => (g r.1, r.2)) := by
  rw [extend, extend, List.map_flatMap, List.flatMap_map]
  refine List.flatMap_congr fun r _ => ?_
  simp only [map, ← h, List.filter_map, List.map_map]
  rfl

variable {step : α → Parser τ α} {level below : List (α × List τ)}

theorem grow_of_extend_eq_nil (h : extend step level = []) :
    grow step level below = level ++ below := by
  rw [grow]
  exact dif_pos h

theorem grow_of_extend_ne_nil (h : extend step level ≠ []) :
    grow step level below = grow step (extend step level) (level ++ below) := by
  rw [grow]
  exact dif_neg h

/-- A change of what is built that turns one way of building into another turns the repetition
    into the other. -/
theorem map_grow (f' : α' → β → α') (h : ∀ x b, g (f x b) = f' (g x) b)
    (level below : List (α × List τ)) :
    (grow (fun x => map (f x) q) level below).map (fun r => (g r.1, r.2))
      = grow (fun x => map (f' x) q) (level.map fun r => (g r.1, r.2))
        (below.map fun r => (g r.1, r.2)) := by
  -- Both repetitions go on or end together, since a level is empty if the changed one is.
  fun_induction grow (fun x => map (f x) q) level below with
  | case1 level below next hnext =>
      have hend : extend (fun x => map (f' x) q) (level.map fun r => (g r.1, r.2)) = [] := by
        rw [← map_extend f' h]
        exact List.map_eq_nil_iff.mpr hnext
      rw [grow_of_extend_eq_nil hend, List.map_append]
  | case2 level below next hnext ih =>
      have hgoes : extend (fun x => map (f' x) q) (level.map fun r => (g r.1, r.2)) ≠ [] := by
        rw [← map_extend f' h]
        exact mt List.map_eq_nil_iff.mp hnext
      rw [ih, grow_of_extend_ne_nil hgoes, List.map_append, ← map_extend f' h]

end Changes

variable {τ α β ω : Type}

/-- Operands with the operators between them, collected, longest first. Each operator is kept with
    the operand behind it. -/
def operands (p : Parser τ α) (op : Parser τ ω) : Parser τ (α × Items (ω × α)) :=
  fun input =>
    grow (fun x => map (fun s => (x.1, x.2.push s)) (andThen op p))
      (map (fun a => (a, Items.empty)) p input) []

/-- Operands combined from the left: the first one with the next, this with the one after, and so
    on. -/
def foldOperands (combine : α → ω → α → α) (x : α × Items (ω × α)) : α :=
  x.2.toList.foldl (fun l s => combine l s.1 s.2) x.1

/-- A first operand, and a chain of operators and operands from there on. -/
def OperandChain (p : Parser τ α) (op : Parser τ ω) (input : List τ) (k : Nat × List (Nat × Nat))
    (r : (α × Items (ω × α)) × List τ) : Prop :=
  ∃ mid, p.Picks k.1 input (r.1.1, mid) ∧ Chain (PicksBoth op p) mid k.2 r.1.2.toList r.2

theorem foldl_collect (x : α × Items (ω × α)) (ys : List (ω × α)) :
    ys.foldl (fun x s => (x.1, x.2.push s)) x = (x.1, ys.foldl Items.push x.2) := by
  induction ys generalizing x with
  | nil => rfl
  | cons y ys ih => rw [List.foldl_cons, ih, List.foldl_cons]

/-- Collected operands are those of the chains from a first operand on. -/
theorem operands_enumerates (p : Parser τ α) (op : Parser τ ω) (input : List τ) :
    Enumerates (LongerFirst (fun k => k.2.length)
        (Prod.Lex (· < ·) (List.Lex (Prod.Lex (· < ·) (· < ·)))))
      (OperandChain p op input) (operands p op input) := by
  have hseed := (enumerates_getElem? (p input)).map fun r =>
    ((r.1, (Items.empty : Items (ω × α))), r.2)
  refine (grow_enumerates (f := fun x s => (x.1, x.2.push s)) hseed
    (andThen_enumerates op p)).congr fun k r => ?_
  constructor
  · rintro ⟨_, mid, ys, ⟨x, hx, heq⟩, hchain, hr⟩
    cases heq
    rw [foldl_collect] at hr
    refine ⟨x.2, ?_, ?_⟩
    · rw [← hr]
      exact hx
    · rw [← hr, toList_foldl_push]
      exact hchain
  · rintro ⟨mid, hx, hchain⟩
    refine ⟨(r.1.1, .empty), mid, r.1.2.toList, ⟨(r.1.1, mid), hx, rfl⟩, hchain, ?_⟩
    have hbuilt : r.1.2.toList.foldl Items.push Items.empty = r.1.2 :=
      Items.toList_inj.mp (toList_foldl_push Items.empty r.1.2.toList)
    rw [foldl_collect, hbuilt]

/-- Operands without the operators between them. -/
def withoutOperators (x : α × Items (ω × α)) : Items α :=
  (x.2.toList.map Prod.snd).foldl Items.push (Items.empty.push x.1)

theorem toList_withoutOperators (x : α × Items (ω × α)) :
    (withoutOperators x).toList = x.1 :: x.2.toList.map Prod.snd := by
  rw [withoutOperators, toList_foldl_push]
  rfl

/-- Separators that are kept and dropped in the end might as well not be kept. -/
theorem sepBy1_eq_operands (p : Parser τ α) (op : Parser τ ω) (input : List τ) :
    sepBy1 p op input = (operands p op input).map fun r => (withoutOperators r.1, r.2) := by
  have hpush : ∀ (x : α × Items (ω × α)) s,
      withoutOperators (x.1, x.2.push s) = (withoutOperators x).push s.2 := by
    intro x s
    simp only [withoutOperators, Items.toList_push, List.map_append, List.foldl_append]
    rfl
  have hstep : (fun xs : Items α => map xs.push (right op p))
      = fun xs => map (fun s => xs.push s.2) (andThen op p) := by
    funext xs input
    simp only [map, right, List.map_map]
    rfl
  rw [operands, map_grow (fun xs s => xs.push s.2) hpush, sepBy1, hstep, map, map, List.map_map]
  rfl

/-- Operands that are combined at once are those that are collected, combined in the end. -/
theorem chainLeft_eq_operands (p : Parser τ α) (op : Parser τ ω) (combine : α → ω → α → α)
    (input : List τ) :
    chainLeft p op combine input
      = (operands p op input).map fun r => (foldOperands combine r.1, r.2) := by
  have hpush : ∀ (x : α × Items (ω × α)) s, foldOperands combine (x.1, x.2.push s)
      = combine (foldOperands combine x) s.1 s.2 := by
    intro x s
    rw [foldOperands, Items.toList_push, List.foldl_append]
    rfl
  have hseed : (map (fun a => (a, (Items.empty : Items (ω × α)))) p input).map
      (fun r => (foldOperands combine r.1, r.2)) = p input := by
    rw [map, List.map_map]
    exact List.map_id _
  rw [operands, map_grow (fun l s => combine l s.1 s.2) hpush, hseed, chainLeft, List.map_nil]

/-- Combining from the left while repeating is the left fold of what is collected, with the same
    rests in the same order. What is collected are the chains of operators and operands behind a
    first operand, longer ones first, and without the operators they are what is collected with
    separators. And the loop that goes from level to level ends. -/
theorem chainLeft_folds (p : Parser τ α) (op : Parser τ ω) (combine : α → ω → α → α)
    (input : List τ) :
    chainLeft p op combine input
      = (operands p op input).map (fun r =>
          (r.1.2.toList.foldl (fun l s => combine l s.1 s.2) r.1.1, r.2)) ∧
    (sepBy1 p op input).map (fun r => (r.1.toList, r.2))
      = (operands p op input).map (fun r => (r.1.1 :: r.1.2.toList.map Prod.snd, r.2)) ∧
    Enumerates (LongerFirst (fun k => k.2.length)
        (Prod.Lex (· < ·) (List.Lex (Prod.Lex (· < ·) (· < ·)))))
      (OperandChain p op input) (operands p op input) ∧
    ∃ n ≤ reach (p input) + 1,
      EndsAfter (fun x => map (fun s => combine x s.1 s.2) (andThen op p)) (p input) n
        (chainLeft p op combine input) := by
  refine ⟨chainLeft_eq_operands p op combine input, ?_, operands_enumerates p op input, ?_⟩
  · rw [sepBy1_eq_operands, List.map_map]
    refine List.map_congr_left fun r _ => ?_
    rw [Function.comp_apply, toList_withoutOperators]
  · exact exists_endsAfter (fun x => map (fun s => combine x s.1 s.2) (andThen op p)) (p input)

/-- The first two operands are combined first. -/
example : foldOperands (fun l _ r => l - r) ((10 : Int), ⟨[((), 2), ((), 3)]⟩) = 5 := by decide

end Parser

end WhileLang
