import Mathlib.Data.Int.Range
import WhileLang.Proofs.Program.Frame

/-!
# Rounds of a Counting Loop

How often a counting loop runs its body. The loop itself knows nothing of a
number of rounds: it compares its variable with a bound that it evaluates
anew, and it adds one to whatever the variable is by then. If the body binds
neither the variable nor a variable of the bound, the rounds are known before
the first one, and they are counted with integers, although the variable is a
machine integer: the increment behind a round starts below the bound, so it
does not wrap around.

`Rounds` runs a body once for each number of a list. It says what the loop
does whether or not all rounds succeed: the first round that fails is the
last one, and a round that does not come to an end leaves no result on either
side.

## Main definitions

* `Stmt.Rounds`: A body run once for each number.
* `Stmt.countingLoop`: The loop behind the assignment of a counting loop.
* `Stmt.Steady`: A body that leaves the variable and the bound of its loop alone.

## Theorems

* `toInt_add_one_of_lt`: A number below another one can be increased.
* `Stmt.Rounds.get?_of_ok`: The variable behind the last round.
* `Stmt.ends_countingLoop_of_lt`: What the loop does in one round.
* `Stmt.ends_countingLoop_iff_rounds`: What it does from any number on.
* `Stmt.ends_forTo_iff_rounds`: A counting loop from start to end.
-/

namespace WhileLang

/-- A number that is below another one can be increased by one. -/
theorem toInt_add_one_of_lt {v n : Int32} (h : v < n) : (v + 1).toInt = v.toInt + 1 := by
  have hlt : v.toInt < n.toInt := Int32.lt_iff_toInt_lt.mp h
  have hv := v.le_toInt
  have hn := n.toInt_lt
  rw [Int32.toInt_add, Int32.toInt_one]
  exact Int.bmod_eq_of_le (by omega) (by omega)

theorem range_of_le {m n : Int} (h : n ≤ m) : Int.range m n = [] := by
  rw [Int.range, Int.toNat_of_nonpos (by omega)]
  rfl

theorem range_of_lt {m n : Int} (h : m < n) : Int.range m n = m :: Int.range (m + 1) n := by
  have hcount : (n - m).toNat = (n - (m + 1)).toNat + 1 := by omega
  rw [Int.range, Int.range, hcount, List.range_succ_eq_map, List.map_cons, List.map_map]
  refine congrArg₂ List.cons (Int.add_zero m) (List.map_congr_left fun k _ => ?_)
  change m + ((k + 1 : Nat) : Int) = m + 1 + k
  omega

namespace Stmt

variable {x : String} {a b : Arith} {body : Block}

/-- The body runs once for each of the numbers, with the variable set to it, until there is none
    left or a round fails. Behind each round the variable is still the number, and one more than
    it is a number too. -/
inductive Rounds (x : String) (body : Block) :
    List Int → RunState → EStateM.Result (Halt RunError) RunState Unit → Prop
  | done (s : RunState) : Rounds x body [] s (.ok () s)
  | round {i : Int} {rest : List Int} {v : Int32} {s s' : RunState}
      {r : EStateM.Result (Halt RunError) RunState Unit} :
      s.env.get? x = some v → v.toInt = i → Ends body s (.ok () s') →
      s'.env.get? x = some v → (v + 1).toInt = i + 1 →
      Rounds x body rest ⟨s'.env.set x (v + 1), s'.io⟩ r → Rounds x body (i :: rest) s r
  | fails {i : Int} {rest : List Int} {v : Int32} {s s' : RunState} {e : Halt RunError} :
      s.env.get? x = some v → v.toInt = i → Ends body s (.error e s') →
      Rounds x body (i :: rest) s (.error e s')

/-- Behind the last round the variable is larger by the number of rounds. -/
theorem Rounds.get?_of_ok {numbers : List Int} {s s' : RunState} {v : Int32}
    (h : Rounds x body numbers s (.ok () s')) (hv : s.env.get? x = some v) :
    ∃ w, s'.env.get? x = some w ∧ w.toInt = v.toInt + numbers.length := by
  generalize hr : EStateM.Result.ok () s' = r at h
  induction h generalizing v with
  | done s =>
      cases hr
      exact ⟨v, hv, (Int.add_zero _).symm⟩
  | @round i rest u s s₁ r hu hi _ _ hnext _ ih =>
      have huv : u = v := Option.some.inj (hu.symm.trans hv)
      subst huv
      rcases ih (Env.get?_set s₁.env x x (u + 1) ▸ if_pos rfl) hr with ⟨w, hw, hcount⟩
      refine ⟨w, hw, ?_⟩
      rw [hcount, hnext, List.length_cons]
      omega
  | fails => cases hr

/-- The body binds neither the variable of its loop nor a variable of the bound, and the bound does
    not use the variable of the loop. -/
structure Steady (x : String) (b : Arith) (body : Block) : Prop where
  keeps : Occurrence.bind x ∉ occurrencesAll body
  keepsBound : ∀ y, Occurrence.use y ∈ b.occurrences → Occurrence.bind y ∉ occurrencesAll body
  apart : Occurrence.use x ∉ b.occurrences

namespace Steady

variable {s s' : RunState}

/-- Setting the variable does not change the bound. -/
theorem eval_set (h : Steady x b body) (env : Env) (v : Int32) :
    b.eval (env.set x v) = b.eval env := by
  refine Arith.eval_congr fun y hy => ?_
  have hne : y ≠ x := fun heq => h.apart (heq ▸ hy)
  rw [Env.get?_set, if_neg hne]

/-- The body does not change the bound. -/
theorem eval_of_ends (h : Steady x b body) (hends : Ends body s (.ok () s')) :
    b.eval s'.env = b.eval s.env :=
  Arith.eval_congr fun y hy => hends.get?_eq (h.keepsBound y hy)

end Steady

/-- The loop of a counting loop, with the increment behind its body. -/
def countingLoop (x : String) (b : Arith) (body : Block) : Stmt :=
  .whileDo (.compare .less (.var x) b) (body ++ [.assign x (.op .add (.var x) (.num 1))])

section Loop

variable {s : RunState} {v n : Int32} {r : EStateM.Result (Halt RunError) RunState Unit}

/-- The test of a counting loop compares the variable with the bound. -/
theorem eval_less (hv : s.env.get? x = some v) (hn : b.eval s.env = .ok n) :
    (Cond.compare .less (.var x) b).eval s.env = .ok (decide (v < n)) := by
  rw [Cond.eval, Arith.eval, Env.load, hv, hn]
  rfl

/-- The increment behind a round. -/
theorem eval_add_one (hv : s.env.get? x = some v) :
    (Arith.op .add (.var x) (.num 1)).eval s.env = .ok (v + 1) := by
  rw [Arith.eval, Arith.eval, Arith.eval, Env.load, hv]
  rfl

/-- The loop goes a round if its variable is below the bound: the body is run, and if it comes to
    its end, the increment and the loop are. -/
theorem ends_countingLoop_of_lt (hv : s.env.get? x = some v) (hn : b.eval s.env = .ok n)
    (h : v < n) :
    Ends [countingLoop x b body] s r ↔
      (∃ s', Ends body s (.ok () s') ∧
        Ends [.assign x (.op .add (.var x) (.num 1)), countingLoop x b body] s' r) ∨
      ∃ e s', Ends body s (.error e s') ∧ r = .error e s' := by
  have htest := eval_less hv hn
  rw [decide_eq_true h] at htest
  rw [countingLoop, ends_whileDo_of_true htest, List.append_assoc, ends_append]
  rfl

/-- The loop is at its end if its variable is not below the bound. -/
theorem ends_countingLoop_of_not_lt (hv : s.env.get? x = some v) (hn : b.eval s.env = .ok n)
    (h : ¬v < n) : Ends [countingLoop x b body] s r ↔ r = .ok () s := by
  have htest := eval_less hv hn
  rw [decide_eq_false h] at htest
  exact ends_whileDo_of_false htest

/-- The loop of a counting loop, once its variable is some number, runs its body for the numbers
    from there up to the bound. -/
theorem ends_countingLoop_iff_rounds (hsteady : Steady x b body) (hv : s.env.get? x = some v)
    (hn : b.eval s.env = .ok n) :
    Ends [countingLoop x b body] s r ↔ Rounds x body (Int.range v.toInt n.toInt) s r := by
  -- The induction is on the number of rounds that are left.
  generalize hcount : (n.toInt - v.toInt).toNat = count
  induction count generalizing s v with
  | zero =>
      have hge : ¬v < n := by
        rw [Int32.lt_iff_toInt_lt]
        omega
      rw [ends_countingLoop_of_not_lt hv hn hge, range_of_le (by omega)]
      constructor
      · rintro rfl
        exact .done s
      · intro h
        cases h
        rfl
  | succ count ih =>
      have hlt : v < n := by
        rw [Int32.lt_iff_toInt_lt]
        omega
      have hnext := toInt_add_one_of_lt hlt
      -- Behind a round that succeeded the variable is one more, and the other rounds follow.
      have hrest : ∀ s', Ends body s (.ok () s') → s'.env.get? x = some v ∧
          (Ends [.assign x (.op .add (.var x) (.num 1)), countingLoop x b body] s' r ↔
            Rounds x body (Int.range (v + 1).toInt n.toInt) ⟨s'.env.set x (v + 1), s'.io⟩ r) := by
        intro s' hends
        have hkept : s'.env.get? x = some v := (hends.get?_eq hsteady.keeps).trans hv
        refine ⟨hkept, (ends_assign_of_ok (eval_add_one hkept)).trans (ih ?_ ?_ (by omega))⟩
        · rw [Env.get?_set, if_pos rfl]
        · rw [hsteady.eval_set, hsteady.eval_of_ends hends, hn]
      rw [ends_countingLoop_of_lt hv hn hlt, range_of_lt (Int32.lt_iff_toInt_lt.mp hlt), ← hnext]
      constructor
      · rintro (⟨s', hends, hothers⟩ | ⟨e, s', hends, rfl⟩)
        · rcases hrest s' hends with ⟨hkept, hiff⟩
          exact .round hv rfl hends hkept hnext (hiff.mp hothers)
        · exact .fails hv rfl hends
      · intro h
        cases h with
        | @round _ _ u _ s' _ hu _ hends _ _ hothers =>
            have huv : u = v := Option.some.inj (hu.symm.trans hv)
            rw [huv] at hothers
            exact Or.inl ⟨s', hends, (hrest s' hends).2.mpr hothers⟩
        | fails _ _ hends => exact Or.inr ⟨_, _, hends, rfl⟩

end Loop

/-- A counting loop with a steady body runs it for the numbers from the start to the bound, the
    bound not included, in this order and until a round fails. If it comes to its end, its variable
    is the larger one of start and bound. -/
theorem ends_forTo_iff_rounds (hsteady : Steady x b body) (s : RunState) {first bound : Int32}
    (hstart : a.eval s.env = .ok first) (hbound : b.eval (s.env.set x first) = .ok bound) :
    ((Int.range first.toInt bound.toInt).length : Int) = max 0 (bound.toInt - first.toInt) ∧
    (∀ r, Ends [.forTo x a b body] s r ↔
      Rounds x body (Int.range first.toInt bound.toInt) ⟨s.env.set x first, s.io⟩ r) ∧
    ∀ s', Ends [.forTo x a b body] s (.ok () s') →
      ∃ last, s'.env.get? x = some last ∧ last.toInt = max first.toInt bound.toInt := by
  have hset : (s.env.set x first).get? x = some first := by
    rw [Env.get?_set, if_pos rfl]
  have hlength : ((Int.range first.toInt bound.toInt).length : Int)
      = max 0 (bound.toInt - first.toInt) := by
    rw [Int.range, List.length_map, List.length_range]
    omega
  have hrounds : ∀ r, Ends [.forTo x a b body] s r ↔
      Rounds x body (Int.range first.toInt bound.toInt) ⟨s.env.set x first, s.io⟩ r := by
    intro r
    rw [ends_forTo, counting, ends_assign_of_ok hstart]
    exact ends_countingLoop_iff_rounds hsteady hset hbound
  refine ⟨hlength, hrounds, fun s' hends => ?_⟩
  rcases ((hrounds _).mp hends).get?_of_ok hset with ⟨last, hlast, hvalue⟩
  refine ⟨last, hlast, ?_⟩
  rw [hvalue, hlength]
  omega

/-- Up to the largest number there are two rounds from two below it on. What the body adds up wraps
    around, the variable does not. -/
theorem ends_forTo_iff_rounds_of_largest :
    ∃ s', Ends [.forTo "x" (.op .sub (.var "n") (.num 2)) (.var "n")
          [.assign "y" (.op .add (.var "n") (.var "x"))]]
        ⟨⟨[("n", 2147483647)]⟩, .ofInput []⟩ (.ok () s') ∧
      Rounds "x" [.assign "y" (.op .add (.var "n") (.var "x"))] [2147483645, 2147483646]
        ⟨⟨[("n", 2147483647), ("x", 2147483645)]⟩, .ofInput []⟩ (.ok () s') ∧
      s'.env.get? "y" = some (-3) ∧
      ∃ last, s'.env.get? "x" = some last ∧ last.toInt = 2147483647 := by
  have hsteady : Steady "x" (.var "n") [.assign "y" (.op .add (.var "n") (.var "x"))] := by
    refine ⟨by decide, fun y hy => ?_, by decide⟩
    cases List.mem_singleton.mp hy
    decide
  have hstart : (Arith.op .sub (.var "n") (.num 2)).eval ⟨[("n", 2147483647)]⟩
      = .ok 2147483645 := rfl
  rcases ends_forTo_iff_rounds hsteady ⟨⟨[("n", 2147483647)]⟩, .ofInput []⟩ hstart rfl with
    ⟨-, hrounds, hlast⟩
  have hends : Ends [.forTo "x" (.op .sub (.var "n") (.num 2)) (.var "n")
        [.assign "y" (.op .add (.var "n") (.var "x"))]] ⟨⟨[("n", 2147483647)]⟩, .ofInput []⟩
      (.ok () ⟨⟨[("n", 2147483647), ("x", 2147483647), ("y", -3)]⟩, .ofInput []⟩) :=
    ⟨trivial, 3, rfl⟩
  exact ⟨_, hends, (hrounds _).mp hends, rfl, hlast _ hends⟩

end Stmt

end WhileLang
