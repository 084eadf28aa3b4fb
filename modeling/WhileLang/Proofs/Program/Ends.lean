import WhileLang.Proofs.Program.Counting
import WhileLang.Proofs.Program.Fuel

/-!
# Results of Blocks

What a block does from any state, without its fuel. A run has to be given an
amount of fuel, but if some amount is enough, all larger ones lead to the same
result, so a block has one result or none. `Stmt.Ends` is this result, and the
laws below take it apart without a word about fuel: two blocks have the
result of the second one from where the first one ended, and a loop whose
condition holds has the result of its body with the loop behind it.

Fuel bounds the rounds of a loop and is given to its body as well. A loop
that is unfolded once has a round less to go, while the fuel of its body stays
what it was, so the two are not compared at the same amount of fuel. The law
needs both, then: that a loop goes one round and goes on, and that more fuel
does not change a result.

## Main definitions

* `Stmt.Ends`: The result of a block that was given enough fuel.

## Theorems

* `Stmt.ends_append`: Blocks one after the other.
* `Stmt.ends_assign_of_ok`: An assignment.
* `Stmt.ends_whileDo_of_true`, `Stmt.ends_whileDo_of_false`: A loop unfolds.
* `Stmt.ends_forTo`: A counting loop has the result of its assignment and its
  loop.
-/

namespace WhileLang

variable {b b' body : Block} {c : Cond} {s : RunState}
  {r : EStateM.Result (Halt RunError) RunState Unit}

namespace Exec

variable {act : Exec Unit}

/-- A loop whose condition holds goes one round. -/
theorem repeatWhile_of_true (h : c.eval s.env = .ok true) (rounds : Nat) :
    repeatWhile (ofEnv c.eval) act (rounds + 1) s
      = (act >>= fun _ => repeatWhile (ofEnv c.eval) act rounds) s := by
  rw [repeatWhile]
  change EStateM.bind (ofEnv c.eval) _ s = _
  rw [EStateM.bind, ofEnv, h]
  rfl

/-- A loop whose condition does not hold is at its end. -/
theorem repeatWhile_of_false (h : c.eval s.env = .ok false) (rounds : Nat) :
    repeatWhile (ofEnv c.eval) act (rounds + 1) s = .ok () s := by
  rw [repeatWhile]
  change EStateM.bind (ofEnv c.eval) _ s = _
  rw [EStateM.bind, ofEnv, h]
  rfl

end Exec

namespace Stmt

/-- The block, run from that state with enough fuel, has that result. -/
def Ends (b : Block) (s : RunState) (r : EStateM.Result (Halt RunError) RunState Unit) : Prop :=
  Halted r ∧ ∃ fuel, execAll fuel b s = r

/-- A result is kept by all larger amounts of fuel. -/
theorem Ends.exists_fuel (h : Ends b s r) : ∃ fuel, ∀ k, fuel ≤ k → execAll k b s = r := by
  rcases h with ⟨hr, fuel, rfl⟩
  exact ⟨fuel, fun k hk => execAll_refines hk b s hr⟩

/-- The second block starts where the first one ended, and is not run if the first one fails. -/
theorem ends_append :
    Ends (b ++ b') s r ↔ (∃ s', Ends b s (.ok () s') ∧ Ends b' s' r) ∨
      ∃ e s', Ends b s (.error e s') ∧ r = .error e s' := by
  have hbind : ∀ fuel, execAll fuel (b ++ b') s
      = EStateM.bind (execAll fuel b) (fun _ => execAll fuel b') s := by
    intro fuel
    rw [execAll_append]
    rfl
  constructor
  · rintro ⟨hr, fuel, rfl⟩
    rw [hbind, EStateM.bind] at hr ⊢
    rcases hfirst : execAll fuel b s with ⟨_, s'⟩ | ⟨e, s'⟩ <;> rw [hfirst] at hr
    · exact Or.inl ⟨s', ⟨trivial, fuel, hfirst⟩, hr, fuel, rfl⟩
    · exact Or.inr ⟨e, s', ⟨hr, fuel, hfirst⟩, rfl⟩
  · rintro (⟨s', hfirst, hsecond⟩ | ⟨e, s', hfirst, rfl⟩)
    -- The fuel of both blocks is enough for each of them.
    · rcases hfirst.exists_fuel with ⟨n, hn⟩
      rcases hsecond.exists_fuel with ⟨k, hk⟩
      refine ⟨hsecond.1, n + k, ?_⟩
      rw [hbind, EStateM.bind, hn (n + k) (Nat.le_add_right n k)]
      exact hk (n + k) (Nat.le_add_left k n)
    · rcases hfirst.exists_fuel with ⟨n, hn⟩
      refine ⟨hfirst.1, n, ?_⟩
      rw [hbind, EStateM.bind, hn n (Nat.le_refl n)]

/-- An assignment whose right-hand side has a value sets the variable and goes on. -/
theorem ends_assign_of_ok {x : String} {a : Arith} {v : Int32} (h : a.eval s.env = .ok v) :
    Ends (.assign x a :: b) s r ↔ Ends b ⟨s.env.set x v, s.io⟩ r := by
  have hrun : ∀ fuel, execAll fuel (.assign x a :: b) s
      = execAll fuel b ⟨s.env.set x v, s.io⟩ := by
    intro fuel
    rw [execAll, exec, Exec.assign]
    change EStateM.bind (EStateM.bind (Exec.ofEnv a.eval) (Exec.set x)) _ s = _
    rw [EStateM.bind, EStateM.bind, Exec.ofEnv, h]
    rfl
  rw [Ends, Ends]
  simp only [hrun]

theorem execAll_whileDo (fuel : Nat) (c : Cond) (body : Block) :
    execAll fuel [.whileDo c body]
      = Exec.repeatWhile (.ofEnv c.eval) (execAll fuel body) fuel := by
  rw [execAll_singleton, exec]

/-- A loop whose condition holds does what its body does with the loop behind it. -/
theorem ends_whileDo_of_true (h : c.eval s.env = .ok true) :
    Ends [.whileDo c body] s r ↔ Ends (body ++ [.whileDo c body]) s r := by
  have hround : ∀ fuel rounds, Exec.repeatWhile (.ofEnv c.eval) (execAll fuel body) (rounds + 1) s
      = (execAll fuel body >>= fun _ =>
          Exec.repeatWhile (.ofEnv c.eval) (execAll fuel body) rounds) s :=
    fun fuel rounds => Exec.repeatWhile_of_true h rounds
  have hloop : ∀ fuel, execAll fuel (body ++ [.whileDo c body]) s
      = (execAll fuel body >>= fun _ =>
          Exec.repeatWhile (.ofEnv c.eval) (execAll fuel body) fuel) s := by
    intro fuel
    rw [execAll_append, execAll_whileDo]
  -- The loop has one round less to go than the fuel when its first round is over.
  have hrefines : ∀ n k rounds rounds', n ≤ k → rounds ≤ rounds' → Exec.Refines
      (execAll n body >>= fun _ => Exec.repeatWhile (.ofEnv c.eval) (execAll n body) rounds)
      (execAll k body >>= fun _ => Exec.repeatWhile (.ofEnv c.eval) (execAll k body) rounds') := by
    intro n k rounds rounds' hle hrounds
    have hbody := execAll_refines hle body
    exact Exec.refines_bind hbody fun _ =>
      Exec.refines_repeatWhile (Exec.refines_refl _) hbody hrounds
  constructor
  · rintro ⟨hr, fuel, rfl⟩
    rw [execAll_whileDo] at hr ⊢
    cases fuel with
    | zero => exact hr.elim
    | succ n =>
        rw [hround] at hr ⊢
        refine ⟨hr, n + 1, ?_⟩
        rw [hloop]
        exact hrefines _ _ _ _ (Nat.le_refl _) (Nat.le_succ n) s hr
  · rintro ⟨hr, fuel, rfl⟩
    rw [hloop] at hr ⊢
    refine ⟨hr, fuel + 1, ?_⟩
    rw [execAll_whileDo, hround]
    exact hrefines _ _ _ _ (Nat.le_succ fuel) (Nat.le_refl _) s hr

/-- A loop whose condition does not hold does nothing. -/
theorem ends_whileDo_of_false (h : c.eval s.env = .ok false) :
    Ends [.whileDo c body] s r ↔ r = .ok () s := by
  constructor
  · rintro ⟨hr, fuel, rfl⟩
    rw [execAll_whileDo] at hr ⊢
    cases fuel with
    | zero => exact hr.elim
    | succ n => exact Exec.repeatWhile_of_false h n
  · rintro rfl
    refine ⟨trivial, 1, ?_⟩
    rw [execAll_whileDo]
    exact Exec.repeatWhile_of_false h 0

/-- A counting loop has the result of its assignment and its loop. -/
theorem ends_forTo {x : String} {a bound : Arith} :
    Ends [.forTo x a bound body] s r ↔ Ends (counting x a bound body) s r := by
  rw [Ends, Ends]
  simp only [execAll_singleton, exec_forTo]

end Stmt

end WhileLang
