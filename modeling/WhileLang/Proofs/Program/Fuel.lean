import WhileLang.Program.Exec

/-!
# Fuel

The fuel of a run is not part of what a program does. A run that ends or
fails with some amount of fuel does the same with any larger amount, so the
result of a program is settled by the program and its streams. A program for
which no amount is enough does not come to an end.

The law is one of pieces of a run: a piece that is given more fuel refines
the one with less, and sequences and loops of such pieces refine each other.

## Main definitions

* `Halted`: A result for which the fuel was enough.
* `Exec.Refines`: A piece of a run with more fuel.
* `Program.Ends`: The result of a program that was given enough fuel.

## Theorems

* `Exec.refines_bind`, `Exec.refines_repeatWhile`: Refined pieces make refined
  sequences and loops.
* `Stmt.execAll_refines`: More fuel refines a block.
* `Program.ends_unique`: A program has one result.
-/

namespace WhileLang

/-- The run ended or failed; it did not just run out of fuel. -/
def Halted {ε σ α : Type} : EStateM.Result (Halt ε) σ α → Prop
  | .error .outOfFuel _ => False
  | _ => True

namespace Exec

variable {α β : Type} {x y : Exec α}

/-- Where the first piece does not run out of fuel, the second one does the same. -/
def Refines (x y : Exec α) : Prop :=
  ∀ s, Halted (x s) → y s = x s

theorem refines_refl (x : Exec α) : Refines x x :=
  fun _ _ => rfl

theorem refines_bind {f g : α → Exec β} (h : Refines x y) (hnext : ∀ a, Refines (f a) (g a)) :
    Refines (x >>= f) (y >>= g) := by
  intro s hs
  change Halted (EStateM.bind x f s) at hs
  change EStateM.bind y g s = EStateM.bind x f s
  rw [EStateM.bind] at hs ⊢
  rw [EStateM.bind]
  rcases hx : x s with ⟨a, s'⟩ | ⟨e | _, s'⟩
  · rw [hx] at hs
    rw [h s (by rw [hx]; trivial), hx]
    exact hnext a s' hs
  · rw [h s (by rw [hx]; trivial), hx]
  · rw [hx] at hs
    exact hs.elim

theorem refines_repeatWhile {test test' : Exec Bool} {body body' : Exec Unit}
    (htest : Refines test test') (hbody : Refines body body') {n k : Nat} (hle : n ≤ k) :
    Refines (repeatWhile test body n) (repeatWhile test' body' k) := by
  induction n generalizing k with
  | zero => exact fun _ hs => hs.elim
  | succ n ih =>
      rcases Nat.exists_eq_add_of_le' hle with ⟨m, rfl⟩
      rw [← Nat.add_assoc, repeatWhile, repeatWhile]
      refine refines_bind htest fun b => ?_
      cases b with
      | true => exact refines_bind hbody fun _ => ih (Nat.le_add_left n m)
      | false => exact refines_refl _

end Exec

mutual

/-- More fuel refines a statement. -/
theorem Stmt.exec_refines {n k : Nat} (hle : n ≤ k) :
    ∀ s : Stmt, Exec.Refines (s.exec n) (s.exec k)
  | .skip => Exec.refines_refl _
  | .assign _ _ => Exec.refines_refl _
  | .ifElse c t e => by
      rw [Stmt.exec, Stmt.exec]
      refine Exec.refines_bind (Exec.refines_refl _) fun b => ?_
      cases b with
      | true => exact Stmt.execAll_refines hle t
      | false => exact Stmt.execAll_refines hle e
  | .whileDo c body => by
      rw [Stmt.exec, Stmt.exec]
      exact Exec.refines_repeatWhile (Exec.refines_refl _) (Stmt.execAll_refines hle body) hle
  | .forTo x a b body => by
      rw [Stmt.exec, Stmt.exec]
      refine Exec.refines_bind (Exec.refines_refl _) fun _ => ?_
      refine Exec.refines_repeatWhile (Exec.refines_refl _) ?_ hle
      exact Exec.refines_bind (Stmt.execAll_refines hle body) fun _ => Exec.refines_refl _
  | .read _ => Exec.refines_refl _
  | .write _ => Exec.refines_refl _
  | .print _ => Exec.refines_refl _

/-- More fuel refines a block. -/
theorem Stmt.execAll_refines {n k : Nat} (hle : n ≤ k) :
    ∀ b : Block, Exec.Refines (Stmt.execAll n b) (Stmt.execAll k b)
  | [] => Exec.refines_refl _
  | s :: rest => by
      rw [Stmt.execAll, Stmt.execAll]
      exact Exec.refines_bind (Stmt.exec_refines hle s) fun _ => Stmt.execAll_refines hle rest

end

/-- The program, run with enough fuel, has that result. -/
def Program.Ends (program : Block) (io : Streams)
    (r : EStateM.Result (Halt RunError) RunState Unit) : Prop :=
  Halted r ∧ ∃ fuel, Program.run fuel program io = r

/-- A program has one result. -/
theorem Program.ends_unique {program : Block} {io : Streams}
    {r r' : EStateM.Result (Halt RunError) RunState Unit} (h : Program.Ends program io r)
    (h' : Program.Ends program io r') : r = r' := by
  rcases h with ⟨hr, fuel, rfl⟩
  rcases h' with ⟨hr', fuel', rfl⟩
  -- Both are the result with the fuel of both.
  have hboth := Stmt.execAll_refines (Nat.le_add_right fuel fuel') program _ hr
  have hboth' := Stmt.execAll_refines (Nat.le_add_left fuel' fuel) program _ hr'
  exact hboth.symm.trans hboth'

end WhileLang
