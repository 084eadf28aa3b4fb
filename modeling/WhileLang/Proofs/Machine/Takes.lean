import WhileLang.Machine.Basic
import WhileLang.Proofs.Program.Fuel

/-!
# Counted Runs of the Machine

Pieces of a run. `runFor` tells where a run ends, but code that sits inside
other code does not end where it is through; it hands over to what is behind
it. `Takes` says how many steps lead from one state to another, which is what
composes.

The machine is deterministic, so a piece of a run is a piece of the only run
there is. If it leads to a failing instruction or behind the code, that is
where the run ends. If it leads far, a run with less fuel than that has not
ended yet. `runFor_of_takes` is behind both.

## Main definitions

* `Loaded.Takes`: A number of steps from one state to another.
* `Loaded.Fails`: The next instruction fails.
* `Loaded.Ends`: The result of a run that was given enough fuel.

## Theorems

* `Loaded.takes_trans`: Pieces of a run are joined.
* `Loaded.runFor_of_takes`: The run goes on behind a piece of it.
* `Loaded.runFor_eq_of_halted`: More fuel changes nothing.
* `Loaded.ends_unique`: A run has one result.
* `Loaded.runFor_of_takes_le`: A run that goes on for long needs fuel for it.
-/

namespace WhileLang

namespace Loaded

variable {code : Loaded} {n k : Nat} {m m₁ m₂ : Machine} {e : MachineError}

/-- The code leads from one state to another in that many steps. -/
def Takes (code : Loaded) : Nat → Machine → Machine → Prop
  | 0, m, m' => m = m'
  | n + 1, m, m' =>
    ∃ i m₁, code.instrs[m.ip]? = some i ∧ code.step i m = .ok () m₁ ∧ code.Takes n m₁ m'

/-- The next instruction fails, and leaves another state behind. -/
def Fails (code : Loaded) (m : Machine) (e : MachineError) (m' : Machine) : Prop :=
  ∃ i, code.instrs[m.ip]? = some i ∧ code.step i m = .error e m'

/-- The code, run with enough fuel, has that result. -/
def Ends (code : Loaded) (io : Streams) (r : EStateM.Result (Halt MachineError) Machine Unit) :
    Prop :=
  Halted r ∧ ∃ fuel, code.run fuel io = r

theorem takes_one {i : Instr} (hi : code.instrs[m.ip]? = some i)
    (hstep : code.step i m = .ok () m₁) : code.Takes 1 m m₁ :=
  ⟨i, m₁, hi, hstep, rfl⟩

/-- Pieces of a run are joined. -/
theorem takes_trans (h : code.Takes n m m₁) (h' : code.Takes k m₁ m₂) :
    code.Takes (n + k) m m₂ := by
  induction n generalizing m with
  | zero =>
      rw [Nat.zero_add, show m = m₁ from h]
      exact h'
  | succ n ih =>
      rcases h with ⟨i, m', hi, hstep, hrest⟩
      rw [Nat.succ_add]
      exact ⟨i, m', hi, hstep, ih hrest⟩

theorem runFor_succ {i : Instr} (hi : code.instrs[m.ip]? = some i)
    (hstep : code.step i m = .ok () m₁) (fuel : Nat) :
    code.runFor (fuel + 1) m = code.runFor fuel m₁ := by
  rw [runFor, hi]
  dsimp only
  rw [hstep]

/-- The run goes on behind a piece of it. -/
theorem runFor_of_takes (h : code.Takes n m m₁) (fuel : Nat) :
    code.runFor (n + fuel) m = code.runFor fuel m₁ := by
  induction n generalizing m with
  | zero => rw [Nat.zero_add, show m = m₁ from h]
  | succ n ih =>
      rcases h with ⟨i, m', hi, hstep, hrest⟩
      rw [Nat.succ_add, runFor_succ hi hstep, ih hrest]

/-- A piece of a run that leads behind the code is a whole run. -/
theorem runFor_of_takes_none (h : code.Takes n m m₁) (hnone : code.instrs[m₁.ip]? = none) :
    code.runFor (n + 1) m = .ok () m₁ := by
  rw [runFor_of_takes h, runFor, hnone]

/-- A piece of a run that leads to a failing instruction is a whole run. -/
theorem runFor_of_takes_fails (h : code.Takes n m m₁) (hfails : code.Fails m₁ e m₂) :
    code.runFor (n + 1) m = .error (.error e) m₂ := by
  rcases hfails with ⟨i, hi, hstep⟩
  rw [runFor_of_takes h, runFor, hi]
  dsimp only
  rw [hstep]

/-- More fuel changes nothing about a run that had enough. -/
theorem runFor_eq_of_halted (h : Halted (code.runFor n m)) (k : Nat) :
    code.runFor (n + k) m = code.runFor n m := by
  induction n generalizing m with
  | zero => exact h.elim
  | succ n ih =>
      rw [Nat.succ_add, runFor, runFor]
      rw [runFor] at h
      cases hi : code.instrs[m.ip]? with
      | none => rfl
      | some i =>
          rw [hi] at h
          dsimp only at h ⊢
          cases hstep : code.step i m with
          | error e m' => rfl
          | ok _ m' =>
              rw [hstep] at h
              exact ih h

/-- A run has one result. -/
theorem ends_unique {io : Streams} {r r' : EStateM.Result (Halt MachineError) Machine Unit}
    (h : code.Ends io r) (h' : code.Ends io r') : r = r' := by
  rcases h with ⟨hr, fuel, rfl⟩
  rcases h' with ⟨hr', fuel', rfl⟩
  rw [run, ← runFor_eq_of_halted hr fuel', Nat.add_comm]
  exact runFor_eq_of_halted hr' fuel

/-- A run that goes on for long has not ended with less fuel than that. -/
theorem runFor_of_takes_le (h : code.Takes n m m₁) (hk : k ≤ n) :
    ¬ Halted (code.runFor k m) := by
  intro hhalted
  have hall := runFor_of_takes h 0
  -- With the fuel for all of it the run stops right there.
  rw [Nat.add_zero, ← Nat.add_sub_of_le hk, runFor_eq_of_halted hhalted] at hall
  rw [hall] at hhalted
  exact hhalted

end Loaded

end WhileLang
