import WhileLang.Program.Exec

/-!
# Counting Loops

A counting loop is an assignment and a loop. Its test is the comparison of
the variable with the bound, and its round is the body with an increment
behind it. The meaning of a counting loop spells this out once more, in terms
of loads and stores instead of expressions; `exec_forTo` is that both come to
the same, for every amount of fuel.

What an expression or a condition evaluates to depends on the variables only.
`ofEnv_bind` is how such evaluations are taken apart.

## Main definitions

* `Stmt.counting`: The assignment and the loop for a counting loop.

## Theorems

* `Exec.ofEnv_bind`: Evaluations one after the other.
* `Arith.ofEnv_eval_op`, `Cond.ofEnv_eval_compare`: Operands are evaluated
  from left to right.
* `Stmt.execAll_append`: Blocks one after the other.
* `Stmt.exec_forTo`: A counting loop runs as its assignment and its loop do.
-/

namespace WhileLang

/-- An assignment and a loop that do what a counting loop does. -/
def Stmt.counting (x : String) (a b : Arith) (body : Block) : Block :=
  [.assign x a,
    .whileDo (.compare .less (.var x) b) (body ++ [.assign x (.op .add (.var x) (.num 1))])]

namespace Exec

variable {α β : Type}

theorem ofEnv_pure (a : α) : ofEnv (fun _ => pure a) = pure a := rfl

/-- Evaluations one after the other. -/
theorem ofEnv_bind (f : Env → Except RunError α) (g : α → Env → Except RunError β) :
    ofEnv (fun env => f env >>= fun a => g a env) = ofEnv f >>= fun a => ofEnv (g a) := by
  funext s
  change _ = EStateM.bind (ofEnv f) (fun a => ofEnv (g a)) s
  rw [EStateM.bind, ofEnv, ofEnv]
  cases f s.env <;> rfl

end Exec

/-- The operands are evaluated from left to right. -/
theorem Arith.ofEnv_eval_op (o : ArithOp) (l r : Arith) :
    Exec.ofEnv (Arith.op o l r).eval = (do
      let x ← Exec.ofEnv l.eval
      let y ← Exec.ofEnv r.eval
      Exec.ofEnv fun _ =>
        match o.result? x y with
        | some v => .ok v
        | none => .error .divisionByZero) := by
  simp only [← Exec.ofEnv_bind]
  rfl

/-- The sides are evaluated from left to right. -/
theorem Cond.ofEnv_eval_compare (o : CompareOp) (l r : Arith) :
    Exec.ofEnv (Cond.compare o l r).eval = (do
      let x ← Exec.ofEnv l.eval
      let y ← Exec.ofEnv r.eval
      return o.holds x y) := by
  simp only [← Exec.ofEnv_pure, ← Exec.ofEnv_bind]
  rfl

namespace Stmt

/-- Blocks one after the other. -/
theorem execAll_append (fuel : Nat) (b b' : Block) :
    execAll fuel (b ++ b') = (do
      execAll fuel b
      execAll fuel b') := by
  induction b with
  | nil => rfl
  | cons s b ih => rw [List.cons_append, execAll, execAll, ih, bind_assoc]

theorem execAll_singleton (fuel : Nat) (s : Stmt) : execAll fuel [s] = exec fuel s := by
  rw [execAll, execAll]
  exact bind_pure_unit

/-- A counting loop runs as its assignment and its loop do. -/
theorem exec_forTo (fuel : Nat) (x : String) (a b : Arith) (body : Block) :
    exec fuel (.forTo x a b body) = execAll fuel (counting x a b body) := by
  have htest : Exec.ofEnv (Cond.compare .less (.var x) b).eval = (do
      let v ← Exec.ofEnv (·.load x)
      let bound ← Exec.ofEnv b.eval
      return decide (v < bound)) := Cond.ofEnv_eval_compare .less (.var x) b
  have hround : execAll fuel (body ++ [.assign x (.op .add (.var x) (.num 1))]) = (do
      execAll fuel body
      Exec.set x ((← Exec.ofEnv (·.load x)) + 1)) := by
    rw [execAll_append, execAll_singleton, exec, Exec.assign, Arith.ofEnv_eval_op, bind_assoc]
    rfl
  rw [counting, execAll, execAll_singleton, exec, exec, exec, htest, hround]

end Stmt

end WhileLang
