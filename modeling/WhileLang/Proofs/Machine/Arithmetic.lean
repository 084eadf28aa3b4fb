import WhileLang.Proofs.Machine.Compiled
import WhileLang.Proofs.Program.Integers

/-!
# Arithmetic Modulo 2^32

What an expression evaluates to, on the tree and on the machine. Without
divisions it is the one number in the range of machine integers that is
congruent to the value over the integers without bounds. A division is that of
two numbers of the range, whatever they were before they wrapped around, and
it is the only operation that can fail.

The machine evaluates an expression with the code that it was compiled to,
which may stand anywhere in a program. `takes_of_eval` and `fails_of_eval` are
`simulates_eval` without the run around it: there are slots that mirror the
variables, and the value is what the code leaves on top of the stack.

## Theorems

* `Loaded.takes_of_eval`: Code of an expression leaves its value on the stack.
* `Loaded.fails_of_eval`: It fails as the expression does.
* `Arith.eval_exact`: Evaluation is exact arithmetic modulo 2^32.
-/

namespace WhileLang

namespace Loaded

variable {code : Loaded} {ctx ctx₁ : Context} {start stop : Nat} {piece : List Instr} {a : Arith}
  {env : Env} {slots : Array (Option Int32)}

/-- Code of an expression that has a value leaves it on the stack. -/
theorem takes_of_eval {v : Int32} (hv : a.eval env = .ok v) (ha : a.compile ctx₁ = .ok piece)
    (hgrows : ctx₁.Grows ctx) (hm : Mirrors ctx slots env) (hp : code.Placed start piece stop)
    (stack : List Cell) (io : Streams) :
    ∃ n slots', code.Takes n ⟨start, stack, slots, io⟩ ⟨stop, .int v :: stack, slots', io⟩ ∧
      Mirrors ctx slots' env := by
  have hsim : Simulates code ctx 0 ⟨start, stack⟩ (.ofEnv a.eval) fun v => ⟨stop, .int v :: stack⟩ :=
    simulates_eval ha hgrows hp stack
  have hrun := hsim slots env io hm
  rw [Exec.ofEnv, hv] at hrun
  exact hrun

/-- Code of an expression that fails comes to an instruction that fails for the same reason. -/
theorem fails_of_eval {e : RunError} (he : a.eval env = .error e) (ha : a.compile ctx₁ = .ok piece)
    (hgrows : ctx₁.Grows ctx) (hm : Mirrors ctx slots env) (hp : code.Placed start piece stop)
    (stack : List Cell) (io : Streams) :
    ∃ n m e' m', code.Takes n ⟨start, stack, slots, io⟩ m ∧ code.Fails m e' m' ∧
      Agrees ctx e e' := by
  have hsim : Simulates code ctx 0 ⟨start, stack⟩ (.ofEnv a.eval) fun v => ⟨stop, .int v :: stack⟩ :=
    simulates_eval ha hgrows hp stack
  have hrun := hsim slots env io hm
  rw [Exec.ofEnv, he] at hrun
  rcases hrun with ⟨n, m, e', m', htakes, hfails, hagrees, -⟩
  exact ⟨n, m, e', m', htakes, hfails, hagrees⟩

end Loaded

namespace Arith

/-- Evaluation is exact arithmetic modulo 2^32. An expression without divisions, with its variables
    bound, has the one value in range that is congruent to its value over the integers. Of the
    operations in any expression, a sum, a difference and a product represent those of the two
    operands, and a division is truncated toward zero and fails exactly for the divisor zero. An
    expression fails with the fault of the first of its parts that has one. And wherever the code
    of the expression stands, the machine leaves the same value on the stack or fails for the same
    reason. -/
theorem eval_exact (a : Arith) (env : Env) :
    (∀ value : String → Int32, a.NoDivision →
      (∀ x, .use x ∈ a.occurrences → env.get? x = some (value x)) →
      ∃ v, a.eval env = .ok v ∧ ∀ n : Int, n = v.toInt ↔
        -2147483648 ≤ n ∧ n ≤ 2147483647 ∧
          n ≡ a.exact (fun x => (value x).toInt) [ZMOD 4294967296]) ∧
    (∀ o l r x y, o ≠ .div → l.eval env = .ok x → r.eval env = .ok y →
      ∃ v, (Arith.op o l r).eval env = .ok v ∧
        v.toInt ≡ o.exact x.toInt y.toInt [ZMOD 4294967296]) ∧
    (∀ l r x y, l.eval env = .ok x → r.eval env = .ok y →
      (y.toInt = 0 → (Arith.op .div l r).eval env = .error .divisionByZero) ∧
      (y.toInt ≠ 0 → ∃ q, (Arith.op .div l r).eval env = .ok q ∧
        q.toInt = if x.toInt = -2147483648 ∧ y.toInt = -1 then -2147483648
          else x.toInt.tdiv y.toInt)) ∧
    (∀ e, a.eval env = .error e ↔ a.inOrder.findSome? (fault? env) = some e) ∧
    ∀ ctx ctx₁ piece code start stop stack slots io, a.compile ctx₁ = .ok piece →
      ctx₁.Grows ctx → Mirrors ctx slots env → Loaded.Placed code start piece stop →
      match a.eval env with
      | .ok v => ∃ n slots',
          code.Takes n ⟨start, stack, slots, io⟩ ⟨stop, .int v :: stack, slots', io⟩
      | .error e => ∃ n m e' m',
          code.Takes n ⟨start, stack, slots, io⟩ m ∧ code.Fails m e' m' ∧ Agrees ctx e e' := by
  refine ⟨?_, ?_, ?_, ?_, ?_⟩
  · intro value ha hvars
    rcases exists_represents ha hvars with ⟨v, hv, hrep⟩
    exact ⟨v, hv, hrep.eq_iff⟩
  · intro o l r x y ho hl hr
    have heval := eval_op_of_ok (o := o) hl hr
    cases hresult : o.result? x y with
    | none => exact absurd (ArithOp.result?_eq_none_iff.mp hresult).1 ho
    | some v =>
        rw [hresult] at heval
        exact ⟨v, heval, ArithOp.represents_result? hresult⟩
  · intro l r x y hl hr
    have heval := eval_div_of_ok hl hr
    have hzero : y.toInt = 0 ↔ y = 0 := Int32.toInt_inj (y := 0)
    constructor
    · intro hy
      rw [heval, if_pos (hzero.mp hy)]
    · intro hy
      rw [if_neg (hy ∘ hzero.mpr)] at heval
      exact ⟨x / y, heval, toInt_quotient x y⟩
  · intro e
    rw [findSome?_fault?]
    cases a.eval env with
    | ok v => exact iff_of_false nofun nofun
    | error e' => rw [Except.error.injEq, Option.some.injEq]
  · intro ctx ctx₁ piece code start stop stack slots io ha hgrows hm hp
    cases heval : a.eval env with
    | ok v =>
        rcases Loaded.takes_of_eval heval ha hgrows hm hp stack io with ⟨n, slots', htakes, -⟩
        exact ⟨n, slots', htakes⟩
    | error e => exact Loaded.fails_of_eval heval ha hgrows hm hp stack io

/-- The square of 65536 is not zero over the integers, but it wraps around to zero, on the machine
    as well, and dividing by it fails. -/
theorem eval_exact_of_wrapped :
    (Arith.op .mul (.var "x") (.var "x")).NoDivision ∧
    (Arith.op .mul (.var "x") (.var "x")).exact (fun _ => 65536) = 4294967296 ∧
    (Arith.op .mul (.var "x") (.var "x")).eval ⟨[("x", 65536)]⟩ = .ok 0 ∧
    (Arith.op .div (.num 1) (.op .mul (.var "x") (.var "x"))).eval ⟨[("x", 65536)]⟩
      = .error .divisionByZero ∧
    ∃ n slots, Loaded.Takes ⟨#[.load 0, .load 0, .arith .mul], 1, []⟩ n
      ⟨0, [], #[some 65536], .ofInput []⟩ ⟨3, [.int 0], slots, .ofInput []⟩ := by
  rcases eval_exact (.op .mul (.var "x") (.var "x")) ⟨[("x", 65536)]⟩ with
    ⟨hexact, -, hdiv, -, hmachine⟩
  have hfree : (Arith.op .mul (.var "x") (.var "x")).NoDivision := ⟨nofun, trivial, trivial⟩
  have hvars : ∀ x, .use x ∈ (Arith.op .mul (.var "x") (.var "x")).occurrences →
      (⟨[("x", 65536)]⟩ : Env).get? x = some 65536 := by
    intro x hx
    have hname : x = "x" := by simpa [occurrences] using hx
    rw [hname]
    rfl
  have heval : (Arith.op .mul (.var "x") (.var "x")).eval ⟨[("x", 65536)]⟩ = .ok 0 := by
    rcases hexact (fun _ => 65536) hfree hvars with ⟨v, hv, hunique⟩
    -- Zero is in range and congruent to the square, so it is the value.
    have hzero : (0 : Int) = v.toInt := (hunique 0).mpr ⟨by decide, by decide, by decide⟩
    have hv0 : v = 0 := Int32.toInt_inj.mp hzero.symm
    rw [hv, hv0]
  have hslot : (⟨["x"], 0⟩ : Context).slot? "x" = some 0 := rfl
  have hm : Mirrors ⟨["x"], 0⟩ #[some 65536] ⟨[("x", 65536)]⟩ :=
    mirrors_set (mirrors_start ⟨["x"], 0⟩) hslot 65536
  have hrun := hmachine ⟨["x"], 0⟩ ⟨["x"], 0⟩ [.load 0, .load 0, .arith .mul]
    ⟨#[.load 0, .load 0, .arith .mul], 1, []⟩ 0 3 [] #[some 65536] (.ofInput []) rfl
    (Context.grows_refl _) hm ⟨rfl, rfl, rfl, rfl⟩
  rw [heval] at hrun
  exact ⟨hfree, rfl, heval, (hdiv (.num 1) _ 1 0 rfl heval).1 rfl, hrun⟩

end Arith

end WhileLang
