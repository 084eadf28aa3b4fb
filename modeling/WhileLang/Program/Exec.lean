import WhileLang.Program.Arithmetic
import WhileLang.Program.Env
import WhileLang.Stream.Basic

/-!
# Running Programs

The meaning of programs, by walking over their trees. A run changes variables
and streams, and it ends, fails, or does not come to an end. What was written
before a failure stays written.

A loop may not end, so running takes an amount of fuel, the most rounds that
any one loop may go. A run that needs more stops with `outOfFuel`, which is
neither an end nor a failure of the program.

## Main definitions

* `Halt`: Why a run stopped early.
* `RunError`: How a program can fail.
* `RunState`: Variables and streams.
* `Arith.eval`, `Cond.eval`: The values of expressions and conditions.
* `Exec.repeatWhile`: A loop with a bounded number of rounds.
* `Stmt.exec`, `Block.exec`: The effect of statements.
-/

namespace WhileLang

/-- Why a run stopped before its end. -/
inductive Halt (ε : Type) where
  | error (e : ε)
  | outOfFuel
deriving DecidableEq, Repr

/-- How a running program can fail. -/
inductive RunError where
  | undefinedVariable (name : String)
  | divisionByZero
  | stream (e : StreamError)
deriving DecidableEq, Repr

/-- The wording of a failure. -/
def RunError.message : RunError → String
  | .undefinedVariable name => "Undefined variable '" ++ name ++ "'"
  | .divisionByZero => "Division by zero"
  | .stream e => e.message

/-- What a run changes. -/
structure RunState where
  env : Env
  io : Streams
deriving DecidableEq

/-- The value of a variable. -/
def Env.load (env : Env) (name : String) : Except RunError Int32 :=
  match env.get? name with
  | some v => .ok v
  | none => .error (.undefinedVariable name)

/-- The value of an expression. -/
def Arith.eval (env : Env) : Arith → Except RunError Int32
  | .num n => .ok n
  | .var x => env.load x
  | .op o l r => do
    -- The left operand is evaluated first, so its failure is the one that counts.
    let x ← l.eval env
    let y ← r.eval env
    match o.result? x y with
    | some v => .ok v
    | none => .error .divisionByZero

/-- The truth of a condition. -/
def Cond.eval (env : Env) : Cond → Except RunError Bool
  | .const b => .ok b
  | .compare o l r => do
    let x ← l.eval env
    let y ← r.eval env
    return o.holds x y

/-- A piece of a run. -/
abbrev Exec := EStateM (Halt RunError) RunState

namespace Exec

/-- A value that depends on the variables. -/
def ofEnv {α : Type} (f : Env → Except RunError α) : Exec α := fun s =>
  match f s.env with
  | .ok a => .ok a s
  | .error e => .error (.error e) s

/-- Sets a variable. -/
def set (name : String) (value : Int32) : Exec Unit
  | ⟨env, io⟩ => .ok () ⟨env.set name value, io⟩

/-- Something done with the streams. -/
def onStreams {α : Type} (act : EStateM StreamError Streams α) : Exec α
  | ⟨env, io⟩ =>
    match act io with
    | .ok a io => .ok a ⟨env, io⟩
    | .error e io => .error (.error (.stream e)) ⟨env, io⟩

/-- Sets a variable to the value of an expression. -/
def assign (name : String) (value : Arith) : Exec Unit := do
  set name (← ofEnv value.eval)

/-- Repeats a piece of a run as long as a test holds, for a number of rounds at most. -/
def repeatWhile (test : Exec Bool) (body : Exec Unit) : Nat → Exec Unit
  | 0 => throw .outOfFuel
  | rounds + 1 => do
    if ← test then
      body
      repeatWhile test body rounds

end Exec

mutual

/-- The effect of a statement. -/
def Stmt.exec (fuel : Nat) : Stmt → Exec Unit
  | .skip => return
  | .assign x a => .assign x a
  | .ifElse c t e => do
    if ← .ofEnv c.eval then Stmt.execAll fuel t else Stmt.execAll fuel e
  | .whileDo c body => .repeatWhile (.ofEnv c.eval) (Stmt.execAll fuel body) fuel
  | .forTo x a b body => do
    .assign x a
    -- The bound is evaluated anew before every round.
    let test : Exec Bool := do
      let v ← .ofEnv (·.load x)
      let bound ← .ofEnv b.eval
      return decide (v < bound)
    let round : Exec Unit := do
      Stmt.execAll fuel body
      .set x ((← .ofEnv (·.load x)) + 1)
    .repeatWhile test round fuel
  | .read x => do .set x (← .onStreams Streams.readInt)
  | .write a => do .onStreams (Streams.writeLine (Decimal.text (← .ofEnv a.eval).toInt))
  | .print text => .onStreams (Streams.writeLine text)

/-- The effect of statements one after the other. -/
def Stmt.execAll (fuel : Nat) : Block → Exec Unit
  | [] => return
  | s :: rest => do
    Stmt.exec fuel s
    Stmt.execAll fuel rest

end

/-- The effect of a program that starts without variables. -/
def Program.run (fuel : Nat) (program : Block) (io : Streams) :
    EStateM.Result (Halt RunError) RunState Unit :=
  Stmt.execAll fuel program ⟨.empty, io⟩

end WhileLang
