import WhileLang.Code.OfProgram
import WhileLang.Machine.Basic
import WhileLang.Program.Exec

/-!
# Ways to Run a Program

Three ways to run a program: walking over its tree, running its code on the
stack machine, and assembling it for the Java virtual machine. The third one
needs an assembler that is not part of this library, and fails where it would
start it.

Running has two steps. Preparing a program turns it into what is to be run,
and is done once; what is prepared can be run on any number of inputs.

## Main definitions

* `Backend`: The three ways.
* `Backend.ofName?`: The way of that name.
* `BackendError`: Why a program could not be prepared or run to its end.
* `Backend.prepare`: Prepares a program.
* `Prepared.run`: Runs what was prepared.
-/

namespace WhileLang

/-- A way to run a program. -/
inductive Backend where
  | interpreter
  | machine
  | jvm
deriving DecidableEq, Repr

namespace Backend

/-- What it is called. -/
def name : Backend → String
  | .interpreter => "interpreter"
  | .machine => "vm"
  | .jvm => "jasmin"

/-- All ways. -/
def all : List Backend := [.interpreter, .machine, .jvm]

/-- The ways that need nothing from outside. -/
def inProcess : List Backend := [.interpreter, .machine]

/-- The way of that name. -/
def ofName? (s : String) : Option Backend :=
  all.find? (·.name = s)

end Backend

/-- Why a program could not be prepared or run to its end. -/
inductive BackendError where
  | compile (e : CompileError)
  | interpreter (e : RunError)
  /-- Its code failed on the machine, or cannot be loaded. -/
  | machine (e : MachineError)
  | assembler
  | outOfFuel
deriving DecidableEq, Repr

/-- The wording of an error. -/
def BackendError.message : BackendError → String
  | .compile e => e.message
  | .interpreter e => e.message
  | .machine e => e.message
  | .assembler => "Running the Jasmin assembler jasmin.jar"
  | .outOfFuel => "Out of fuel"

/-- A program that is ready to run. -/
inductive Prepared where
  | tree (program : Block)
  | code (loaded : Loaded)

/-- Prepares a program. -/
def Backend.prepare (b : Backend) (program : Block) : Except BackendError Prepared :=
  match b with
  | .interpreter => return .tree program
  | .machine => do
    let code ← (Code.ofProgram program).mapError .compile
    return .code (← (Loaded.ofCode code).mapError .machine)
  | .jvm => do
    -- A program that cannot be compiled never gets as far as the assembler.
    let _ ← (Code.ofProgram program).mapError .compile
    throw .assembler

/-- The outcome of a run, and the streams as the run left them. -/
structure RunReport where
  /-- Why it did not come to its end. -/
  failure : Option BackendError
  /-- Input that was not read and output that was written. -/
  io : Streams

/-- What a run comes to, in the terms of one way to run programs. -/
def RunReport.ofResult {ε σ : Type} (wrap : ε → BackendError) (io : σ → Streams) :
    EStateM.Result (Halt ε) σ Unit → RunReport
  | .ok _ s => ⟨none, io s⟩
  | .error (.error e) s => ⟨some (wrap e), io s⟩
  | .error .outOfFuel s => ⟨some .outOfFuel, io s⟩

/-- Runs what was prepared. -/
def Prepared.run (fuel : Nat) (io : Streams) : Prepared → RunReport
  | .tree program => .ofResult .interpreter (·.io) (Program.run fuel program io)
  | .code loaded => .ofResult .machine (·.io) (loaded.run fuel io)

/-- Prepares a program and runs it. -/
def Backend.run (b : Backend) (fuel : Nat) (program : Block) (io : Streams) : RunReport :=
  match b.prepare program with
  | .ok prepared => prepared.run fuel io
  | .error e => ⟨some e, io⟩

end WhileLang
