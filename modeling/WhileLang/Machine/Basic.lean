import WhileLang.Code.Basic
import WhileLang.Program.Arithmetic
import WhileLang.Program.Exec
import WhileLang.Text.Escape

/-!
# The Stack Machine

A machine that runs code one instruction at a time. The stack holds numbers
and texts. A slot is empty until something is stored in it, and storing into
a slot beyond those there are makes room for it.

An instruction may find something else on the stack than it needs, or nothing
at all. Compiled code does not let that happen, but the machine runs any
code.

## Main definitions

* `Cell`: What the stack holds.
* `MachineError`: How running code can fail.
* `Machine`: The state of a run.
* `Loaded`: Code with the places of its labels.
* `Loaded.ofCode`: Code made ready to run.
* `Loaded.exec`: The effect of one instruction.
* `Loaded.run`: A run of the code.
-/

namespace WhileLang

/-- What the stack holds. -/
inductive Cell where
  | int (n : Int32)
  | text (s : String)
deriving DecidableEq, Repr

/-- How messages write a cell. -/
def Cell.display : Cell → String
  | .int n => "Integer(" ++ Decimal.text n.toInt ++ ")"
  | .text s => "String(" ++ Text.quoteString s ++ ")"

/-- How a label is written. -/
def Label.display (l : Label) : String :=
  l.kind.stem ++ "_" ++ Decimal.natText l.id

/-- How running code can fail. -/
inductive MachineError where
  | stackUnderflow
  | expectedInteger (found : Cell)
  | expectedText (found : Cell)
  /-- A jump leads to a label that the code does not have. -/
  | undefinedLabel (l : Label)
  | uninitializedSlot (slot : Nat)
  | divisionByZero
  | stream (e : StreamError)
deriving DecidableEq, Repr

/-- The wording of a failure. -/
def MachineError.message : MachineError → String
  | .stackUnderflow => "Stack underflow"
  | .expectedInteger found => "Expected integer, got " ++ found.display
  | .expectedText found => "Expected string, got " ++ found.display
  | .undefinedLabel l => "Jump to undefined label '" ++ l.display ++ "'"
  | .uninitializedSlot slot => "Read of uninitialized local slot " ++ Decimal.natText slot
  | .divisionByZero => "Division by zero"
  | .stream e => e.message

/-- The state of a run. -/
structure Machine where
  ip : Nat
  /-- The stack, its top in front. -/
  stack : List Cell
  slots : Array (Option Int32)
  io : Streams
deriving DecidableEq

/-- A piece of a run. -/
abbrev Run := EStateM MachineError Machine

namespace Run

/-- Puts a cell on the stack. -/
def push (cell : Cell) : Run Unit
  | ⟨ip, stack, slots, io⟩ => .ok () ⟨ip, cell :: stack, slots, io⟩

/-- Takes a cell from the stack. -/
def pop : Run Cell
  | ⟨ip, [], slots, io⟩ => .error .stackUnderflow ⟨ip, [], slots, io⟩
  | ⟨ip, cell :: stack, slots, io⟩ => .ok cell ⟨ip, stack, slots, io⟩

/-- Takes a number from the stack. -/
def popInt : Run Int32 := do
  match ← pop with
  | .int n => return n
  | .text s => throw (.expectedInteger (.text s))

/-- Takes a text from the stack. -/
def popText : Run String := do
  match ← pop with
  | .text s => return s
  | .int n => throw (.expectedText (.int n))

/-- The number in a slot. -/
def load (slot : Nat) : Run Int32 := fun m =>
  match (m.slots[slot]?).join with
  | some v => .ok v m
  | none => .error (.uninitializedSlot slot) m

/-- Slots with a number stored in one of them, and empty ones before it if there were fewer. -/
def storeIn (slots : Array (Option Int32)) (slot : Nat) (v : Int32) : Array (Option Int32) :=
  (slots ++ Array.replicate (slot + 1 - slots.size) none).setIfInBounds slot (some v)

/-- Stores a number in a slot. -/
def store (slot : Nat) (v : Int32) : Run Unit
  | ⟨ip, stack, slots, io⟩ =>
    -- The common case leaves the size as it is.
    if slot < slots.size then .ok () ⟨ip, stack, slots.setIfInBounds slot (some v), io⟩
    else .ok () ⟨ip, stack, storeIn slots slot v, io⟩

/-- Goes on at another place. -/
def jump (place : Nat) : Run Unit
  | ⟨_, stack, slots, io⟩ => .ok () ⟨place, stack, slots, io⟩

/-- Something done with the streams. -/
def onStreams {α : Type} (act : EStateM StreamError Streams α) : Run α
  | ⟨ip, stack, slots, io⟩ =>
    match act io with
    | .ok a io => .ok a ⟨ip, stack, slots, io⟩
    | .error e io => .error (.stream e) ⟨ip, stack, slots, io⟩

end Run

/-- Code with the places of its labels. -/
structure Loaded where
  instrs : Array Instr
  slots : Nat
  /-- The places of the labels, later ones in front. -/
  places : List (Label × Nat)
deriving Repr

namespace Loaded

/-- The places of the labels, later ones in front. -/
def placesOf (instrs : List Instr) : List (Label × Nat) :=
  (instrs.zipIdx.filterMap fun i => i.1.mark?.map fun l => (l, i.2)).reverse

/-- The place that a label stands for: of several the last one. -/
def place? (code : Loaded) (l : Label) : Option Nat :=
  code.places.lookup l

/-- Code made ready to run, unless a jump leads to a label that the code does not have. -/
def ofCode (code : Code) : Except MachineError Loaded :=
  let places := placesOf code.instrs
  -- The first jump in the code that leads nowhere is the one that is reported.
  match (code.instrs.filterMap Instr.target?).find? fun l => (places.lookup l).isNone with
  | some l => .error (.undefinedLabel l)
  | none => .ok ⟨code.instrs.toArray, code.slots, places⟩

/-- Jumps to a label. -/
def jumpTo (code : Loaded) (l : Label) : Run Unit :=
  match code.place? l with
  | some place => .jump place
  | none => throw (.undefinedLabel l)

/-- The effect of one instruction. -/
def exec (code : Loaded) : Instr → Run Unit
  | .const n => .push (.int n)
  | .text s => .push (.text s)
  | .load slot => do .push (.int (← .load slot))
  | .store slot => do .store slot (← .popInt)
  | .arith o => do
    -- The right operand was pushed last.
    let y ← .popInt
    let x ← .popInt
    match o.result? x y with
    | some v => .push (.int v)
    | none => throw .divisionByZero
  | .branch b l => do
    let y ← .popInt
    let x ← .popInt
    if b.holds x y then code.jumpTo l
  | .goto l => code.jumpTo l
  | .label _ => return
  | .readInt => do .push (.int (← .onStreams Streams.readInt))
  | .printInt => do .onStreams (Streams.writeLine (Decimal.text (← .popInt).toInt))
  | .printText => do .onStreams (Streams.writeLine (← .popText))

/-- One step of a run. The machine stands behind an instruction when it runs it. -/
def step (code : Loaded) (i : Instr) : Run Unit
  | ⟨ip, stack, slots, io⟩ => code.exec i ⟨ip + 1, stack, slots, io⟩

/-- A run until the machine is behind the last instruction, of a number of steps at most. -/
def runFor (code : Loaded) : Nat → Machine → EStateM.Result (Halt MachineError) Machine Unit
  | 0, m => .error .outOfFuel m
  | fuel + 1, m =>
    match code.instrs[m.ip]? with
    | none => .ok () m
    | some i =>
      match code.step i m with
      | .ok _ m => runFor code fuel m
      | .error e m => .error (.error e) m

/-- The machine before the first instruction. -/
def start (code : Loaded) (io : Streams) : Machine :=
  ⟨0, [], Array.replicate code.slots none, io⟩

/-- A run of the code. -/
def run (code : Loaded) (fuel : Nat) (io : Streams) :
    EStateM.Result (Halt MachineError) Machine Unit :=
  code.runFor fuel (code.start io)

end Loaded

end WhileLang
