import WhileLang.Program.Basic

/-!
# Code of the Stack Machine

Instructions for a machine with a stack, numbered slots for variables, and
labels to jump to. A conditional jump takes two numbers from the stack, the
right one first.

Labels come in four kinds, by what they stand at, and within a kind they are
told apart by a number.

## Main definitions

* `Label`: A place in the code.
* `Branch`: When a conditional jump is taken.
* `Instr`: The instructions.
* `Code`: Instructions, and the number of slots that they use.
-/

namespace WhileLang

/-- What a label stands at. -/
inductive LabelKind where
  | loopBegin
  | loopEnd
  /-- The second block of a choice. -/
  | ifElse
  | ifEnd
deriving DecidableEq, Repr

/-- The word for the kind in the name of a label. -/
def LabelKind.stem : LabelKind → String
  | .loopBegin => "loop_begin"
  | .loopEnd => "loop_end"
  | .ifElse => "if_else"
  | .ifEnd => "if_end"

/-- A place in the code. -/
structure Label where
  kind : LabelKind
  id : Nat
deriving DecidableEq, Repr

/-- The relation between two numbers for which a conditional jump is taken. -/
inductive Branch where
  | eq | ne | le | ge
deriving DecidableEq, Repr

/-- The relation holds. -/
def Branch.holds : Branch → Int32 → Int32 → Bool
  | .eq, x, y => x == y
  | .ne, x, y => x != y
  | .le, x, y => x ≤ y
  | .ge, x, y => y ≤ x

/-- An instruction. -/
inductive Instr where
  | const (n : Int32)
  | text (s : String)
  | load (slot : Nat)
  | store (slot : Nat)
  | arith (o : ArithOp)
  /-- Pops two numbers and jumps if a relation holds between them. -/
  | branch (b : Branch) (target : Label)
  | goto (target : Label)
  /-- Does nothing; marks a place. -/
  | label (l : Label)
  | readInt
  | printInt
  | printText
deriving DecidableEq, Repr

/-- The label that an instruction may jump to. -/
def Instr.target? : Instr → Option Label
  | .branch _ l | .goto l => some l
  | _ => none

/-- The label that an instruction marks. -/
def Instr.mark? : Instr → Option Label
  | .label l => some l
  | _ => none

/-- A compiled program. -/
structure Code where
  instrs : List Instr
  slots : Nat
deriving DecidableEq, Repr

end WhileLang
