import WhileLang.Assembly.Template
import WhileLang.Machine.Basic

/-!
# Assembly Texts

Code as text for an assembler of the Java virtual machine. Each instruction
is a line, indented; a label stands at the margin with an empty line before
it. Texts are quoted so that they stay on their line and inside their quotes.

Reading and writing are calls of methods of the class, so the name of the
class is needed for them.

## Main definitions

* `Assembly.quoteText`: A text as an operand.
* `Assembly.line`: The line of an instruction, without its indentation.
* `Assembly.render`: The text of a compiled program.
-/

namespace WhileLang

namespace Assembly

/-- A character of a text operand. -/
def escapeChar (c : Char) : String :=
  match c with
  | '\\' => "\\\\"
  | '"' => "\\\""
  | '\n' => "\\n"
  | '\r' => "\\r"
  | '\t' => "\\t"
  | c => String.singleton c

/-- A text as an operand, in quotes. -/
def quoteText (s : String) : String :=
  "\"" ++ String.join (s.toList.map escapeChar) ++ "\""

/-- The word for an operation. -/
def arithWord : ArithOp → String
  | .add => "iadd"
  | .sub => "isub"
  | .mul => "imul"
  | .div => "idiv"

/-- The word for a conditional jump. -/
def branchWord : Branch → String
  | .eq => "if_icmpeq"
  | .ne => "if_icmpne"
  | .le => "if_icmple"
  | .ge => "if_icmpge"

/-- A call of a method of the class. -/
def call (cls method : String) : String :=
  "invokestatic " ++ cls ++ "/" ++ cls ++ "/" ++ method

/-- An instruction without its indentation; a label ends with a colon. -/
def line (cls : String) : Instr → String
  | .const n => "ldc " ++ Decimal.text n.toInt
  | .text s => "ldc " ++ quoteText s
  | .load slot => "iload " ++ Decimal.natText slot
  | .store slot => "istore " ++ Decimal.natText slot
  | .arith o => arithWord o
  | .branch b l => branchWord b ++ " " ++ l.display
  | .goto l => "goto " ++ l.display
  | .label l => l.display ++ ":"
  | .readInt => call cls "read()I"
  | .printInt => call cls "write(I)V"
  | .printText => call cls "writes(Ljava/lang/String;)V"

/-- The text of an instruction. -/
def renderInstr (cls : String) (i : Instr) : String :=
  match i.mark? with
  -- A label stands at the margin, below an empty line.
  | some _ => "\n" ++ line cls i ++ "\n"
  | none => "    " ++ line cls i ++ "\n"

/-- The text of a compiled program, as the class of that name. -/
def render (cls : String) (code : Code) : String :=
  header cls ++ prologue code.slots ++ String.join (code.instrs.map (renderInstr cls)) ++ footer

end Assembly

end WhileLang
