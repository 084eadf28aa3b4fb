import WhileLang.Program.Basic
import WhileLang.Text.Decimal
import WhileLang.Text.Escape

/-!
# Outlines of Programs

A program written out as a tree, one node to a line, for people who want to
see how it was read. An outline is made of words, lists, and named nodes with
listed or labelled parts. Whatever has parts opens a bracket, has each part
on lines of its own that are indented by four spaces and end with a comma,
and closes the bracket; a list without parts is a pair of brackets.

## Main definitions

* `Outline`: The trees.
* `Outline.lines`: The lines of a tree.
* `Stmt.outline`: The tree of a statement.
* `Program.outline`: The outline of a program.
-/

namespace WhileLang

/-- A tree that is written with one node to a line. -/
inductive Outline where
  | word (text : String)
  | node (name : String) (parts : List Outline)
  | record (name : String) (parts : List (String × Outline))
  | list (items : List Outline)

namespace Outline

/-- Text behind the last line. -/
def addToLast (suffix : String) : List String → List String
  | [] => [suffix]
  | [l] => [l ++ suffix]
  | l :: ls => l :: addToLast suffix ls

/-- Text in front of the first line. -/
def addToFirst (text : String) : List String → List String
  | [] => [text]
  | l :: ls => (text ++ l) :: ls

/-- The lines of a part inside its node. -/
def part (ls : List String) : List String :=
  (addToLast "," ls).map ("    " ++ ·)

mutual

/-- The lines of an outline. -/
def lines : Outline → List String
  | .word text => [text]
  | .node name parts => [name ++ "("] ++ partLines parts ++ [")"]
  | .record name parts => [name ++ " \x7b"] ++ labelledLines parts ++ ["\x7d"]
  -- Only a list without parts stays on one line.
  | .list [] => ["[]"]
  | .list items => ["["] ++ partLines items ++ ["]"]

/-- The lines of several parts. -/
def partLines : List Outline → List String
  | [] => []
  | o :: os => part o.lines ++ partLines os

/-- The lines of several labelled parts. -/
def labelledLines : List (String × Outline) → List String
  | [] => []
  | (label, o) :: os => part (addToFirst (label ++ ": ") o.lines) ++ labelledLines os

end

/-- The outline as text. -/
def text (o : Outline) : String :=
  String.intercalate "\n" o.lines

/-- A text in quotes. -/
def quoted (s : String) : Outline :=
  .word (Text.quoteString s)

end Outline

open Outline

/-- The name of an operation. -/
def ArithOp.outline : ArithOp → Outline
  | .add => .word "Add"
  | .sub => .word "Sub"
  | .mul => .word "Mul"
  | .div => .word "Div"

/-- The tree of an expression. -/
def Arith.outline : Arith → Outline
  | .num n => .node "Num" [.word (Decimal.text n.toInt)]
  | .var x => .node "Var" [quoted x]
  | .op o l r => .record "Aop" [("op", o.outline), ("left", l.outline), ("right", r.outline)]

/-- The name of a comparison. -/
def CompareOp.outline : CompareOp → Outline
  | .equal => .word "Equal"
  | .notEqual => .word "NotEqual"
  | .less => .word "Less"
  | .greater => .word "Greater"

/-- The tree of a condition. -/
def Cond.outline : Cond → Outline
  | .const true => .word "True"
  | .const false => .word "False"
  | .compare o l r =>
    .record "Bop" [("op", o.outline), ("left", l.outline), ("right", r.outline)]

/-- The tree of an assignment. -/
def assignmentOutline (name : String) (value : Arith) : Outline :=
  .record "Assignment" [("name", quoted name), ("value", value.outline)]

mutual

/-- The tree of a statement. -/
def Stmt.outline : Stmt → Outline
  | .skip => .word "Skip"
  | .assign x a => .node "Assign" [assignmentOutline x a]
  | .ifElse c t e =>
    .record "If" [("condition", c.outline), ("then_block", .list (Stmt.outlines t)),
      ("else_block", .list (Stmt.outlines e))]
  | .whileDo c b => .record "While" [("condition", c.outline), ("body", .list (Stmt.outlines b))]
  | .forTo x a b body =>
    .record "For" [("init", assignmentOutline x a), ("bound", b.outline),
      ("body", .list (Stmt.outlines body))]
  | .read x => .node "Read" [quoted x]
  | .write a => .node "Write" [a.outline]
  | .print s => .node "WriteLiteral" [quoted s]

/-- The trees of several statements. -/
def Stmt.outlines : Block → List Outline
  | [] => []
  | s :: rest => s.outline :: Stmt.outlines rest

end

/-- The outline of a program. -/
def Program.outline (program : Block) : Outline :=
  .record "Program" [("statements", .list (Stmt.outlines program))]

end WhileLang
