/-!
# Programs

The syntax trees of While. Variables hold machine integers of 32 bits. A
program is a block of statements.

A counting loop sets its variable to the start value and runs its body as
long as the variable is below the bound; the bound is evaluated before every
round, and the variable is increased after it.

## Main definitions

* `ArithOp`, `Arith`: Arithmetic expressions.
* `CompareOp`, `Cond`: Conditions.
* `Stmt`: Statements.
* `Block`: Statements one after the other.
-/

namespace WhileLang

/-- The arithmetic operations. -/
inductive ArithOp where
  | add | sub | mul | div
deriving DecidableEq, Repr

/-- An arithmetic expression. -/
inductive Arith where
  | num (n : Int32)
  | var (name : String)
  | op (o : ArithOp) (left right : Arith)
deriving DecidableEq, Repr

/-- The comparisons. -/
inductive CompareOp where
  | equal | notEqual | less | greater
deriving DecidableEq, Repr

/-- A condition. -/
inductive Cond where
  | const (value : Bool)
  | compare (o : CompareOp) (left right : Arith)
deriving DecidableEq, Repr

/-- A statement. -/
inductive Stmt where
  | skip
  | assign (name : String) (value : Arith)
  | ifElse (cond : Cond) (thenBlock elseBlock : List Stmt)
  | whileDo (cond : Cond) (body : List Stmt)
  | forTo (name : String) (start bound : Arith) (body : List Stmt)
  | read (name : String)
  | write (value : Arith)
  | print (text : String)
deriving Repr

/-- Statements one after the other. -/
abbrev Block := List Stmt

end WhileLang
