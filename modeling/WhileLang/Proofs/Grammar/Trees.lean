import WhileLang.Program.Basic
import WhileLang.Token.Basic
import WhileLang.Token.Unescape

/-!
# Derivations

What the grammar derives, told without a parser: its derivations as trees,
with one constructor for each way to apply a rule. A tree has the part of the
grammar that it derives in its type, so only derivations can be written down.
Of each tree there is the list of the kinds of tokens that it derives, and the
piece of a program that it stands for.

The three levels of arithmetic expressions have a rule in common. An operand
of a level that is not the lowest one consists of operands of the level below
with operators of the level between them, and it stands for their combination
from the left.

    program    = [statements] [";"] end
    statements = statement (";" statement)*
    block      = "{" [statements] [";"] "}" | statement
    statement  = "skip" | NAME ":=" expression
               | "if" condition "then" block ["else" block]
               | "while" condition ["do"] block
               | "for" NAME ":=" expression "to" expression ["do"] block
               | "read" NAME | "read" "(" NAME ")"
               | "write" STRING | "write" expression
    expression = term (("+" | "-") term)*
    term       = factor (("*" | "/") factor)*
    factor     = "(" expression ")" | NAME | NUMBER
    condition  = "true" | "false" | expression comparison expression
               | "(" condition ")"

## Main definitions

* `ArithTree`, `CondTree`, `StmtTree`: The derivations.
* `ArithTree.yield`, `CondTree.yield`, `StmtTree.yield`: The tokens that are derived.
* `ArithTree.value`, `CondTree.value`, `StmtTree.value`: What the derivations stand for.
-/

namespace WhileLang

/-- The levels of arithmetic expressions, the one that binds strongest first. -/
inductive Level where
  | factor | term | expression
deriving DecidableEq, Repr

/-- The level of the operands; factors do not consist of operands. -/
def Level.below : Level → Level
  | .expression => .term
  | .term | .factor => .factor

/-- The level at which the operation stands between operands. -/
def ArithOp.level : ArithOp → Level
  | .add | .sub => .expression
  | .mul | .div => .term

/-- The symbol of the operation. -/
def ArithOp.symbol : ArithOp → Symbol
  | .add => .plus
  | .sub => .minus
  | .mul => .star
  | .div => .slash

/-- The symbol of the comparison. -/
def CompareOp.symbol : CompareOp → Symbol
  | .equal => .equal
  | .notEqual => .notEqual
  | .less => .less
  | .greater => .greater

/-- The parts of arithmetic expressions: operands of a level, and the operators and operands that
    follow the first one. -/
inductive ArithPart where
  | operand (l : Level)
  | links (l : Level)

/-- A derivation of a part of an arithmetic expression. -/
inductive ArithTree : ArithPart → Type where
  | parens (e : ArithTree (.operand .expression)) : ArithTree (.operand .factor)
  | name (x : String) : ArithTree (.operand .factor)
  | number (n : Int32) : ArithTree (.operand .factor)
  | chain {l : Level} (hl : l ≠ .factor) (first : ArithTree (.operand l.below))
      (more : ArithTree (.links l)) : ArithTree (.operand l)
  | done {l : Level} : ArithTree (.links l)
  | link {l : Level} (o : ArithOp) (ho : o.level = l) (operand : ArithTree (.operand l.below))
      (more : ArithTree (.links l)) : ArithTree (.links l)

/-- A derivation of an arithmetic expression. -/
abbrev ExprTree := ArithTree (.operand .expression)

/-- A derivation of a condition. -/
inductive CondTree where
  | const (b : Bool)
  | compare (o : CompareOp) (left right : ExprTree)
  | parens (c : CondTree)

/-- The parts of programs. The statements that follow the first one are a part of their own, and
    so are perhaps statements with perhaps a semicolon behind them. -/
inductive StmtPart where
  | program | opening | statements | others | block | statement

/-- A derivation of a part of a program. -/
inductive StmtTree : StmtPart → Type where
  | program (o : StmtTree .opening) : StmtTree .program
  | empty (semicolon : Bool) : StmtTree .opening
  | filled (ss : StmtTree .statements) (semicolon : Bool) : StmtTree .opening
  | statements (first : StmtTree .statement) (more : StmtTree .others) : StmtTree .statements
  | noOthers : StmtTree .others
  | others (s : StmtTree .statement) (more : StmtTree .others) : StmtTree .others
  | braces (o : StmtTree .opening) : StmtTree .block
  | single (s : StmtTree .statement) : StmtTree .block
  | skip : StmtTree .statement
  | assign (x : String) (e : ExprTree) : StmtTree .statement
  | ifThen (c : CondTree) (t : StmtTree .block) : StmtTree .statement
  | ifThenElse (c : CondTree) (t e : StmtTree .block) : StmtTree .statement
  | whileDo (c : CondTree) (withDo : Bool) (body : StmtTree .block) : StmtTree .statement
  | forTo (x : String) (start bound : ExprTree) (withDo : Bool) (body : StmtTree .block) :
      StmtTree .statement
  | read (x : String) (inParens : Bool) : StmtTree .statement
  | print (raw : String) : StmtTree .statement
  | write (e : ExprTree) : StmtTree .statement

/-- What the parts stand for: an operand for an expression, links for operators each with the
    expression on its right. -/
abbrev ArithPart.Value : ArithPart → Type
  | .operand _ => Arith
  | .links _ => List (ArithOp × Arith)

/-- What the parts of a program stand for. -/
abbrev StmtPart.Value : StmtPart → Type
  | .statement => Stmt
  | .program | .opening | .statements | .others | .block => Block

/-- A token that may be left out. -/
def optionally (present : Bool) (k : TokenKind) : List TokenKind :=
  if present then [k] else []

/-- Tokens between parentheses. -/
def inParentheses (w : List TokenKind) : List TokenKind :=
  .symbol .lparen :: (w ++ [.symbol .rparen])

/-- An expression with operators and operands behind it, combined from the left. -/
def Arith.combine (first : Arith) (more : List (ArithOp × Arith)) : Arith :=
  more.foldl (fun left link => .op link.1 left link.2) first

namespace ArithTree

/-- The tokens that are derived. -/
def yield : {p : ArithPart} → ArithTree p → List TokenKind
  | _, .parens e => inParentheses e.yield
  | _, .name x => [.identifier x]
  | _, .number n => [.integer n]
  | _, .chain _ first more => first.yield ++ more.yield
  | _, .done => []
  | _, .link o _ operand more => .symbol o.symbol :: (operand.yield ++ more.yield)

/-- What the derivation stands for. -/
def value : {p : ArithPart} → ArithTree p → p.Value
  | _, .parens e => e.value
  | _, .name x => Arith.var x
  | _, .number n => Arith.num n
  | _, .chain _ first more => Arith.combine first.value more.value
  | _, .done => ([] : List (ArithOp × Arith))
  | _, .link o _ operand more => ((o, operand.value) :: more.value : List (ArithOp × Arith))

end ArithTree

namespace CondTree

/-- The tokens that are derived. -/
def yield : CondTree → List TokenKind
  | .const b => [.keyword (if b then .trueKw else .falseKw)]
  | .compare o left right => left.yield ++ .symbol o.symbol :: right.yield
  | .parens c => inParentheses c.yield

/-- What the derivation stands for. -/
def value : CondTree → Cond
  | .const b => .const b
  | .compare o left right => .compare o left.value right.value
  | .parens c => c.value

end CondTree

namespace StmtTree

/-- A branch up to its first block. -/
def ifHead (c : CondTree) : List TokenKind :=
  .keyword .ifKw :: (c.yield ++ [.keyword .thenKw])

/-- A loop up to its body. -/
def whileHead (c : CondTree) (withDo : Bool) : List TokenKind :=
  .keyword .whileKw :: (c.yield ++ optionally withDo (.keyword .doKw))

/-- A counting loop up to its body. -/
def forHead (x : String) (start bound : ExprTree) (withDo : Bool) : List TokenKind :=
  .keyword .forKw :: .identifier x :: .symbol .assign ::
    (start.yield ++ .keyword .toKw :: (bound.yield ++ optionally withDo (.keyword .doKw)))

/-- The tokens that are derived. -/
def yield : {p : StmtPart} → StmtTree p → List TokenKind
  | _, .program o => o.yield ++ [.eof]
  | _, .empty semicolon => optionally semicolon (.symbol .semicolon)
  | _, .filled ss semicolon => ss.yield ++ optionally semicolon (.symbol .semicolon)
  | _, .statements first more => first.yield ++ more.yield
  | _, .noOthers => []
  | _, .others s more => .symbol .semicolon :: (s.yield ++ more.yield)
  | _, .braces o => .symbol .lbrace :: (o.yield ++ [.symbol .rbrace])
  | _, .single s => s.yield
  | _, .skip => [.keyword .skipKw]
  | _, .assign x e => .identifier x :: .symbol .assign :: e.yield
  | _, .ifThen c t => ifHead c ++ t.yield
  | _, .ifThenElse c t e => ifHead c ++ (t.yield ++ .keyword .elseKw :: e.yield)
  | _, .whileDo c withDo body => whileHead c withDo ++ body.yield
  | _, .forTo x start bound withDo body => forHead x start bound withDo ++ body.yield
  | _, .read x inParens =>
    .keyword .readKw :: if inParens then inParentheses [.identifier x] else [.identifier x]
  | _, .print raw => [.keyword .writeKw, .string raw]
  | _, .write e => .keyword .writeKw :: e.yield

/-- What the derivation stands for. -/
def value : {p : StmtPart} → StmtTree p → p.Value
  | _, .program o => o.value
  | _, .empty _ => ([] : Block)
  | _, .filled ss _ => ss.value
  | _, .statements first more => (first.value :: more.value : Block)
  | _, .noOthers => ([] : Block)
  | _, .others s more => (s.value :: more.value : Block)
  | _, .braces o => o.value
  | _, .single s => ([s.value] : Block)
  | _, .skip => Stmt.skip
  | _, .assign x e => Stmt.assign x e.value
  | _, .ifThen c t => Stmt.ifElse c.value t.value []
  | _, .ifThenElse c t e => Stmt.ifElse c.value t.value e.value
  | _, .whileDo c _ body => Stmt.whileDo c.value body.value
  | _, .forTo x start bound _ body => Stmt.forTo x start.value bound.value body.value
  | _, .read x _ => Stmt.read x
  | _, .print raw => Stmt.print (String.ofList (Token.unescape raw.toList))
  | _, .write e => Stmt.write e.value

end StmtTree

end WhileLang
