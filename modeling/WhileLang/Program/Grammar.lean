import WhileLang.Parser.Repeat
import WhileLang.Program.Basic
import WhileLang.Token.Basic
import WhileLang.Token.Unescape

/-!
# The Grammar of While

The grammar as parsers over tokens, in order of preference. Three of its
parts are recursive: expressions and conditions through parentheses, and
statements through the blocks of branches and loops. Each of them is written
with itself as a parameter and closed by `Parser.fix`; every such call stands
behind a token, so it is a call on less.

    program    = [statements] [";"] end
    statements = statement (";" statement)*
    block      = "{" [statements] [";"] "}" | statement
    statement  = "skip" | NAME ":=" expression
               | "if" condition "then" block ["else" block]
               | "while" condition ["do"] block
               | "for" NAME ":=" expression "to" expression ["do"] block
               | "read" NAME | "read" "(" NAME ")"
               | "write" STRING | "write" expression
    expression = term (("+" | "-") term)*
    term       = factor (("*" | "/") factor)*
    factor     = "(" expression ")" | NAME | NUMBER
    condition  = "true" | "false" | expression comparison expression
               | "(" condition ")"

An `else` is tried before its absence, innermost first, so it belongs to the
nearest `if` that can take it.

## Main definitions

* `Grammar.expression`, `Grammar.condition`, `Grammar.statement`: The recursive parts.
* `Grammar.opening`: The statements of a program, with or without a last semicolon.
* `Grammar.program`: A whole program.
-/

namespace WhileLang

namespace Grammar

open WhileLang.Parser

/-- A token of exactly that kind. -/
def token (kind : TokenKind) : Parser Token Unit :=
  satisfy fun t => if t.kind = kind then some () else none

/-- A reserved word. -/
def keyword (k : Keyword) : Parser Token Unit :=
  token (.keyword k)

/-- A symbol. -/
def symbol (x : Symbol) : Parser Token Unit :=
  token (.symbol x)

/-- A name. -/
def identifier : Parser Token String :=
  satisfy fun t => match t.kind with
    | .identifier name => some name
    | _ => none

/-- A number. -/
def number : Parser Token Int32 :=
  satisfy fun t => match t.kind with
    | .integer n => some n
    | _ => none

/-- A string literal, as the text it stands for. -/
def string : Parser Token String :=
  satisfy fun t => match t.kind with
    | .string raw => some (String.ofList (Token.unescape raw.toList))
    | _ => none

/-- An operator of sums. -/
def additive : Parser Token ArithOp :=
  satisfy fun t => match t.kind with
    | .symbol .plus => some .add
    | .symbol .minus => some .sub
    | _ => none

/-- An operator of products. -/
def multiplicative : Parser Token ArithOp :=
  satisfy fun t => match t.kind with
    | .symbol .star => some .mul
    | .symbol .slash => some .div
    | _ => none

/-- A comparison operator. -/
def comparison : Parser Token CompareOp :=
  satisfy fun t => match t.kind with
    | .symbol .equal => some .equal
    | .symbol .notEqual => some .notEqual
    | .symbol .less => some .less
    | .symbol .greater => some .greater
    | _ => none

/-- What stands between parentheses. -/
def parenthesized {α : Type} (p : Parser Token α) : Parser Token α :=
  left (right (symbol .lparen) p) (symbol .rparen)

/-- An operand of a product, given the expressions. -/
def factorOf (expression : Parser Token Arith) : Parser Token Arith :=
  orElse (parenthesized expression) (orElse (map .var identifier) (map .num number))

/-- A product, given the expressions. -/
def termOf (expression : Parser Token Arith) : Parser Token Arith :=
  chainLeft (factorOf expression) multiplicative fun l o r => .op o l r

/-- A sum, given the expressions. -/
def expressionOf (expression : Parser Token Arith) : Parser Token Arith :=
  chainLeft (termOf expression) additive fun l o r => .op o l r

/-- An arithmetic expression. -/
def expression : Parser Token Arith :=
  fix expressionOf

/-- An operand of a product. -/
def factor : Parser Token Arith :=
  factorOf expression

/-- A product. -/
def term : Parser Token Arith :=
  termOf expression

/-- A comparison of two expressions. -/
def compared : Parser Token Cond :=
  map (fun r => .compare r.1.2 r.1.1 r.2) (andThen (andThen expression comparison) expression)

/-- A condition, given the conditions. -/
def conditionOf (condition : Parser Token Cond) : Parser Token Cond :=
  orElse
    (orElse (map (fun _ => .const true) (keyword .trueKw))
      (map (fun _ => .const false) (keyword .falseKw)))
    -- A comparison may itself begin with a parenthesis, so it is tried first.
    (orElse compared (parenthesized condition))

/-- A condition. -/
def condition : Parser Token Cond :=
  fix conditionOf

/-- A name and the expression that is assigned to it. -/
def assignment : Parser Token (String × Arith) :=
  andThen (left identifier (symbol .assign)) expression

/-- Statements separated by semicolons, given the statements. -/
def statementsOf (statement : Parser Token Stmt) : Parser Token (Items Stmt) :=
  sepBy1 statement (symbol .semicolon)

/-- Perhaps statements, and perhaps a semicolon behind them. -/
def openingOf (statement : Parser Token Stmt) : Parser Token (Items Stmt) :=
  map (fun xs => xs.getD .empty) (left (opt (statementsOf statement)) (opt (symbol .semicolon)))

/-- Statements in braces or a single one, given the statements. -/
def blockOf (statement : Parser Token Stmt) : Parser Token Block :=
  orElse
    (map Items.toList
      (left (right (symbol .lbrace) (openingOf statement)) (symbol .rbrace)))
    (map (fun s => [s]) statement)

/-- A choice between blocks; without `else` the second one is empty. -/
def ifOf (block : Parser Token Block) : Parser Token Stmt :=
  map (fun r => .ifElse r.1.1 r.1.2 (r.2.getD []))
    (andThen
      (andThen (left (right (keyword .ifKw) condition) (keyword .thenKw)) block)
      (opt (right (keyword .elseKw) block)))

/-- A loop with a condition. -/
def whileOf (block : Parser Token Block) : Parser Token Stmt :=
  map (fun r => .whileDo r.1 r.2)
    (andThen (left (right (keyword .whileKw) condition) (opt (keyword .doKw))) block)

/-- A counting loop. -/
def forOf (block : Parser Token Block) : Parser Token Stmt :=
  map (fun r => .forTo r.1.1.1 r.1.1.2 r.1.2 r.2)
    (andThen
      (left (andThen (left (right (keyword .forKw) assignment) (keyword .toKw)) expression)
        (opt (keyword .doKw)))
      block)

/-- A statement that reads. -/
def readStatement : Parser Token Stmt :=
  map .read (right (keyword .readKw) (orElse identifier (parenthesized identifier)))

/-- A statement that writes. -/
def writeStatement : Parser Token Stmt :=
  right (keyword .writeKw) (orElse (map .print string) (map .write expression))

/-- A statement, given the statements. -/
def statementOf (statement : Parser Token Stmt) : Parser Token Stmt :=
  let block := blockOf statement
  orElse
    (orElse
      (orElse (map (fun _ => .skip) (keyword .skipKw))
        (map (fun r => .assign r.1 r.2) assignment))
      (orElse (ifOf block) (whileOf block)))
    (orElse (orElse (forOf block) readStatement) writeStatement)

/-- A statement. -/
def statement : Parser Token Stmt :=
  fix statementOf

/-- Statements separated by semicolons. -/
def statements : Parser Token (Items Stmt) :=
  statementsOf statement

/-- A block. -/
def block : Parser Token Block :=
  blockOf statement

/-- What a program consists of before its end. -/
def opening : Parser Token (Items Stmt) :=
  openingOf statement

/-- A program up to the mark at its end. -/
def program : Parser Token Block :=
  map Items.toList (left opening (token .eof))

end Grammar

end WhileLang
