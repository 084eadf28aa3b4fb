import WhileLang.Lexeme.Basic
import WhileLang.Token.Basic

/-!
# The Lexical Rules of While

Nine kinds of lexemes, in order of precedence. Keywords stand before names,
so that a reserved word is not a name, while a longer word that begins with
one is. Blanks and comments are skipped.

A comment reaches to the end of its line. A string literal stays on one line,
and a backslash in it must be followed by one of the four characters that can
be escaped.

## Main definitions

* `LexemeKind`: The nine kinds.
* `LexemeKind.pattern`: What a lexeme of a kind looks like.
* `LexemeKind.rules`: The table of rules.
-/

namespace WhileLang

/-- The kinds of lexemes. -/
inductive LexemeKind where
  | whitespace | comment | keyword | identifier | number | string | operator | paren | semicolon
deriving DecidableEq, Repr

namespace LexemeKind

/-- All kinds, those of higher precedence first. -/
def all : List LexemeKind :=
  [.whitespace, .comment, .keyword, .identifier, .number, .string, .operator, .paren, .semicolon]

/-- The name of the rule. -/
def name : LexemeKind → String
  | .whitespace => "whitespace"
  | .comment => "comment"
  | .keyword => "keyword"
  | .identifier => "identifier"
  | .number => "number"
  | .string => "string"
  | .operator => "operator"
  | .paren => "paren"
  | .semicolon => "semicolon"

/-- The kind of that name. -/
def ofName? (s : String) : Option LexemeKind :=
  all.find? (·.name = s)

/-- A letter of either case. -/
def letter : Pattern :=
  .anyOf ("abcdefghijklmnopqrstuvwxyz".toList ++ "ABCDEFGHIJKLMNOPQRSTUVWXYZ".toList)

/-- A digit. -/
def digit : Pattern :=
  .anyOf "0123456789".toList

/-- A backslash and what it escapes. -/
def escape : Pattern :=
  .seq (.char '\\') (.anyOf ['n', 't', '"', '\\'])

/-- The operators. -/
def operators : List String :=
  [":=", "==", "!=", "=", "<", ">", "+", "-", "*", "/"]

/-- What a lexeme of the kind looks like. -/
def pattern : LexemeKind → Pattern
  | .whitespace => .plus (.anyOf [' ', '\t', '\r', '\n'])
  | .comment => .seq (.literal "//".toList) (.star (.anyBut ['\n']))
  | .keyword => .alts (Keyword.all.map fun k => .literal k.text.toList)
  | .identifier => .seq letter (.star (.alts [letter, digit, .char '_']))
  | .number => .plus digit
  -- Anything but a quote, a backslash and a line feed stands for itself.
  | .string =>
    .seqs [.char '"', .star (.alt (.anyBut ['"', '\\', '\n']) escape), .char '"']
  | .operator => .alts (operators.map fun s => .literal s.toList)
  | .paren => .anyOf ['(', ')', '{', '}']
  | .semicolon => .char ';'

/-- Lexemes of the kind are left out. -/
def isSkipped : LexemeKind → Bool
  | .whitespace | .comment => true
  | _ => false

/-- The rule of the kind. -/
def rule (k : LexemeKind) : Rule :=
  ⟨k.name, k.pattern, k.isSkipped⟩

/-- The table of rules. -/
def rules : List Rule :=
  all.map rule

/-- A kind is found by its name. -/
theorem ofName?_name (k : LexemeKind) : ofName? k.name = some k := by
  cases k <;> rfl

end LexemeKind

end WhileLang
