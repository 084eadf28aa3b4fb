import WhileLang.Text.Decimal
import WhileLang.Text.Position

/-!
# Tokens

The words of the While language: keywords, symbols, names, numbers, string
literals and the mark at the end of the text. Keywords and symbols each have
one list with their spellings, and everything else about them is read off it.
Equality alone has two spellings.

A string literal is kept as it was written between its quotes, escapes and
all.

## Main definitions

* `Keyword`: The reserved words.
* `Keyword.ofText?`: The keyword of that spelling.
* `Symbol`: Operators, brackets and the semicolon.
* `Symbol.ofText?`: The symbol of that spelling.
* `TokenKind`: What a token is.
* `TokenKind.display`: How messages name a token.
* `Token`: A token and its place.

## Theorems

* `Keyword.ofText?_text`: A keyword is found by its spelling.
* `Keyword.text_of_ofText?`: What is found by a spelling is spelled so.
* `Symbol.ofText?_text`: A symbol is found by its spelling.
* `Symbol.text_of_ofText?`: What is found by a spelling is spelled so.
-/

namespace WhileLang

/-- The reserved words. -/
inductive Keyword where
  | whileKw | ifKw | thenKw | elseKw | doKw | forKw | toKw | readKw | writeKw | skipKw
  | trueKw | falseKw
deriving DecidableEq, Repr

namespace Keyword

/-- How the word is written. -/
def text : Keyword → String
  | .whileKw => "while"
  | .ifKw => "if"
  | .thenKw => "then"
  | .elseKw => "else"
  | .doKw => "do"
  | .forKw => "for"
  | .toKw => "to"
  | .readKw => "read"
  | .writeKw => "write"
  | .skipKw => "skip"
  | .trueKw => "true"
  | .falseKw => "false"

/-- All reserved words. -/
def all : List Keyword :=
  [.whileKw, .ifKw, .thenKw, .elseKw, .doKw, .forKw, .toKw, .readKw, .writeKw, .skipKw,
   .trueKw, .falseKw]

/-- The keyword that is written so. -/
def ofText? (s : String) : Option Keyword :=
  all.find? (·.text = s)

/-- A keyword is found by its spelling. -/
theorem ofText?_text (k : Keyword) : ofText? k.text = some k := by
  cases k <;> rfl

/-- What is found by a spelling is spelled so. -/
theorem text_of_ofText? {s : String} {k : Keyword} (h : ofText? s = some k) : k.text = s := by
  simpa using List.find?_some h

end Keyword

/-- Operators, brackets and the semicolon. -/
inductive Symbol where
  | assign | equal | notEqual | less | greater | plus | minus | star | slash
  | semicolon | lparen | rparen | lbrace | rbrace
deriving DecidableEq, Repr

namespace Symbol

/-- How messages write the symbol. -/
def text : Symbol → String
  | .assign => ":="
  | .equal => "="
  | .notEqual => "!="
  | .less => "<"
  | .greater => ">"
  | .plus => "+"
  | .minus => "-"
  | .star => "*"
  | .slash => "/"
  | .semicolon => ";"
  | .lparen => "("
  | .rparen => ")"
  | .lbrace => "\x7b"
  | .rbrace => "\x7d"

/-- The spellings in programs: equality may be doubled. -/
def spellings : List (String × Symbol) :=
  [(":=", .assign), ("==", .equal), ("!=", .notEqual), ("=", .equal), ("<", .less),
   (">", .greater), ("+", .plus), ("-", .minus), ("*", .star), ("/", .slash),
   ("(", .lparen), (")", .rparen), ("\x7b", .lbrace), ("\x7d", .rbrace), (";", .semicolon)]

/-- The symbol that is written so. -/
def ofText? (s : String) : Option Symbol :=
  (spellings.find? (·.1 = s)).map (·.2)

/-- A symbol is found by its spelling. -/
theorem ofText?_text (x : Symbol) : ofText? x.text = some x := by
  cases x <;> rfl

/-- What is found by a spelling is spelled so, or is the equality that may be doubled. -/
theorem text_of_ofText? {s : String} {x : Symbol} (h : ofText? s = some x) :
    x.text = s ∨ x = .equal ∧ s = "==" := by
  have hall : ∀ p ∈ spellings, p.2.text = p.1 ∨ p.2 = .equal ∧ p.1 = "==" := by decide
  obtain ⟨p, hp, rfl⟩ := Option.map_eq_some_iff.mp h
  have hs : p.1 = s := by simpa using List.find?_some hp
  rw [← hs]
  exact hall p (List.mem_of_find?_eq_some hp)

end Symbol

/-- What a token is. -/
inductive TokenKind where
  | identifier (name : String)
  | integer (n : Int32)
  /-- A string literal, as written between its quotes. -/
  | string (raw : String)
  | keyword (k : Keyword)
  | symbol (x : Symbol)
  | eof
deriving DecidableEq, Repr

/-- How messages name a token. -/
def TokenKind.display : TokenKind → String
  | .identifier name => "identifier '" ++ name ++ "'"
  | .integer n => "number " ++ Decimal.text n.toInt
  | .string raw => "string \"" ++ raw ++ "\""
  | .keyword k => "'" ++ k.text ++ "'"
  | .symbol x => "'" ++ x.text ++ "'"
  | .eof => "end of input"

/-- A token and its place. -/
structure Token where
  kind : TokenKind
  span : Span
deriving DecidableEq, Repr

end WhileLang
