import WhileLang.Lexeme.OfText
import WhileLang.Token.Rules

/-!
# Reading Tokens

A program text is cut into lexemes by the rules of the language, and each
lexeme that is not skipped becomes a token: words are looked up, numbers are
read, and string literals lose their quotes. A mark follows the last token;
its place is the end of the text.

## Main definitions

* `TokenKind.ofLexeme`: The token that a lexeme stands for.
* `Token.ofText`: The tokens of a text, with the mark at its end.

## Theorems

* `Token.ofText_eq_ok`: When a text has tokens, and which.
-/

namespace WhileLang

/-- The token that a lexeme stands for. -/
def TokenKind.ofLexeme (l : Lexeme) : Except LexError TokenKind :=
  let text := String.ofList l.text
  match LexemeKind.ofName? l.rule with
  | some .keyword =>
    match Keyword.ofText? text with
    | some k => return .keyword k
    | none => throw (.unknownRule l.rule)
  | some .identifier => return .identifier text
  | some .number =>
    match Decimal.readInt32? l.text with
    | some n => return .integer n
    | none => throw (.invalidInteger text l.span.start.offset)
  -- The quotes are the first and the last character of the lexeme.
  | some .string => return .string (String.ofList (l.text.drop 1).dropLast)
  | some .operator | some .paren | some .semicolon =>
    match Symbol.ofText? text with
    | some x => return .symbol x
    | none => throw (.unknownRule l.rule)
  -- Skipped lexemes never become tokens.
  | some .whitespace | some .comment | none => throw (.unknownRule l.rule)

namespace Token

/-- The token of a lexeme, where the lexeme stands. -/
def ofLexeme (l : Lexeme) : Except LexError Token := do
  return ⟨← TokenKind.ofLexeme l, l.span⟩

/-- The mark at the end of a text. Its place is counted over the whole text, and not from the last
    lexeme on. -/
def eof (cs : List Char) : Token :=
  let place := Position.behind cs
  ⟨.eof, ⟨place, place.offset⟩⟩

/-- The tokens of a text, with the mark at its end. -/
def ofText (cs : List Char) : Except LexError (List Token) := do
  let lexemes ← Lexeme.ofText LexemeKind.rules cs
  let tokens ← lexemes.mapM ofLexeme
  return tokens ++ [eof cs]

/-- Tokens are read if the text is cut into lexemes and every lexeme stands for a token. -/
theorem ofText_eq_ok {cs : List Char} {ts : List Token} :
    ofText cs = .ok ts ↔ ∃ ls us, Lexeme.ofText LexemeKind.rules cs = .ok ls ∧
      ls.mapM ofLexeme = .ok us ∧ us ++ [eof cs] = ts := by
  rw [ofText]
  cases Lexeme.ofText LexemeKind.rules cs with
  | error e => exact iff_of_false nofun nofun
  | ok ls =>
    change ls.mapM ofLexeme >>= _ = _ ↔ _
    cases hus : ls.mapM ofLexeme with
    | error e =>
      refine iff_of_false nofun ?_
      rintro ⟨_, us, hls, hus', -⟩
      cases hls
      cases hus.symm.trans hus'
    | ok us =>
      constructor
      · intro h
        exact ⟨ls, us, rfl, hus, Except.ok.inj h⟩
      · rintro ⟨_, us', hls, hus', rfl⟩
        cases hls
        cases hus.symm.trans hus'
        rfl

end Token

end WhileLang
