import WhileLang.Program.OfTokens
import WhileLang.Token.OfText

/-!
# Programs from Source Text

Both steps of reading a program: the text is cut into tokens, and the tokens
are parsed.

## Main definitions

* `SourceError`: Which step failed, and why.
* `Program.ofText`: The program of a text.
-/

namespace WhileLang

/-- Why a text is no program. -/
inductive SourceError where
  | lexing (e : LexError)
  | parsing (e : ParseError)

namespace SourceError

/-- The step that failed. -/
def step : SourceError → String
  | .lexing _ => "Lexing failed"
  | .parsing _ => "Parsing failed"

/-- The reason. -/
def cause : SourceError → String
  | .lexing e => e.message
  | .parsing e => e.message

/-- Step and reason on one line. -/
def message (e : SourceError) : String :=
  e.step ++ ": " ++ e.cause

end SourceError

/-- The program of a text. -/
def Program.ofText (cs : List Char) : Except SourceError Block := do
  let tokens ← (Token.ofText cs).mapError .lexing
  (Program.ofTokens tokens).mapError .parsing

end WhileLang
