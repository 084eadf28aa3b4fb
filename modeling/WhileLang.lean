import WhileLang.Main
import WhileLang.Parser.Text
import WhileLang.Proofs.Pattern.Language
import WhileLang.Proofs.Value.Posix
import WhileLang.Proofs.Value.Simplified
import WhileLang.Proofs.Value.Fitting
import WhileLang.Proofs.Lexeme.Segments
import WhileLang.Proofs.Code.Correct
import WhileLang.Proofs.Machine.Shaped
import WhileLang.Proofs.Parser.First
import WhileLang.Proofs.Grammar.Else
import WhileLang.Proofs.Grammar.Expressions
import WhileLang.Proofs.Grammar.Statements
import WhileLang.Proofs.Grammar.Ends
import WhileLang.Proofs.Grammar.Unique
import WhileLang.Proofs.Grammar.Parsed
import WhileLang.Proofs.Pattern.Chars
import WhileLang.Proofs.Token.Spelling
import WhileLang.Proofs.Token.Written
import WhileLang.Proofs.Token.Layout
import WhileLang.Proofs.Program.Print
import WhileLang.Proofs.Program.RoundTrip
import WhileLang.Proofs.Code.Calls
import WhileLang.Proofs.Assembly.ReadBack
import WhileLang.Proofs.Program.Ends
import WhileLang.Proofs.Program.Frame
import WhileLang.Proofs.Code.Counting
import WhileLang.Proofs.Code.Loads
import WhileLang.Proofs.Code.Unbound
import WhileLang.Proofs.Program.Rounds
import WhileLang.Proofs.Code.Renaming
import WhileLang.Proofs.Program.Integers
import WhileLang.Proofs.Machine.Arithmetic
import WhileLang.Proofs.Code.Heights
import WhileLang.Proofs.Assembly.Limits
import WhileLang.Proofs.Parser.Chains
import WhileLang.Proofs.Parser.Folded
import WhileLang.Proofs.Grammar.LongestFirst
import WhileLang.Proofs.Grammar.Errors
import WhileLang.Proofs.Lexeme.Positions
import WhileLang.Proofs.Token.Lines
import WhileLang.Proofs.Pattern.Crossed
import WhileLang.Proofs.Value.EmptyText
import WhileLang.Proofs.Lexeme.Namesakes
import WhileLang.Proofs.Token.Classified
import WhileLang.Proofs.Pattern.Bounded
import WhileLang.Proofs.Token.Pending
import WhileLang.Proofs.Stream.Lines
import WhileLang.Proofs.Value.Stack
import WhileLang.Proofs.Grammar.Unmarked
import WhileLang.Proofs.Grammar.Unguarded
