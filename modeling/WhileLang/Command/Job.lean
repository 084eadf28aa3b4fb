import WhileLang.Assembly.ClassName
import WhileLang.Assembly.Render
import WhileLang.Backend
import WhileLang.Command.Options
import WhileLang.Files.Tree
import WhileLang.Program.OfText
import WhileLang.Program.Outline

/-!
# What a Command Does

Given the options and the source, what remains to be done: show something,
run a program, or write an assembly file and assemble it. Deciding this needs
neither files nor streams, so that all that can be wrong with the source is
found before anything is written.

## Main definitions

* `CommandError`: Why a command fails.
* `CommandError.report`: The text that is shown for it.
* `Job`: What remains to be done.
* `Job.ofSource`: Decides what it is.
-/

namespace WhileLang

/-- Why a command fails. -/
inductive CommandError where
  | options (e : OptionError)
  | reading (what : String) (cause : String)
  | tokens (e : LexError)
  | source (e : SourceError)
  | compile (e : CompileError)
  | unknownBackend (name : String)
  | backend (e : BackendError)
  | creating (dir : String) (cause : OsError)
  | writing (path : String) (cause : OsError)

namespace CommandError

/-- What failed. -/
def message : CommandError → String
  | .options e => e.message
  | .reading what _ => "Reading " ++ what
  | .tokens e => e.message
  | .source e => e.step
  | .compile e => e.message
  | .unknownBackend name => "Unknown backend '" ++ name ++ "'"
  | .backend e => e.message
  | .creating dir _ => "Creating " ++ dir
  | .writing path _ => "Writing " ++ path

/-- Why it failed, if that is not what failed. -/
def cause? : CommandError → Option String
  | .reading _ cause => some cause
  | .source e => some e.cause
  | .backend .assembler => some OsError.noEntry.message
  | .creating _ cause | .writing _ cause => some cause.message
  | _ => none

/-- A text with its lines indented, the first one included. -/
def indent (s : String) : String :=
  String.join (("    ".toList ++ s.toList.flatMap fun c =>
    if c = '\n' then c :: "    ".toList else [c]).map String.singleton)

/-- The text that is shown for an error. -/
def report (e : CommandError) : String :=
  match e.cause? with
  | none => "Error: " ++ e.message ++ "\n"
  | some cause => "Error: " ++ e.message ++ "\n\nCaused by:\n" ++ indent cause ++ "\n"

end CommandError

/-- What remains to be done once the source was read. -/
inductive Job where
  | show (text : String)
  | run (program : Prepared)
  /-- Write an assembly text to a file in a directory, and assemble it unless told not to. -/
  | assemble (dir file text : String) (noRun : Bool)

namespace Job

/-- A line for each token. -/
def tokenLines (tokens : List Token) : String :=
  String.join (tokens.map fun t =>
    Decimal.natText t.span.start.line ++ ":" ++ Decimal.natText t.span.start.column ++ " "
      ++ t.kind.display ++ "\n")

/-- The name of the class that the source is compiled to. -/
def className (o : Options) : String :=
  match o.inputPath with
  | some path => String.ofList (Assembly.className (.ofText path.toList))
  | none => "Program"

/-- The directory of the assembly file: the one that was asked for, else that of the source. -/
def outDir (o : Options) : String :=
  match o.outDir with
  | some dir => dir
  | none =>
    match o.inputPath.bind fun path => (Path.ofText path.toList).parent? with
    | none => "."
    | some dir => if dir.text = [] then "." else String.ofList dir.text

/-- What remains to be done with a source. -/
def ofSource (o : Options) (source : List Char) : Except CommandError Job := do
  -- Tokens are shown even if they make up no program.
  if o.emit = some .tokens then
    return .show (tokenLines (← (Token.ofText source).mapError .tokens))
  let program ← (Program.ofText source).mapError .source
  if o.emit = some .ast then
    return .show ((Program.outline program).text ++ "\n")
  -- Showing something goes before running, so a backend counts only if nothing is to be shown.
  if o.emit.isNone then
    if let some name := o.backend then
      match Backend.ofName? name with
      | none => throw (.unknownBackend name)
      | some b => return .run (← (b.prepare program).mapError .backend)
  let code ← (Code.ofProgram program).mapError .compile
  let text := Assembly.render (className o) code
  if o.emit = some .asm then
    return .show text
  return .assemble (outDir o) (className o ++ ".j") text o.noRun

end Job

end WhileLang
