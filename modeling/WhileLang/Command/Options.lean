/-!
# Command Line Options

What the arguments of the command ask for. They are read from the left, the
last of several options of a kind counts, and the first argument that makes
no sense is the error. Whatever is no option is the path of the source file.

## Main definitions

* `Emit`: What can be shown instead of running a program.
* `Options`: What the arguments ask for.
* `OptionError`: Why the arguments make no sense.
* `Options.ofArgs`: Reads the arguments.
-/

namespace WhileLang

/-- What can be shown instead of running a program. -/
inductive Emit where
  | tokens
  | ast
  | asm
deriving DecidableEq, Repr

/-- What is to be shown, by its name. -/
def Emit.ofName? : String → Option Emit
  | "tokens" => some .tokens
  | "ast" => some .ast
  | "asm" => some .asm
  | _ => none

/-- What the arguments ask for. -/
structure Options where
  backend : Option String
  emit : Option Emit
  outDir : Option String
  noRun : Bool
  /-- The source file; without one the source is the input. -/
  inputPath : Option String
deriving DecidableEq, Repr

/-- Why the arguments make no sense. -/
inductive OptionError where
  | missingBackend (arg : String)
  | missingEmit (arg : String)
  | unknownEmit (name : String)
  | missingDirectory (arg : String)
  | help
  | severalInputs
deriving DecidableEq, Repr

/-- How the command is used. -/
def usage : String :=
  "usage: whilec [--backend <interpreter|vm|jasmin>] [--emit <tokens|ast|asm>] " ++
    "[--out-dir <dir>] [--no-run] [file]"

/-- The wording of an error. -/
def OptionError.message : OptionError → String
  | .missingBackend arg => "Missing backend name after " ++ arg
  | .missingEmit arg => "Missing output kind after " ++ arg
  | .unknownEmit name => "Unknown output kind '" ++ name ++ "'\n" ++ usage
  | .missingDirectory arg => "Missing directory after " ++ arg
  | .help => usage
  | .severalInputs => "Only one input file is supported"

namespace Options

/-- Nothing in particular is asked for. -/
def default : Options :=
  { backend := none, emit := none, outDir := none, noRun := false, inputPath := none }

/-- Adds what further arguments ask for. -/
def addArgs (o : Options) : List String → Except OptionError Options
  | [] => .ok o
  | arg :: rest =>
    if arg = "--backend" ∨ arg = "-b" then
      match rest with
      | [] => .error (.missingBackend arg)
      | name :: rest => addArgs { o with backend := some name } rest
    else if arg = "--emit" ∨ arg = "-e" then
      match rest with
      | [] => .error (.missingEmit arg)
      | name :: rest =>
        match Emit.ofName? name with
        | none => .error (.unknownEmit name)
        | some kind => addArgs { o with emit := some kind } rest
    else if arg = "--out-dir" ∨ arg = "-o" then
      match rest with
      | [] => .error (.missingDirectory arg)
      | dir :: rest => addArgs { o with outDir := some dir } rest
    else if arg = "--no-run" then addArgs { o with noRun := true } rest
    else if arg = "--help" ∨ arg = "-h" then .error .help
    -- What is no option is the source file, and there can be only one.
    else if o.inputPath.isSome then .error .severalInputs
    else addArgs { o with inputPath := some arg } rest

/-- Reads the arguments. -/
def ofArgs (args : List String) : Except OptionError Options :=
  addArgs default args

end Options

end WhileLang
