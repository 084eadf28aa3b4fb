import WhileLang.Command.Run

/-!
# The Command

The command on the files and streams of a computer.

## Main definitions

* `ioHost`: The computer as a host.
* `main`: The command.
-/

namespace WhileLang

/-- The number of an error, which some calls of the system give with its sign turned. -/
def hasCode (expected code : UInt32) : Bool :=
  code = expected || code = -expected

/-- Why the system could not do something. -/
def OsError.ofIoError : IO.Error → OsError
  | .noFileOrDirectory .. => .noEntry
  | .alreadyExists .. => .alreadyExists
  | .inappropriateType _ code _ => if hasCode 21 code then .isDirectory else .notDirectory
  | e@(.invalidArgument _ code _) => if hasCode 36 code then .nameTooLong else .other (toString e)
  | e => .other (toString e)

/-- An action of the system, with its error as a value. -/
def attempt {α : Type} (act : IO α) : IO (Except OsError α) := do
  match ← act.toBaseIO with
  | .ok a => return .ok a
  | .error e => return .error (.ofIoError e)

/-- The computer as a host. -/
def ioHost : Host IO where
  readFile path := attempt do return (← IO.FS.readBinFile path).toList
  readInput := do return (← (← IO.getStdin).readBinToEnd).toList
  createDir path := attempt (IO.FS.createDir path)
  isDir path := do
    -- The dot is there in every directory and can be made nowhere else.
    match ← attempt (IO.FS.createDir (path ++ "/.")) with
    | .error .alreadyExists => return true
    | _ => return false
  writeFile path bytes := attempt (IO.FS.writeBinFile path bytes.toByteArray)

/-- More rounds and steps than a computer can do. -/
def ampleFuel : Nat := 0x4000000000000000

end WhileLang

/-- The command. -/
def main (args : List String) : IO UInt32 := do
  let r ← WhileLang.Command.run WhileLang.ioHost WhileLang.ampleFuel args
  let out ← IO.getStdout
  out.write r.output.toByteArray
  out.flush
  IO.eprint r.errorText
  return r.exitCode.toUInt32
