import WhileLang.Command.Job

/-!
# Running a Command

A command reads its source, does what there is to do, and reports what it has
written and whether it failed. All it needs from its surroundings is
collected in a `Host`: reading a file or the input, making a directory and
writing a file. The same command therefore runs on the files of a computer
and on a file tree that is given as a value.

## Main definitions

* `Host`: What a command needs from its surroundings.
* `Report`: What a command has written and whether it failed.
* `Command.createDirs`: Makes a directory and those above it.
* `Command.run`: Runs a command.
* `Session`: A file tree and an input.
* `Session.host`: A session as a host.
-/

namespace WhileLang

/-- What a command needs from its surroundings. -/
structure Host (m : Type → Type) where
  readFile : String → m (Except OsError (List UInt8))
  readInput : m (List UInt8)
  createDir : String → m (Except OsError Unit)
  isDir : String → m Bool
  writeFile : String → List UInt8 → m (Except OsError Unit)

/-- What a command has written, and whether it failed. -/
structure Report where
  output : List UInt8
  failure : Option CommandError

namespace Report

/-- Nothing was written. -/
def failed (e : CommandError) : Report := ⟨[], some e⟩

/-- A text was written. -/
def shown (text : String) : Report := ⟨Utf8.encode text.toList, none⟩

/-- The exit status. -/
def exitCode (r : Report) : Nat :=
  if r.failure.isSome then 1 else 0

/-- The text of the failure. -/
def errorText (r : Report) : String :=
  match r.failure with
  | some e => e.report
  | none => ""

end Report

namespace Command

variable {m : Type → Type} [Monad m]

/-- The source that the options name. -/
def readSource (host : Host m) (o : Options) : m (Except CommandError (List Char)) := do
  let (what, bytes) ← match o.inputPath with
    | some path => pure (path, ← host.readFile path)
    | none => pure ("stdin", .ok (← host.readInput))
  match bytes with
  | .error e => return .error (.reading what e.message)
  | .ok bytes =>
    match Utf8.decode? bytes with
    | none => return .error (.reading what "stream did not contain valid UTF-8")
    | some cs => return .ok cs

/-- Makes a directory, unless it is there already. -/
def ensureDir (host : Host m) (path : String) : m (Except OsError Unit) := do
  match ← host.createDir path with
  | .ok _ => return .ok ()
  | .error e => return if ← host.isDir path then .ok () else .error e

/-- Makes a directory and those above it, as far as they are missing. -/
def createDirs (host : Host m) (p : Path) : m (Except OsError Unit) := do
  if p.text = [] then return .ok ()
  match ← ensureDir host (String.ofList p.text) with
  | .error .noEntry =>
    match _h : p.parent? with
    | none => return .error .noEntry
    | some above =>
      -- Something above is missing: it is made first, and then this is tried again.
      match ← createDirs host above with
      | .ok _ => ensureDir host (String.ofList p.text)
      | .error e => return .error e
  | r => return r
termination_by p.depth
decreasing_by exact Path.depth_parent?_lt _h

/-- Writes an assembly file, and goes on to assemble it unless told not to. -/
def assemble (host : Host m) (dir file text : String) (noRun : Bool) : m Report := do
  match ← createDirs host (.ofText dir.toList) with
  | .error e => return .failed (.creating dir e)
  | .ok _ =>
    let path := String.ofList (Path.join dir.toList file.toList)
    match ← host.writeFile path (Utf8.encode text.toList) with
    | .error e => return .failed (.writing path e)
    -- The assembler is no part of this library, so starting it fails.
    | .ok _ => return if noRun then .shown (path ++ "\n") else .failed (.backend .assembler)

/-- Does what there is to do. -/
def perform (host : Host m) (fuel : Nat) : Job → m Report
  | .show text => return .shown text
  | .run program => do
    -- The program reads what the source has left of the input.
    let r := program.run fuel (.ofInput (← host.readInput))
    return ⟨r.io.output.toList, r.failure.map .backend⟩
  | .assemble dir file text noRun => assemble host dir file text noRun

/-- Runs a command. -/
def run (host : Host m) (fuel : Nat) (args : List String) : m Report := do
  match Options.ofArgs args with
  | .error e => return .failed (.options e)
  | .ok o =>
    match ← readSource host o with
    | .error e => return .failed e
    | .ok source =>
      match Job.ofSource o source with
      | .error e => return .failed e
      | .ok job => perform host fuel job

end Command

/-- A file tree and an input. -/
structure Session where
  files : FileTree
  input : List UInt8
deriving DecidableEq, Repr

namespace Session

/-- Something done with the files of a session. -/
def onFiles {α : Type} (act : FileTree.Act α) : StateM Session (Except OsError α) := fun s =>
  match act s.files with
  | .ok a files => (.ok a, { s with files := files })
  | .error e files => (.error e, { s with files := files })

/-- A session as a host. -/
def host : Host (StateM Session) where
  readFile path := fun s => (s.files.readFile (.ofText path.toList), s)
  readInput := fun s => (s.input, { s with input := [] })
  createDir path := onFiles (FileTree.createDir (.ofText path.toList))
  isDir path := fun s => (s.files.isDir (.ofText path.toList), s)
  writeFile path bytes := onFiles (FileTree.writeFile (.ofText path.toList) bytes)

end Session

end WhileLang
