import WhileLang.Files.Path
import WhileLang.Text.Utf8

/-!
# File Trees

A tree of directories and files with a working directory, and what can be
done with it: reading a file, making a directory, and writing a file. Each of
these may fail, and the causes are those of the operating system. A path is
followed name by name, from the top of the tree if it begins with a slash and
from the working directory otherwise; everything on the way has to be a
directory, and the directory above the top is the top itself.

A dot or two dots at the end of a path are followed like any other name, so
they lead nowhere as long as the directory before them is missing.

## Main definitions

* `OsError`: Why something cannot be done.
* `FileTree`: Directories and files.
* `FileTree.locate`: The place that a path leads to.
* `FileTree.readFile`: The bytes of a file.
* `FileTree.createDir`: Makes a directory.
* `FileTree.writeFile`: Makes a file or replaces it.
* `FileTree.changes`: What is new or different in a tree.

## Theorems

* `FileTree.find?_put`: What is at a place after something was put at one.
-/

namespace WhileLang

/-- Why something cannot be done with a file. -/
inductive OsError where
  | noEntry
  | alreadyExists
  | notDirectory
  | isDirectory
  | nameTooLong
  /-- Any other cause, in the words of the system. -/
  | other (description : String)
deriving DecidableEq, Repr

/-- The wording of a cause. -/
def OsError.message : OsError → String
  | .noEntry => "No such file or directory (os error 2)"
  | .alreadyExists => "File exists (os error 17)"
  | .notDirectory => "Not a directory (os error 20)"
  | .isDirectory => "Is a directory (os error 21)"
  | .nameTooLong => "File name too long (os error 36)"
  | .other description => description

/-- What is at a place in a tree. -/
inductive FileEntry where
  | file (bytes : List UInt8)
  | dir
deriving DecidableEq, Repr

/-- The names from the top of a tree to a place in it. -/
abbrev Place := List String

/-- Directories and files. The top is a directory and is not listed. -/
structure FileTree where
  cwd : Place
  entries : List (Place × FileEntry)
deriving DecidableEq, Repr

namespace FileTree

/-- What is at a place. -/
def find? (t : FileTree) (place : Place) : Option FileEntry :=
  if place = [] then some .dir else t.entries.lookup place

/-- A tree with something put at a place. -/
def put (t : FileTree) (place : Place) (e : FileEntry) : FileTree :=
  { t with entries := (place, e) :: t.entries.filter (·.1 ≠ place) }

/-- A tree with a directory at a place, and directories on the way to it. -/
def putDirs (t : FileTree) (place : Place) : FileTree :=
  (List.range place.length).foldl (fun t n => t.put (place.take (n + 1)) .dir) t

/-- A tree with nothing in it but its working directory. -/
def empty (cwd : Place) : FileTree :=
  putDirs ⟨cwd, []⟩ cwd

/-- The most bytes that the name of a file can have. -/
def nameLimit : Nat := 255

/-- The most bytes that a path can have. -/
def pathLimit : Nat := 4095

/-- One step along a path, from a directory. -/
def follow (t : FileTree) (place : Place) (segment : List Char) : Except OsError Place :=
  match t.find? place with
  | none => .error .noEntry
  | some (.file _) => .error .notDirectory
  | some .dir =>
    if segment = ['.'] then .ok place
    else if segment = ['.', '.'] then .ok place.dropLast
    else if nameLimit < (Utf8.encode segment).length then .error .nameTooLong
    else .ok (place ++ [String.ofList segment])

/-- Where a path starts. -/
def startOf (t : FileTree) : PathStart → Place
  | .root => []
  | .dot | .name => t.cwd

/-- The place that a path leads to, which may be empty. The empty path leads nowhere. -/
def locate (t : FileTree) (p : Path) : Except OsError Place :=
  if p.text = [] then .error .noEntry
  else if pathLimit < (Utf8.encode p.text).length then .error .nameTooLong
  else (p.segments.filter (· ≠ [])).foldlM t.follow (t.startOf p.start)

/-- A path that ends with a slash leads to a directory. -/
def wantsDir (p : Path) : Bool :=
  p.segments.getLast? = some []

/-- The bytes of a file. -/
def readFile (t : FileTree) (p : Path) : Except OsError (List UInt8) := do
  let place ← t.locate p
  match t.find? place with
  | none => .error .noEntry
  | some .dir => .error .isDirectory
  | some (.file bytes) => if wantsDir p then .error .notDirectory else .ok bytes

/-- Something done with a tree, which stays changed when it fails. -/
abbrev Act := EStateM OsError FileTree

/-- Makes one directory. -/
def createDir (p : Path) : Act Unit := fun t =>
  match t.locate p with
  | .error e => .error e t
  | .ok place =>
    match t.find? place with
    | some _ => .error .alreadyExists t
    | none => .ok () (t.put place .dir)

/-- There is a directory at the path. -/
def isDir (t : FileTree) (p : Path) : Bool :=
  match t.locate p with
  | .ok place => t.find? place = some .dir
  | .error _ => false

/-- Makes a file, or replaces what is in it. -/
def writeFile (p : Path) (bytes : List UInt8) : Act Unit := fun t =>
  match t.locate p with
  | .error e => .error e t
  | .ok place =>
    match t.find? place with
    | some .dir => .error .isDirectory t
    -- A file that is there already is replaced.
    | _ => if wantsDir p then .error .isDirectory t else .ok () (t.put place (.file bytes))

/-- A tree with one more file below its working directory, and directories on the way to it. -/
def addFile (t : FileTree) (p : Path) (bytes : List UInt8) : FileTree :=
  let place := t.cwd ++ (p.segments.filter (!Path.isFiller ·)).map String.ofList
  (t.putDirs place.dropLast).put place (.file bytes)

/-- A place as text, with a slash at the end if it is a directory. -/
def placeText (place : Place) (e : FileEntry) : String :=
  String.intercalate "/" place ++ if e = .dir then "/" else ""

/-- What is new or different in the second of two trees, below the working directory. -/
def changes (before after : FileTree) : List (String × FileEntry) :=
  after.entries.filterMap fun (place, e) =>
    if before.cwd.isPrefixOf place ∧ before.find? place ≠ some e then
      some (placeText (place.drop before.cwd.length) e, e)
    else none

theorem lookup_filter_ne (entries : List (Place × FileEntry)) (p q : Place) (h : q ≠ p) :
    (entries.filter (·.1 ≠ p)).lookup q = entries.lookup q := by
  induction entries with
  | nil => rfl
  | cons e es ih =>
    rw [List.filter_cons]
    by_cases he : e.1 = p
    -- An entry that is taken out is not the one that is looked for.
    · have hq : (q == e.1) = false := beq_eq_false_iff_ne.mpr (he ▸ h)
      rw [if_neg (by simpa using he), ih, List.lookup_cons, hq]
    · rw [if_pos (by simpa using he), List.lookup_cons, List.lookup_cons, ih]

/-- What is at a place after something was put at one. -/
theorem find?_put (t : FileTree) (p q : Place) (e : FileEntry) (hp : p ≠ []) :
    (t.put p e).find? q = if q = p then some e else t.find? q := by
  by_cases h : q = p
  · rw [h, if_pos rfl, find?, if_neg hp, put, List.lookup_cons_self]
  · rw [if_neg h, find?, find?, put, List.lookup_cons, beq_eq_false_iff_ne.mpr h,
      lookup_filter_ne _ _ _ h]

end FileTree

end WhileLang
