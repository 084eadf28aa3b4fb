/-!
# File Paths

Paths as they are written: names separated by slashes. An empty segment or a
single dot names nothing by itself, so `a//b/.` is the path of `b` in `a`;
only a dot or a slash at the very beginning counts, as the directory where
the path starts. Two dots lead to the directory above and are no name either.

Cutting a path keeps the part in front as it was written.

## Main definitions

* `Path`: Where a path starts and its segments.
* `Path.ofText`, `Path.text`: Between paths and texts.
* `Path.name?`: The last name of a path.
* `Path.stem?`: The last name without its extension.
* `Path.parent?`: The path of the directory that holds it.
* `Path.join`: The path of a name in a directory.

## Theorems

* `Path.text_ofText`: A path is written as it was read.
* `Path.depth_parent?_lt`: Cutting a path ends.
-/

namespace WhileLang

/-- Where a path starts. -/
inductive PathStart where
  /-- At the root: the text begins with a slash. -/
  | root
  /-- At the current directory, by a dot. -/
  | dot
  | name
deriving DecidableEq, Repr

/-- A path as it is written. -/
structure Path where
  start : PathStart
  /-- What stands between the slashes behind the start. -/
  segments : List (List Char)
deriving DecidableEq, Repr

namespace Path

/-- The pieces of a text between its slashes. -/
def split : List Char → List (List Char)
  | [] => [[]]
  | c :: cs =>
    if c = '/' then [] :: split cs
    else
      match split cs with
      | [] => [[c]]
      | s :: ss => (c :: s) :: ss

/-- Pieces with slashes between them. -/
def unsplit : List (List Char) → List Char
  | [] => []
  | [s] => s
  | s :: ss => s ++ '/' :: unsplit ss

/-- The path of a text. -/
def ofText : List Char → Path
  | '/' :: cs => ⟨.root, split cs⟩
  | ['.'] => ⟨.dot, []⟩
  | '.' :: '/' :: cs => ⟨.dot, split cs⟩
  | cs => ⟨.name, split cs⟩

/-- The text of a path. -/
def text : Path → List Char
  | ⟨.root, ss⟩ => '/' :: unsplit ss
  | ⟨.dot, []⟩ => ['.']
  | ⟨.dot, ss⟩ => '.' :: '/' :: unsplit ss
  | ⟨.name, ss⟩ => unsplit ss

/-- A segment that names nothing by itself. -/
def isFiller (s : List Char) : Bool :=
  s = [] || s = ['.']

/-- The last segment that is no filler, and the segments before it up to the last that is none
    either. -/
def cutLast (ss : List (List Char)) : Option (List Char × List (List Char)) :=
  match ss.reverse.dropWhile isFiller with
  | [] => none
  | s :: rest => some (s, (rest.dropWhile isFiller).reverse)

/-- The last name of a path. -/
def name? (p : Path) : Option (List Char) :=
  match cutLast p.segments with
  | some (s, _) => if s = ['.', '.'] then none else some s
  | none => none

/-- A name without its extension, which is what stands behind the last dot unless that dot is the
    first character. -/
def stemOf (name : List Char) : List Char :=
  match (name.reverse.dropWhile (· ≠ '.')).drop 1 with
  -- There is no dot, or nothing in front of it.
  | [] => name
  | c :: cs => (c :: cs).reverse

/-- The last name of a path without its extension. -/
def stem? (p : Path) : Option (List Char) :=
  p.name?.map stemOf

/-- The path of the directory that holds what the path leads to. -/
def parent? (p : Path) : Option Path :=
  match cutLast p.segments, p.start with
  | some (_, rest), start => some ⟨start, rest⟩
  | none, .dot => some ⟨.name, []⟩
  | none, _ => none

/-- How often a path can be cut. -/
def depth (p : Path) : Nat :=
  p.segments.length + if p.start = .dot then 1 else 0

/-- The text of the path of a name in a directory. -/
def join (dir name : List Char) : List Char :=
  match dir.getLast? with
  | none => name
  | some c => if c = '/' then dir ++ name else dir ++ '/' :: name

theorem split_ne_nil (cs : List Char) : split cs ≠ [] := by
  cases cs with
  | nil => exact List.cons_ne_nil _ _
  | cons c cs =>
    rw [split]
    split
    · exact List.cons_ne_nil _ _
    · split <;> exact List.cons_ne_nil _ _

/-- Putting the pieces of a text together gives the text. -/
theorem unsplit_split (cs : List Char) : unsplit (split cs) = cs := by
  induction cs with
  | nil => rfl
  | cons c cs ih =>
    obtain ⟨s, ss, h⟩ := List.exists_cons_of_ne_nil (split_ne_nil cs)
    rw [h] at ih
    rw [split, h]
    split
    · next hc => rw [hc, ← ih]; rfl
    -- The character joins the first piece, whether or not others follow it.
    · cases ss with
      | nil => rw [← ih]; rfl
      | cons t ts => rw [← ih]; rfl

/-- A path is written as it was read. -/
theorem text_ofText (cs : List Char) : (ofText cs).text = cs := by
  fun_cases ofText cs with
  | case1 cs => rw [text, unsplit_split]
  | case2 => rfl
  | case3 cs =>
    obtain ⟨s, ss, h⟩ := List.exists_cons_of_ne_nil (split_ne_nil cs)
    rw [h, text, ← h, unsplit_split]
    exact fun hn => absurd hn (List.cons_ne_nil _ _)
  | case4 cs => rw [text, unsplit_split]

theorem length_cutLast_lt {ss rest : List (List Char)} {s : List Char}
    (h : cutLast ss = some (s, rest)) : rest.length < ss.length := by
  rw [cutLast] at h
  split at h
  · exact absurd h (by simp)
  · next t ts heq =>
    have hrest : (ts.dropWhile isFiller).reverse = rest := congrArg (·.2) (Option.some.inj h)
    have hts := (List.dropWhile_sublist isFiller (l := ts)).length_le
    have hss := (List.dropWhile_sublist isFiller (l := ss.reverse)).length_le
    rw [heq, List.length_cons, List.length_reverse] at hss
    rw [← hrest, List.length_reverse]
    omega

/-- Cutting a path ends. -/
theorem depth_parent?_lt {p q : Path} (h : p.parent? = some q) : q.depth < p.depth := by
  rw [parent?] at h
  split at h
  · next s rest start hcut =>
    have hlt := length_cutLast_lt hcut
    rw [← Option.some.inj h, depth, depth]
    exact Nat.add_lt_add_right hlt _
  · next hcut hstart =>
    rw [← Option.some.inj h, depth, depth, hstart, if_pos rfl, if_neg (by decide)]
    exact Nat.zero_lt_succ _
  · exact absurd h (by simp)

end Path

end WhileLang
