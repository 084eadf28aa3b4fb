import WhileLang.Files.Path

/-!
# Class Names

The name of the class that a source file is compiled to. It is the name of
the file without its extension, with an underscore for every character that
does not belong into a class name, and with one more in front if it would
begin with a digit or be empty.

## Main definitions

* `Assembly.classNameOf`: A name made valid.
* `Assembly.className`: The name for a path.

## Theorems

* `Assembly.isClassName_classNameOf`: The name is valid whatever it is made from.
-/

namespace WhileLang

namespace Assembly

/-- A character that a class name can begin with. -/
def isClassStart (c : Char) : Bool :=
  c.isAlpha || c = '_'

/-- A character that can stand in a class name. -/
def isClassChar (c : Char) : Bool :=
  c.isAlphanum || c = '_'

/-- A valid class name: not empty, of valid characters, and not with a digit in front. -/
def IsClassName (cs : List Char) : Prop :=
  (∃ c rest, cs = c :: rest ∧ isClassStart c) ∧ cs.all isClassChar

/-- A name made valid. -/
def classNameOf (name : List Char) : List Char :=
  let cs := name.map fun c => if isClassChar c then c else '_'
  match cs with
  | [] => ['_']
  | c :: rest => if isClassStart c then c :: rest else '_' :: c :: rest

/-- The class name for the source file of that path. -/
def className (path : Path) : List Char :=
  classNameOf (path.stem?.getD [])

/-- The name is valid whatever it is made from. -/
theorem isClassName_classNameOf (name : List Char) : IsClassName (classNameOf name) := by
  have hall : (name.map fun c => if isClassChar c then c else '_').all isClassChar := by
    rw [List.all_eq_true]
    intro d hd
    obtain ⟨c, -, rfl⟩ := List.mem_map.mp hd
    split
    · assumption
    · decide
  rw [classNameOf]
  -- What remains to be seen is the first character.
  cases h : name.map fun c => if isClassChar c then c else '_' with
  | nil => exact ⟨⟨'_', [], rfl, by decide⟩, by decide⟩
  | cons c rest =>
    rw [h] at hall
    dsimp only
    split
    · next hc => exact ⟨⟨c, rest, rfl, hc⟩, hall⟩
    · exact ⟨⟨'_', c :: rest, rfl, by decide⟩, by
        rw [List.all_cons, Bool.and_eq_true]
        exact ⟨by decide, hall⟩⟩

end Assembly

end WhileLang
