import WhileLang.Text.Decimal

/-!
# Growing Lists

The values that a repetition has collected. They are kept with the latest in
front, so that a list grows at its end in constant time and two lists share
what they grew from.

## Main definitions

* `Items`: A list that grows at its end.
* `Items.push`: The list with one more value at its end.
* `Items.toList`: The values in order.
* `Items.display`: A list of integers as text.

## Theorems

* `Items.toList_push`: The new value comes last.
* `Items.length_push`: The list has one value more.
-/

namespace WhileLang

/-- A list that grows at its end. -/
structure Items (α : Type) where
  latestFirst : List α
deriving DecidableEq

namespace Items

variable {α : Type}

/-- The list without values. -/
def empty : Items α := ⟨[]⟩

instance : Inhabited (Items α) := ⟨empty⟩

/-- The list with one more value at its end. -/
def push (xs : Items α) (x : α) : Items α :=
  ⟨x :: xs.latestFirst⟩

/-- The values in order. -/
def toList (xs : Items α) : List α :=
  xs.latestFirst.reverse

/-- The number of values. -/
def length (xs : Items α) : Nat :=
  xs.latestFirst.length

/-- There are no values. -/
def isEmpty (xs : Items α) : Bool :=
  xs.latestFirst.isEmpty

/-- A list of integers as text, in square brackets. -/
def display (xs : Items Int) : String :=
  "[" ++ String.intercalate ", " (xs.toList.map Decimal.text) ++ "]"

@[simp] theorem toList_empty : (empty : Items α).toList = [] := rfl

@[simp] theorem toList_push (xs : Items α) (x : α) : (xs.push x).toList = xs.toList ++ [x] :=
  List.reverse_cons

@[simp] theorem length_push (xs : Items α) (x : α) : (xs.push x).length = xs.length + 1 :=
  List.length_cons

@[simp] theorem length_toList (xs : Items α) : xs.toList.length = xs.length :=
  List.length_reverse

/-- Lists with the same values are equal. -/
theorem toList_inj {xs ys : Items α} : xs.toList = ys.toList ↔ xs = ys := by
  refine ⟨fun h => ?_, fun h => h ▸ rfl⟩
  obtain ⟨xs⟩ := xs
  obtain ⟨ys⟩ := ys
  exact congrArg Items.mk (List.reverse_inj.mp h)

end Items

end WhileLang
