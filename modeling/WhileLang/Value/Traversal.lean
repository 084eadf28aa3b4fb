import WhileLang.Value.Basic

/-!
# Walking Over Values

The text of a value and the texts of its named parts. A value can be nested
as deeply as the text it matched is long, so the walk does not descend into
it: the values that are still to be visited wait in a list, and a value with
parts gives way to its parts. The walk ends because each step leaves fewer
nodes.

What the walk collects from a list of values is what it collects from each of
them, one after the other. This gives both functions one equation for each
kind of value, and the walk need not be looked at again.

## Main definitions

* `Value.flatten`: The matched text.
* `Value.named`: The named parts with their texts.

## Theorems

* `Value.flattenAll_eq`: The text of several values is their texts in order.
* `Value.namedAll_eq`: The named parts of several values are theirs in order.
-/

namespace WhileLang

namespace Value

/-- The text of the waiting values, one after the other. -/
@[simp] def flattenAll : List Value → List Char
  | [] => []
  | .void :: rest => flattenAll rest
  | .char c :: rest => c :: flattenAll rest
  | .seq v w :: rest => flattenAll (v :: w :: rest)
  | .left v :: rest | .right v :: rest | .tagged _ v :: rest => flattenAll (v :: rest)
  | .stars vs :: rest => flattenAll (vs ++ rest)
termination_by waiting => sizeAll waiting
decreasing_by all_goals simp only [sizeAll, sizeAll_append, size]; omega

/-- The matched text. -/
def flatten (v : Value) : List Char :=
  flattenAll [v]

/-- The named parts of the waiting values, one after the other. -/
@[simp] def namedAll : List Value → List (String × List Char)
  | [] => []
  | .void :: rest | .char _ :: rest => namedAll rest
  | .seq v w :: rest => namedAll (v :: w :: rest)
  | .left v :: rest | .right v :: rest => namedAll (v :: rest)
  -- The name comes before the names inside it, which are visited next.
  | .tagged name v :: rest => (name, v.flatten) :: namedAll (v :: rest)
  | .stars vs :: rest => namedAll (vs ++ rest)
termination_by waiting => sizeAll waiting
decreasing_by all_goals simp only [sizeAll, sizeAll_append, size]; omega

/-- The named parts with the texts they matched: a name before those inside it, and otherwise
    from left to right. -/
def named (v : Value) : List (String × List Char) :=
  namedAll [v]

/-- Values that wait behind others are visited after them. -/
theorem flattenAll_append (vs ws : List Value) :
    flattenAll (vs ++ ws) = flattenAll vs ++ flattenAll ws := by
  fun_induction flattenAll vs <;>
    simp_all only [List.nil_append, List.cons_append, List.append_assoc, flattenAll]

/-- Values that wait behind others are visited after them. -/
theorem namedAll_append (vs ws : List Value) :
    namedAll (vs ++ ws) = namedAll vs ++ namedAll ws := by
  fun_induction namedAll vs <;>
    simp_all only [List.nil_append, List.cons_append, List.append_assoc, namedAll]

/-- The text of several values is their texts in order. -/
theorem flattenAll_eq (vs : List Value) : flattenAll vs = vs.flatMap flatten := by
  induction vs with
  | nil => rw [flattenAll, List.flatMap_nil]
  | cons v vs ih => rw [← List.singleton_append, flattenAll_append, ih]; rfl

/-- The named parts of several values are theirs in order. -/
theorem namedAll_eq (vs : List Value) : namedAll vs = vs.flatMap named := by
  induction vs with
  | nil => rw [namedAll, List.flatMap_nil]
  | cons v vs ih => rw [← List.singleton_append, namedAll_append, ih]; rfl

@[simp] theorem flatten_void : flatten .void = [] := by simp only [flatten, flattenAll]

@[simp] theorem flatten_char (c : Char) : flatten (.char c) = [c] := by
  simp only [flatten, flattenAll]

@[simp] theorem flatten_seq (v w : Value) : flatten (.seq v w) = v.flatten ++ w.flatten := by
  rw [flatten, flattenAll, ← List.singleton_append, flattenAll_append]; rfl

@[simp] theorem flatten_left (v : Value) : flatten (.left v) = v.flatten := by
  rw [flatten, flattenAll]; rfl

@[simp] theorem flatten_right (v : Value) : flatten (.right v) = v.flatten := by
  rw [flatten, flattenAll]; rfl

@[simp] theorem flatten_stars (vs : List Value) : flatten (.stars vs) = vs.flatMap flatten := by
  rw [flatten, flattenAll, List.append_nil, flattenAll_eq]

@[simp] theorem flatten_tagged (name : String) (v : Value) :
    flatten (.tagged name v) = v.flatten := by
  rw [flatten, flattenAll]; rfl

@[simp] theorem named_void : named .void = [] := by simp only [named, namedAll]

@[simp] theorem named_char (c : Char) : named (.char c) = [] := by simp only [named, namedAll]

@[simp] theorem named_seq (v w : Value) : named (.seq v w) = v.named ++ w.named := by
  rw [named, namedAll, ← List.singleton_append, namedAll_append]; rfl

@[simp] theorem named_left (v : Value) : named (.left v) = v.named := by
  rw [named, namedAll]; rfl

@[simp] theorem named_right (v : Value) : named (.right v) = v.named := by
  rw [named, namedAll]; rfl

@[simp] theorem named_stars (vs : List Value) : named (.stars vs) = vs.flatMap named := by
  rw [named, namedAll, List.append_nil, namedAll_eq]

@[simp] theorem named_tagged (name : String) (v : Value) :
    named (.tagged name v) = (name, v.flatten) :: v.named := by
  rw [named, namedAll]; rfl

end Value

end WhileLang
