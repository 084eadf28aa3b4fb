import WhileLang.Text.Escape

/-!
# Match Values

How a pattern matched a text: which side of each choice was taken, how many
rounds each repetition went, and which characters each part took. The value
follows the shape of the pattern, so the matched text can be read off it from
left to right, and so can the text of every named part.

## Main definitions

* `Value`: The match values.
* `Value.size`: The number of nodes.
* `Value.display`: A value as text.

## Theorems

* `Value.sizeAll_append`: The nodes of two lists of values together.
-/

namespace WhileLang

/-- How a pattern matched a text. -/
inductive Value where
  | void
  | char (c : Char)
  | seq (v w : Value)
  | left (v : Value)
  | right (v : Value)
  | stars (vs : List Value)
  | tagged (name : String) (v : Value)
deriving Repr, BEq, Inhabited

namespace Value

mutual

/-- The number of nodes of a value. -/
def size : Value → Nat
  | .void | .char _ => 1
  | .seq v w => 1 + v.size + w.size
  | .left v | .right v | .tagged _ v => 1 + v.size
  | .stars vs => 1 + sizeAll vs

/-- The number of nodes of several values. -/
def sizeAll : List Value → Nat
  | [] => 0
  | v :: vs => v.size + sizeAll vs

end

/-- The nodes of two lists of values together. -/
theorem sizeAll_append (vs ws : List Value) :
    sizeAll (vs ++ ws) = sizeAll vs + sizeAll ws := by
  induction vs with
  | nil => rw [List.nil_append, sizeAll, Nat.zero_add]
  | cons v vs ih => rw [List.cons_append, sizeAll, ih, sizeAll, Nat.add_assoc]

mutual

/-- A value as text. -/
def display : Value → String
  | .void => "void"
  | .char c => Text.quoteChar c
  | .seq v w => "seq(" ++ v.display ++ ", " ++ w.display ++ ")"
  | .left v => "left(" ++ v.display ++ ")"
  | .right v => "right(" ++ v.display ++ ")"
  | .stars vs => "stars[" ++ String.intercalate ", " (displayAll vs) ++ "]"
  | .tagged name v => name ++ ":" ++ v.display

/-- The texts of several values. -/
def displayAll : List Value → List String
  | [] => []
  | v :: vs => v.display :: displayAll vs

end

end Value

end WhileLang
