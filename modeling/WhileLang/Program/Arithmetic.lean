import WhileLang.Program.Basic

/-!
# Arithmetic of Machine Integers

What the operators mean. Sums, differences and products wrap around at 32
bits. A quotient is truncated toward zero, and the one quotient that does not
fit wraps around as well; there is none if the divisor is zero.

## Main definitions

* `ArithOp.result?`: The result of an operation.
* `CompareOp.holds`: The outcome of a comparison.

## Theorems

* `ArithOp.result?_eq_none_iff`: Only a division by zero has no result.
-/

namespace WhileLang

/-- The result of an operation; a division by zero has none. -/
def ArithOp.result? : ArithOp → Int32 → Int32 → Option Int32
  | .add, x, y => some (x + y)
  | .sub, x, y => some (x - y)
  | .mul, x, y => some (x * y)
  | .div, x, y => if y = 0 then none else some (x / y)

/-- Only a division by zero has no result. -/
theorem ArithOp.result?_eq_none_iff {o : ArithOp} {x y : Int32} :
    o.result? x y = none ↔ o = .div ∧ y = 0 := by
  cases o <;> simp [result?]

/-- The outcome of a comparison. -/
def CompareOp.holds : CompareOp → Int32 → Int32 → Bool
  | .equal, x, y => x == y
  | .notEqual, x, y => x != y
  | .less, x, y => x < y
  | .greater, x, y => y < x

end WhileLang
