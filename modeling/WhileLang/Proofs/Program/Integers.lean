import Mathlib.Data.Int.ModEq
import WhileLang.Program.Exec
import WhileLang.Proofs.Code.Occurrences

/-!
# Expressions over the Integers

What an expression means if numbers have no bounds, and how the value that is
computed with 32 bits relates to it. A machine integer represents all the
integers that it is congruent to modulo 2^32, and of these it is the only one
in its own range. Sums, differences and products of machine integers
represent those of any integers that the operands represent, so it makes no
difference how often a value wraps around on the way: without divisions the
value of an expression represents its value over the integers.

A quotient is another matter. It depends on the numbers themselves and not on
their classes, so a division divides what its operands have become after they
wrapped around, and its divisor may be zero only because it did.

Where an expression fails, it fails at one of its parts. `inOrder` lists the
parts as they are evaluated, and `fault?` looks at one of them alone: an
unbound variable, or a division whose divisor comes out as zero. The failure
of an expression is the fault of the first part that has one.

## Main definitions

* `Represents`: A machine integer is congruent to an integer.
* `ArithOp.exact`, `Arith.exact`: Operations and expressions over the integers.
* `Arith.NoDivision`: An expression without divisions.
* `Arith.inOrder`: The parts of an expression, as they are evaluated.
* `Arith.fault?`: The failure of a part by itself.

## Theorems

* `Represents.eq_iff`: Only one integer of the range is represented.
* `ArithOp.represents_result?`: Operations of machine integers are exact up to
  congruence.
* `ArithOp.exact_represents`: Congruent operands have congruent results.
* `toInt_quotient`: The quotient of machine integers.
* `Arith.exists_represents`: Without divisions the value is exact up to congruence.
* `Arith.findSome?_fault?`: The failure of an expression is the first fault.
-/

namespace WhileLang

/-- The machine integer is the integer up to a multiple of 2^32. -/
def Represents (v : Int32) (n : Int) : Prop :=
  v.toInt ≡ n [ZMOD 4294967296]

/-- An operation on integers without bounds. A quotient is truncated toward zero. -/
def ArithOp.exact : ArithOp → Int → Int → Int
  | .add, m, n => m + n
  | .sub, m, n => m - n
  | .mul, m, n => m * n
  | .div, m, n => m.tdiv n

/-- The value of an expression over the integers without bounds. -/
def Arith.exact (value : String → Int) : Arith → Int
  | .num n => n.toInt
  | .var x => value x
  | .op o l r => o.exact (l.exact value) (r.exact value)

/-- There is no division in the expression. -/
def Arith.NoDivision : Arith → Prop
  | .num _ | .var _ => True
  | .op o l r => o ≠ .div ∧ l.NoDivision ∧ r.NoDivision

/-- The parts of an expression, itself included, in the order in which they are evaluated. -/
def Arith.inOrder : Arith → List Arith
  | .num n => [.num n]
  | .var x => [.var x]
  | .op o l r => l.inOrder ++ r.inOrder ++ [.op o l r]

/-- How a part of an expression fails if those before it do not. -/
def Arith.fault? (env : Env) : Arith → Option RunError
  | .var x =>
    match env.get? x with
    | some _ => none
    | none => some (.undefinedVariable x)
  | .op .div _ r =>
    match r.eval env with
    | .ok y => if y = 0 then some .divisionByZero else none
    | .error _ => none
  | .num _ | .op _ _ _ => none

section Represents

variable {v x y : Int32} {m n : Int}

theorem represents_toInt (v : Int32) : Represents v v.toInt :=
  Int.ModEq.refl v.toInt

/-- An integer is reduced to the one in the range that it is congruent to. -/
theorem represents_of_toInt_eq_bmod (h : v.toInt = n.bmod 4294967296) : Represents v n := by
  unfold Represents Int.ModEq
  rw [h]
  exact Int.bmod_emod

/-- Of the integers in the range of machine integers only one is congruent to what is
    represented, namely the machine integer itself. -/
theorem Represents.eq_iff (h : Represents v n) (m : Int) :
    m = v.toInt ↔ -2147483648 ≤ m ∧ m ≤ 2147483647 ∧ m ≡ n [ZMOD 4294967296] := by
  have hlow : -2147483648 ≤ v.toInt := v.le_toInt
  have hhigh : v.toInt < 2147483648 := v.toInt_lt
  constructor
  · rintro rfl
    exact ⟨hlow, by omega, h⟩
  · rintro ⟨hm, hm', hmod⟩
    -- Both are in the range, so their difference is less than 2^32 either way.
    have hsame : m % 4294967296 = v.toInt % 4294967296 := hmod.trans h.symm
    omega

/-- An operation on machine integers is the one on integers, up to congruence. -/
theorem ArithOp.represents_result? {o : ArithOp} (h : o.result? x y = some v) :
    Represents v (o.exact x.toInt y.toInt) := by
  apply represents_of_toInt_eq_bmod
  cases o with
  | add =>
      rw [← Option.some.inj h]
      exact Int32.toInt_add x y
  | sub =>
      rw [← Option.some.inj h]
      exact Int32.toInt_sub x y
  | mul =>
      rw [← Option.some.inj h]
      exact Int32.toInt_mul x y
  | div =>
      by_cases hy : y = 0
      · rw [ArithOp.result?_eq_none_iff.mpr ⟨rfl, hy⟩] at h
        cases h
      · have hsome : ArithOp.div.result? x y = some (x / y) := if_neg hy
        rw [← Option.some.inj (hsome.symm.trans h)]
        exact Int32.toInt_div x y

/-- Sums, differences and products do not tell congruent operands apart. -/
theorem ArithOp.exact_represents {o : ArithOp} (ho : o ≠ .div) (hx : Represents x m)
    (hy : Represents y n) : o.exact x.toInt y.toInt ≡ o.exact m n [ZMOD 4294967296] := by
  cases o with
  | add => exact Int.ModEq.add hx hy
  | sub => exact Int.ModEq.sub hx hy
  | mul => exact Int.ModEq.mul hx hy
  | div => exact absurd rfl ho

/-- The quotient of machine integers is truncated toward zero. The one quotient that has no place
    in their range comes out as the least of them. -/
theorem toInt_quotient (x y : Int32) :
    (x / y).toInt =
      if x.toInt = -2147483648 ∧ y.toInt = -1 then -2147483648 else x.toInt.tdiv y.toInt := by
  by_cases hx : x = Int32.minValue
  · by_cases hy : y = -1
    · rw [hx, hy]
      rfl
    · have hne : ¬(x.toInt = -2147483648 ∧ y.toInt = -1) :=
        fun h => hy (Int32.toInt_inj.mp h.2)
      rw [if_neg hne]
      exact Int32.toInt_div_of_ne_right x y hy
  · have hne : ¬(x.toInt = -2147483648 ∧ y.toInt = -1) :=
      fun h => hx (Int32.toInt_inj.mp h.1)
    rw [if_neg hne]
    exact Int32.toInt_div_of_ne_left x y hx

end Represents

namespace Arith

variable {env : Env} {a l r : Arith} {o : ArithOp} {x y : Int32}

/-- An operation whose operands have values. -/
theorem eval_op_of_ok (hl : l.eval env = .ok x) (hr : r.eval env = .ok y) :
    (Arith.op o l r).eval env =
      match o.result? x y with
      | some v => .ok v
      | none => .error .divisionByZero := by
  rw [eval, hl, hr]
  rfl

/-- Only an operation with operands that have values has one. -/
theorem exists_of_eval_op (h : (Arith.op o l r).eval env = .ok v) :
    ∃ x y, l.eval env = .ok x ∧ r.eval env = .ok y := by
  rw [Arith.eval] at h
  cases hl : l.eval env with
  | error e =>
      rw [hl] at h
      cases h
  | ok x =>
      cases hr : r.eval env with
      | error e =>
          rw [hl, hr] at h
          cases h
      | ok y => exact ⟨x, y, rfl, rfl⟩

/-- A division whose operands have values fails if the divisor is zero, and has their quotient as
    its value if it is not. -/
theorem eval_div_of_ok (hl : l.eval env = .ok x) (hr : r.eval env = .ok y) :
    (Arith.op .div l r).eval env = if y = 0 then .error .divisionByZero else .ok (x / y) := by
  rw [eval_op_of_ok hl hr]
  by_cases hy : y = 0
  · rw [ArithOp.result?_eq_none_iff.mpr ⟨rfl, hy⟩, if_pos hy]
  · have hsome : ArithOp.div.result? x y = some (x / y) := if_neg hy
    rw [hsome, if_neg hy]

/-- An expression without divisions, all of whose variables are bound, has a value, and it
    represents the value over the integers. -/
theorem exists_represents {value : String → Int32} (ha : a.NoDivision)
    (hvars : ∀ x, Occurrence.use x ∈ a.occurrences → env.get? x = some (value x)) :
    ∃ v, a.eval env = .ok v ∧ Represents v (a.exact fun x => (value x).toInt) := by
  induction a with
  | num n => exact ⟨n, rfl, represents_toInt n⟩
  | var x =>
      have hx : env.get? x = some (value x) := hvars x List.mem_cons_self
      have heval : (Arith.var x).eval env = .ok (value x) := by
        rw [eval, Env.load, hx]
      exact ⟨value x, heval, represents_toInt (value x)⟩
  | op o l r ihl ihr =>
      rcases ha with ⟨ho, hdivl, hdivr⟩
      rcases ihl hdivl fun x hx => hvars x (List.mem_append_left _ hx) with ⟨x, hl, hxl⟩
      rcases ihr hdivr fun x hx => hvars x (List.mem_append_right _ hx) with ⟨y, hr, hyr⟩
      have heval := eval_op_of_ok (o := o) hl hr
      cases hresult : o.result? x y with
      | none => exact absurd (ArithOp.result?_eq_none_iff.mp hresult).1 ho
      | some v =>
          rw [hresult] at heval
          refine ⟨v, heval, ?_⟩
          -- The operands have wrapped around before, the result does once more.
          exact (ArithOp.represents_result? hresult).trans (ArithOp.exact_represents ho hxl hyr)

/-- An operation whose right operand has a value is at fault if it has no result. -/
theorem fault?_op_of_ok (x : Int32) (hr : r.eval env = .ok y) :
    (Arith.op o l r).fault? env =
      match o.result? x y with
      | some _ => none
      | none => some .divisionByZero := by
  cases o with
  | add | sub | mul => rfl
  | div =>
      rw [fault?, hr]
      by_cases hy : y = 0
      · rw [ArithOp.result?_eq_none_iff.mpr ⟨rfl, hy⟩]
        exact if_pos hy
      · have hsome : ArithOp.div.result? x y = some (x / y) := if_neg hy
        rw [hsome]
        exact if_neg hy

/-- The failure of an expression is the fault of the first part that has one, in the order in
    which the parts are evaluated. -/
theorem findSome?_fault? (a : Arith) (env : Env) :
    a.inOrder.findSome? (fault? env) =
      match a.eval env with
      | .ok _ => none
      | .error e => some e := by
  induction a with
  | num n => rfl
  | var x =>
      rw [inOrder, List.findSome?_singleton, fault?, eval, Env.load]
      cases env.get? x <;> rfl
  | op o l r ihl ihr =>
      rw [inOrder, List.findSome?_append, List.findSome?_append, List.findSome?_singleton, ihl, ihr]
      cases hl : l.eval env with
      | error e =>
          rw [eval, hl]
          rfl
      | ok x =>
          cases hr : r.eval env with
          | error e =>
              rw [eval, hl, hr]
              rfl
          | ok y =>
              -- Both operands have values, so only the operation itself is left to fail.
              rw [fault?_op_of_ok x hr, eval_op_of_ok hl hr]
              cases o.result? x y <;> rfl

end Arith

end WhileLang
