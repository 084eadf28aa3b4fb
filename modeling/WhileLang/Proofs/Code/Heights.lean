import WhileLang.Proofs.Code.Shapes

/-!
# Stack Heights of Code

How high the stack gets, told from the program. An operand that has been
computed stays on the stack while the one to its right is computed, so an
expression needs more room the deeper it nests to the right, and there is no
bound to that. Statements begin and end with the empty stack and need as much
as the deepest of their expressions.

The same number can be read off the code: it is the length of the longest of
the shapes that `Code.shapeAt` counts out. `Code.peak` is this maximum, and
for pieces of code that follow each other it is the larger one of theirs.

## Main definitions

* `Arith.stackNeed`, `Cond.stackNeed`, `Stmt.stackNeed`, `Stmt.stackNeedAll`:
  The height that a program needs.
* `Code.peak`: The greatest height in the code.

## Theorems

* `Code.length_shapeAt_le_peak`, `Code.exists_length_shapeAt_eq_peak`: The peak
  is the greatest height at a place of the code.
* `Code.peak_append`: Pieces one after the other.
* `Arith.peak_compile`, `Cond.peak_compile`: The peak in the code of expressions
  and conditions.
* `Emits.peak`: Emitted code gets as high as its block needs.
-/

namespace WhileLang

/-- How many cells the evaluation of an expression has on the stack at most. -/
def Arith.stackNeed : Arith → Nat
  | .num _ | .var _ => 1
  -- The left operand is there while the right one is computed.
  | .op _ l r => max l.stackNeed (r.stackNeed + 1)

/-- How many cells the test of a condition has on the stack at most. -/
def Cond.stackNeed : Cond → Nat
  | .const _ => 0
  | .compare _ l r => max l.stackNeed (r.stackNeed + 1)

mutual

/-- How many cells a statement has on the stack at most. -/
def Stmt.stackNeed : Stmt → Nat
  | .skip => 0
  | .assign _ a => a.stackNeed
  | .ifElse c t e => max c.stackNeed (max (Stmt.stackNeedAll t) (Stmt.stackNeedAll e))
  | .whileDo c body => max c.stackNeed (Stmt.stackNeedAll body)
  -- The variable is on the stack while the bound is computed.
  | .forTo _ a b body => max a.stackNeed (max (b.stackNeed + 1) (Stmt.stackNeedAll body))
  | .read _ | .print _ => 1
  | .write a => a.stackNeed

/-- How many cells statements one after the other have on the stack at most. -/
def Stmt.stackNeedAll : Block → Nat
  | [] => 0
  | s :: rest => max (Stmt.stackNeed s) (Stmt.stackNeedAll rest)

end

theorem Arith.one_le_stackNeed (a : Arith) : 1 ≤ a.stackNeed := by
  cases a with
  | num n => exact Nat.le_refl 1
  | var x => exact Nat.le_refl 1
  | op o l r =>
      unfold stackNeed
      omega

namespace Stmt

theorem stackNeedAll_singleton (s : Stmt) : stackNeedAll [s] = s.stackNeed := by
  rw [stackNeedAll, stackNeedAll, Nat.max_zero]

theorem stackNeedAll_append (b b' : Block) :
    stackNeedAll (b ++ b') = max (stackNeedAll b) (stackNeedAll b') := by
  induction b with
  | nil => rw [List.nil_append, stackNeedAll, Nat.zero_max]
  | cons s b ih => rw [List.cons_append, stackNeedAll, stackNeedAll, ih, Nat.max_assoc]

/-- A counting loop needs what its assignment and its loop need. -/
theorem stackNeedAll_counting (x : String) (a b : Arith) (body : Block) :
    stackNeedAll (counting x a b body) = stackNeed (.forTo x a b body) := by
  have hb : 1 ≤ b.stackNeed := b.one_le_stackNeed
  simp only [counting, stackNeedAll, stackNeed, stackNeedAll_append, Cond.stackNeed,
    Arith.stackNeed]
  omega

end Stmt

namespace Code

/-- The greatest height of the stack in the code, if the first instruction finds the given shape. -/
def peak (shape : List CellKind) : List Instr → Nat
  | [] => shape.length
  | i :: code => max shape.length (peak (i.leaves ++ shape.drop i.takes.length) code)

variable {shape shape₁ : List CellKind} {code code' : List Instr}

theorem length_le_peak (shape : List CellKind) (code : List Instr) :
    shape.length ≤ peak shape code := by
  cases code with
  | nil => exact Nat.le_refl _
  | cons i code => exact Nat.le_max_left _ _

/-- The stack is nowhere higher than the peak. -/
theorem length_shapeAt_le_peak (shape : List CellKind) (code : List Instr) (place : Nat) :
    (shapeAt shape code place).length ≤ peak shape code := by
  induction code generalizing shape place with
  | nil => exact Nat.le_refl _
  | cons i code ih =>
      cases place with
      | zero => exact length_le_peak shape (i :: code)
      | succ place => exact Nat.le_trans (ih _ place) (Nat.le_max_right _ _)

/-- Somewhere the stack is as high as the peak. -/
theorem exists_length_shapeAt_eq_peak (shape : List CellKind) (code : List Instr) :
    ∃ place ≤ code.length, (shapeAt shape code place).length = peak shape code := by
  induction code generalizing shape with
  | nil => exact ⟨0, Nat.le_refl 0, rfl⟩
  | cons i code ih =>
      rcases ih (i.leaves ++ shape.drop i.takes.length) with ⟨place, hplace, hpeak⟩
      by_cases hfirst : peak (i.leaves ++ shape.drop i.takes.length) code ≤ shape.length
      · exact ⟨0, Nat.zero_le _, (Nat.max_eq_left hfirst).symm⟩
      · have hlater : shape.length ≤ peak (i.leaves ++ shape.drop i.takes.length) code := by omega
        refine ⟨place + 1, Nat.succ_le_succ hplace, ?_⟩
        rw [peak, Nat.max_eq_right hlater]
        exact hpeak

/-- Of pieces one after the other the higher one counts. -/
theorem peak_append (h : Shaped shape code shape₁) :
    peak shape (code ++ code') = max (peak shape code) (peak shape₁ code') := by
  induction code generalizing shape with
  | nil =>
      have hle : shape.length ≤ peak shape code' := length_le_peak shape code'
      rw [← show shape = shape₁ from h, List.nil_append, peak, Nat.max_eq_right hle]
  | cons i code ih =>
      rcases h with ⟨rest, rfl, -, hcode⟩
      have hnext := ih hcode
      rw [List.cons_append, peak, peak, List.drop_left, hnext, Nat.max_assoc]

end Code

open Code

variable {ctx ctx' : Context} {code : List Instr}

/-- Code of an expression gets as high above the stack that it finds as the expression needs. -/
theorem Arith.peak_compile {a : Arith} (h : a.compile ctx = .ok code) (shape : List CellKind) :
    peak shape code = shape.length + a.stackNeed := by
  induction a generalizing code shape with
  | num n =>
      rw [← compile_num_eq_ok.mp h]
      simp [peak, Instr.leaves, Instr.takes, stackNeed]
  | var x =>
      rcases compile_var_eq_ok.mp h with ⟨slot, -, rfl⟩
      simp [peak, Instr.leaves, Instr.takes, stackNeed]
  | op o l r ihl ihr =>
      rcases compile_op_eq_ok.mp h with ⟨left, right, hl, hr, rfl⟩
      have hshapel := Arith.shaped_compile hl shape
      have hshaper := Arith.shaped_compile hr (.int :: shape)
      have hlast : peak (.int :: .int :: shape) [.arith o] = shape.length + 2 := by
        simp [peak, Instr.leaves, Instr.takes]
      have hr1 : 1 ≤ r.stackNeed := r.one_le_stackNeed
      rw [peak_append (shaped_append hshapel hshaper), peak_append hshapel, ihl hl, ihr hr, hlast,
        List.length_cons, stackNeed]
      omega

/-- Code of a condition gets as high as the condition needs. -/
theorem Cond.peak_compile {c : Cond} {skip : Label} (h : c.compile ctx skip = .ok code) :
    peak [] code = c.stackNeed := by
  cases c with
  | const value =>
      cases value with
      | true =>
          rw [← Except.ok.inj h]
          rfl
      | false =>
          rw [← Except.ok.inj h]
          rfl
  | compare o l r =>
      rcases compile_compare_eq_ok.mp h with ⟨left, right, hl, hr, rfl⟩
      have hshapel := Arith.shaped_compile hl []
      have hshaper := Arith.shaped_compile hr [.int]
      have hlast : peak [.int, .int] [.branch o.inverted skip] = 2 := rfl
      have hr1 : 1 ≤ r.stackNeed := r.one_le_stackNeed
      rw [peak_append (shaped_append hshapel hshaper), peak_append hshapel, Arith.peak_compile hl,
        Arith.peak_compile hr, hlast, stackNeed]
      simp only [List.length_nil, List.length_singleton]
      omega

/-- Emitted code gets as high as its block needs. -/
theorem Emits.peak {b : Block} (h : Emits ctx b code ctx') :
    Code.peak [] code = Stmt.stackNeedAll b := by
  induction h with
  | nil => rfl
  | append hb _ ih ih' => rw [peak_append hb.shaped, ih, ih', Stmt.stackNeedAll_append]
  | skip => rfl
  | @assign ctx a _ x hvalue =>
      have hlast : Code.peak [.int] [.store (ctx.bind x).1] = 1 := rfl
      have ha : 1 ≤ a.stackNeed := a.one_le_stackNeed
      rw [peak_append (Arith.shaped_compile hvalue []), Arith.peak_compile hvalue, hlast,
        Stmt.stackNeedAll_singleton, Stmt.stackNeed, List.length_nil]
      omega
  | @ifElse ctx _ _ _ _ _ _ _ _ htest hthen helse iht ihe =>
      have hmiddle : Shaped [] [.goto ⟨.ifEnd, ctx.labels + 2⟩, .label ⟨.ifElse, ctx.labels + 1⟩]
          [] := shaped_cons_of_hasLabel (i := .goto _) (shaped_cons_of_hasLabel (i := .label _) rfl)
      have hfront := shaped_append (Cond.shaped_compile htest) hthen.shaped
      have hfirst := shaped_append hfront hmiddle
      -- The labels and the jump over the second block add nothing.
      have hjump : Code.peak [] [.goto ⟨.ifEnd, ctx.labels + 2⟩,
          .label ⟨.ifElse, ctx.labels + 1⟩] = 0 := rfl
      have hend : Code.peak [] [.label ⟨.ifEnd, ctx.labels + 2⟩] = 0 := rfl
      rw [peak_append (shaped_append hfirst helse.shaped), peak_append hfirst, peak_append hfront,
        peak_append (Cond.shaped_compile htest), Cond.peak_compile htest, iht, ihe, hjump, hend,
        Stmt.stackNeedAll_singleton, Stmt.stackNeed]
      omega
  | @whileDo ctx _ _ _ _ _ htest hbody ih =>
      have hbegin : Shaped [] [.label ⟨.loopBegin, ctx.labels + 1⟩] [] :=
        shaped_cons_of_hasLabel (i := .label _) rfl
      have hfront := shaped_append hbegin (Cond.shaped_compile htest)
      have hlabel : Code.peak [] [.label ⟨.loopBegin, ctx.labels + 1⟩] = 0 := rfl
      have hend : Code.peak [] [.goto ⟨.loopBegin, ctx.labels + 1⟩,
          .label ⟨.loopEnd, ctx.labels + 2⟩] = 0 := rfl
      rw [peak_append (shaped_append hfront hbody.shaped), peak_append hfront, peak_append hbegin,
        Cond.peak_compile htest, ih, hlabel, hend, Stmt.stackNeedAll_singleton, Stmt.stackNeed]
      omega
  | @forTo _ _ x a b body _ _ ih =>
      rw [ih, Stmt.stackNeedAll_counting, Stmt.stackNeedAll_singleton]
  | read ctx x => rfl
  | @write ctx a _ hvalue =>
      have hlast : Code.peak [.int] [.printInt] = 1 := rfl
      have ha : 1 ≤ a.stackNeed := a.one_le_stackNeed
      rw [peak_append (Arith.shaped_compile hvalue []), Arith.peak_compile hvalue, hlast,
        Stmt.stackNeedAll_singleton, Stmt.stackNeed, List.length_nil]
      omega
  | print ctx s => rfl

end WhileLang
