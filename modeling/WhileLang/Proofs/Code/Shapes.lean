import WhileLang.Machine.Basic
import WhileLang.Proofs.Code.Labels

/-!
# Stack Shapes of Code

What is on the stack at each place of the code, told from the code alone. The
shape of a stack lists the kinds of its cells. Every instruction takes cells
of certain kinds from the top and leaves others there, whatever their values,
so the shape before the first instruction settles the shape before each of
the others: `shapeAt` counts along the code.

This says something about a run only if the code is such that the counting
makes sense. `Shaped` asks for two things. Every instruction finds what it
takes, and a label or a jump has nothing on the stack besides; a jump then
arrives with the shape that its label has been given, the empty one, without
anything being said about where the label is.

Emitted code is shaped, from the empty stack to the empty stack. For an
expression this holds above any stack, because it has no labels, and then one
number more is on it.

## Main definitions

* `CellKind`, `Cell.kind`: The kinds of cells.
* `Instr.takes`, `Instr.leaves`: What an instruction does to a shape.
* `Code.shapeAt`: The shape before each instruction.
* `Code.Shaped`: Instructions find what they take, and labels nothing else.

## Theorems

* `Code.shaped_append`: Pieces one after the other.
* `Code.shapeAt_of_shaped`: What a place of shaped code looks like.
* `Code.shapeAt_length`: The shape at the end of shaped code.
* `Arith.shaped_compile`, `Cond.shaped_compile`: The code of expressions and
  conditions.
* `Emits.shaped`: Emitted code is shaped.
* `Emits.store_lt`: Emitted code stores only in slots that were handed out.
-/

namespace WhileLang

/-- The kinds of cells. -/
inductive CellKind where
  | int | text
deriving DecidableEq, Repr

/-- The kind of a cell. -/
def Cell.kind : Cell → CellKind
  | .int _ => .int
  | .text _ => .text

namespace Instr

/-- The kinds of the cells that the instruction takes from the stack, the top one in front. -/
def takes : Instr → List CellKind
  | .arith _ | .branch _ _ => [.int, .int]
  | .store _ | .printInt => [.int]
  | .printText => [.text]
  | .const _ | .text _ | .load _ | .goto _ | .label _ | .readInt => []

/-- The kinds of the cells that the instruction leaves on the stack. -/
def leaves : Instr → List CellKind
  | .const _ | .load _ | .arith _ | .readInt => [.int]
  | .text _ => [.text]
  | .store _ | .branch _ _ | .goto _ | .label _ | .printInt | .printText => []

/-- The instruction is a label or may jump to one. -/
def hasLabel (i : Instr) : Bool :=
  i.mark?.isSome || i.target?.isSome

end Instr

namespace Code

/-- The shape of the stack before each instruction of the code, if the first one finds the given
    shape. -/
def shapeAt (shape : List CellKind) : List Instr → Nat → List CellKind
  | i :: code, k + 1 => shapeAt (i.leaves ++ shape.drop i.takes.length) code k
  | _, _ => shape

/-- Each instruction finds what it takes, and labels and jumps find nothing else. The code leads
    from the first shape to the second one. -/
def Shaped : List CellKind → List Instr → List CellKind → Prop
  | shape, [], shape' => shape = shape'
  | shape, i :: code, shape' =>
    ∃ rest, shape = i.takes ++ rest ∧ (i.hasLabel = true → rest = []) ∧
      Shaped (i.leaves ++ rest) code shape'

variable {shape shape₁ shape' rest : List CellKind} {code code' : List Instr} {i : Instr}

theorem shaped_cons (hi : i.hasLabel = false) (h : Shaped (i.leaves ++ rest) code shape') :
    Shaped (i.takes ++ rest) (i :: code) shape' := by
  refine ⟨rest, rfl, ?_, h⟩
  intro hlabel
  rw [hi] at hlabel
  exact absurd hlabel Bool.false_ne_true

/-- A label or a jump has nothing below what it takes. -/
theorem shaped_cons_of_hasLabel (h : Shaped i.leaves code shape') :
    Shaped i.takes (i :: code) shape' := by
  refine ⟨[], (List.append_nil _).symm, fun _ => rfl, ?_⟩
  rw [List.append_nil]
  exact h

/-- Pieces one after the other. -/
theorem shaped_append (h : Shaped shape code shape₁) (h' : Shaped shape₁ code' shape') :
    Shaped shape (code ++ code') shape' := by
  induction code generalizing shape with
  | nil =>
      rw [show shape = shape₁ from h]
      exact h'
  | cons i code ih =>
      rcases h with ⟨rest, hshape, hlabel, hcode⟩
      exact ⟨rest, hshape, hlabel, ih hcode⟩

/-- What a place of shaped code looks like, before its instruction and behind it. -/
theorem shapeAt_of_shaped {k : Nat} (h : Shaped shape code shape') (hi : code[k]? = some i) :
    ∃ rest, shapeAt shape code k = i.takes ++ rest ∧ (i.hasLabel = true → rest = []) ∧
      shapeAt shape code (k + 1) = i.leaves ++ rest := by
  induction code generalizing shape k with
  | nil => cases hi
  | cons j code ih =>
      rcases h with ⟨rest, rfl, hlabel, hcode⟩
      -- What is counted off is what the instruction takes, so the rest of the stack is left.
      have hnext : ∀ k, shapeAt (j.takes ++ rest) (j :: code) (k + 1) =
          shapeAt (j.leaves ++ rest) code k := by
        intro k
        rw [shapeAt, List.drop_left]
      cases k with
      | zero =>
          obtain rfl : j = i := Option.some.inj hi
          refine ⟨rest, rfl, hlabel, ?_⟩
          rw [hnext]
          cases code <;> rfl
      | succ k =>
          rw [hnext, hnext]
          exact ih hcode hi

/-- The shape at the end of shaped code is the one that the code leads to. -/
theorem shapeAt_length (h : Shaped shape code shape') :
    shapeAt shape code code.length = shape' := by
  induction code generalizing shape with
  | nil => exact h
  | cons i code ih =>
      rcases h with ⟨rest, rfl, -, hcode⟩
      rw [List.length_cons, shapeAt, List.drop_left]
      exact ih hcode

end Code

open Code

variable {ctx ctx' : Context} {code : List Instr}

/-- Code of an expression leaves one number more on the stack, whatever is there. -/
theorem Arith.shaped_compile {a : Arith} (h : a.compile ctx = .ok code) (shape : List CellKind) :
    Shaped shape code (.int :: shape) := by
  induction a generalizing code shape with
  | num n =>
      rw [← compile_num_eq_ok.mp h]
      exact shaped_cons (i := .const n) rfl rfl
  | var x =>
      rcases compile_var_eq_ok.mp h with ⟨slot, -, rfl⟩
      exact shaped_cons (i := .load slot) rfl rfl
  | op o l r ihl ihr =>
      rcases compile_op_eq_ok.mp h with ⟨left, right, hl, hr, rfl⟩
      -- The right operand is computed above the left one, hence any stack in the induction.
      have hoperands : Shaped shape (left ++ right) (.int :: .int :: shape) :=
        shaped_append (ihl hl shape) (ihr hr (.int :: shape))
      exact shaped_append hoperands (shaped_cons (i := .arith o) rfl rfl)

/-- Code of a condition leaves the empty stack empty. -/
theorem Cond.shaped_compile {c : Cond} {skip : Label} (h : c.compile ctx skip = .ok code) :
    Shaped [] code [] := by
  cases c with
  | const value =>
      cases value with
      | true =>
          rw [← Except.ok.inj h]
          rfl
      | false =>
          rw [← Except.ok.inj h]
          exact shaped_cons_of_hasLabel (i := .goto skip) rfl
  | compare o l r =>
      rcases compile_compare_eq_ok.mp h with ⟨left, right, hl, hr, rfl⟩
      have hoperands : Shaped [] (left ++ right) [.int, .int] :=
        shaped_append (Arith.shaped_compile hl []) (Arith.shaped_compile hr [.int])
      exact shaped_append hoperands (shaped_cons_of_hasLabel (i := .branch o.inverted skip) rfl)

/-- Code of an expression stores nothing. -/
theorem Arith.store_not_mem_compile {a : Arith} {slot : Nat} (h : a.compile ctx = .ok code) :
    .store slot ∉ code := by
  induction a generalizing code with
  | num n =>
      rw [← compile_num_eq_ok.mp h, List.mem_singleton]
      exact nofun
  | var x =>
      rcases compile_var_eq_ok.mp h with ⟨slot, -, rfl⟩
      rw [List.mem_singleton]
      exact nofun
  | op o l r ihl ihr =>
      rcases compile_op_eq_ok.mp h with ⟨left, right, hl, hr, rfl⟩
      rw [List.mem_append, List.mem_append, List.mem_singleton]
      rintro ((hmem | hmem) | hmem)
      · exact ihl hl hmem
      · exact ihr hr hmem
      · cases hmem

/-- Code of a condition stores nothing. -/
theorem Cond.store_not_mem_compile {c : Cond} {skip : Label} {slot : Nat}
    (h : c.compile ctx skip = .ok code) : .store slot ∉ code := by
  cases c with
  | const value =>
      cases value with
      | true =>
          rw [← Except.ok.inj h]
          exact List.not_mem_nil
      | false =>
          rw [← Except.ok.inj h, List.mem_singleton]
          exact nofun
  | compare o l r =>
      rcases compile_compare_eq_ok.mp h with ⟨left, right, hl, hr, rfl⟩
      rw [List.mem_append, List.mem_append, List.mem_singleton]
      rintro ((hmem | hmem) | hmem)
      · exact Arith.store_not_mem_compile hl hmem
      · exact Arith.store_not_mem_compile hr hmem
      · cases hmem

namespace Emits

/-- Emitted code leaves the empty stack empty. -/
theorem shaped {b : Block} (h : Emits ctx b code ctx') : Shaped [] code [] := by
  induction h with
  | nil => rfl
  | append _ _ ih ih' => exact shaped_append ih ih'
  | skip => rfl
  | @assign ctx _ _ x hvalue =>
      exact shaped_append (Arith.shaped_compile hvalue [])
        (shaped_cons (i := .store (ctx.bind x).1) rfl rfl)
  | @ifElse ctx _ _ _ _ _ _ _ _ htest _ _ iht ihe =>
      -- Behind the jump over the second block, its label is reached with the same empty stack.
      have hmiddle : Shaped [] [.goto ⟨.ifEnd, ctx.labels + 2⟩, .label ⟨.ifElse, ctx.labels + 1⟩]
          [] := shaped_cons_of_hasLabel (i := .goto _) (shaped_cons_of_hasLabel (i := .label _) rfl)
      have hfirst := shaped_append (shaped_append (Cond.shaped_compile htest) iht) hmiddle
      exact shaped_append (shaped_append hfirst ihe) (shaped_cons_of_hasLabel (i := .label _) rfl)
  | @whileDo ctx _ _ _ _ _ htest _ ih =>
      have hbegin : Shaped [] [.label ⟨.loopBegin, ctx.labels + 1⟩] [] :=
        shaped_cons_of_hasLabel (i := .label _) rfl
      have hend : Shaped [] [.goto ⟨.loopBegin, ctx.labels + 1⟩, .label ⟨.loopEnd, ctx.labels + 2⟩]
          [] := shaped_cons_of_hasLabel (i := .goto _) (shaped_cons_of_hasLabel (i := .label _) rfl)
      exact shaped_append (shaped_append (shaped_append hbegin (Cond.shaped_compile htest)) ih) hend
  | forTo _ ih => exact ih
  | read ctx x =>
      exact shaped_cons (i := .readInt) rfl (shaped_cons (i := .store (ctx.bind x).1) rfl rfl)
  | write hvalue =>
      exact shaped_append (Arith.shaped_compile hvalue []) (shaped_cons (i := .printInt) rfl rfl)
  | print ctx s =>
      exact shaped_cons (i := .text s) rfl (shaped_cons (i := .printText) rfl rfl)

/-- Emitted code stores only in slots that were handed out. -/
theorem store_lt {b : Block} {slot : Nat} (h : Emits ctx b code ctx') (hmem : .store slot ∈ code) :
    slot < ctx'.names.length := by
  induction h with
  | nil | skip => exact absurd hmem List.not_mem_nil
  | append _ hb' ih ih' =>
      rcases List.mem_append.mp hmem with hmem | hmem
      -- What the first piece was given, the second one keeps.
      · exact Nat.lt_of_lt_of_le (ih hmem) hb'.grows.names.length_le
      · exact ih' hmem
  | @assign ctx _ _ x hvalue =>
      rcases List.mem_append.mp hmem with hmem | hmem
      · exact absurd hmem (Arith.store_not_mem_compile hvalue)
      · cases List.mem_singleton.mp hmem
        exact Context.lt_of_slot? (ctx.slot?_bind x)
  | @ifElse _ _ _ _ _ _ _ _ _ htest _ helse iht ihe =>
      simp only [List.mem_append, List.mem_cons, List.not_mem_nil, or_false, reduceCtorEq] at hmem
      rcases hmem with (hmem | hmem) | hmem
      · exact absurd hmem (Cond.store_not_mem_compile htest)
      · exact Nat.lt_of_lt_of_le (iht hmem) helse.grows.names.length_le
      · exact ihe hmem
  | @whileDo _ _ _ _ _ _ htest _ ih =>
      simp only [List.mem_append, List.mem_cons, List.not_mem_nil, or_false, false_or,
        reduceCtorEq] at hmem
      rcases hmem with hmem | hmem
      · exact absurd hmem (Cond.store_not_mem_compile htest)
      · exact ih hmem
  | forTo _ ih => exact ih hmem
  | read ctx x =>
      simp only [List.mem_cons, List.not_mem_nil, or_false, false_or, reduceCtorEq] at hmem
      cases hmem
      exact Context.lt_of_slot? (ctx.slot?_bind x)
  | write hvalue =>
      rcases List.mem_append.mp hmem with hmem | hmem
      · exact absurd hmem (Arith.store_not_mem_compile hvalue)
      · cases List.mem_singleton.mp hmem
  | print =>
      simp only [List.mem_cons, List.not_mem_nil, or_false, reduceCtorEq] at hmem

end Emits

end WhileLang
