import WhileLang.Proofs.Assembly.ReadBack
import WhileLang.Proofs.Code.Counting
import WhileLang.Proofs.Code.Heights
import WhileLang.Proofs.Machine.Arithmetic
import WhileLang.Proofs.Machine.Shaped

/-!
# The Stack Limit of Assembly Texts

The main method of an assembly text says how high its stack may get. The
number is read off the text and set against the runs of the code: it is the
same for all programs, and the stack gets as high as the program needs. So
the limit is kept by programs whose expressions do not nest deeper to the
right than it allows, and by no others that come to the place where they need
most.

A program can need any height. An expression that nests to the right has
evaluated all of its left operands by the time it comes to the last one, and
they are all on the stack.

## Main definitions

* `Assembly.declaredStack?`: The stack limit of the main method of a text.
* `Arith.ones`: A sum that nests to the right.

## Theorems

* `Loaded.takes_stackNeed`: An expression that has a value gets as high as it
  needs on its way there.
* `Code.height_le_stackNeedAll`: No run gets higher than the program needs.
* `Assembly.declaredStack?_render`: The limit does not depend on the program.
* `Assembly.stackLimit_enough_iff`: Which programs keep the limit.
* `Assembly.stackLimit_exceeded`: A program that does not.
-/

namespace WhileLang

namespace Loaded

variable {code : Loaded} {ctx ctx₁ : Context} {start stop : Nat} {piece : List Instr} {a : Arith}
  {env : Env} {slots : Array (Option Int32)}

/-- An expression that has a value gets as high above the stack that it finds as it needs, on the
    way to its value. -/
theorem takes_stackNeed {v : Int32} (hv : a.eval env = .ok v) (ha : a.compile ctx₁ = .ok piece)
    (hgrows : ctx₁.Grows ctx) (hm : Mirrors ctx slots env) (hp : code.Placed start piece stop)
    (stack : List Cell) (io : Streams) :
    ∃ n m, code.Takes n ⟨start, stack, slots, io⟩ m ∧
      m.stack.length = stack.length + a.stackNeed := by
  induction a generalizing v piece start stop slots stack with
  | num k | var x =>
      rcases takes_of_eval hv ha hgrows hm hp stack io with ⟨n, slots', htakes, -⟩
      exact ⟨n, _, htakes, rfl⟩
  | op o l r ihl ihr =>
      rcases compile_op_eq_ok.mp ha with ⟨left, right, hl, hr, rfl⟩
      rcases placed_append.mp hp with ⟨behind, hoperands, -⟩
      rcases placed_append.mp hoperands with ⟨middle, hpl, hpr⟩
      rcases Arith.exists_of_eval_op hv with ⟨x, y, hx, hy⟩
      by_cases hdeeper : r.stackNeed + 1 ≤ l.stackNeed
      · -- The left operand is the one that counts.
        rcases ihl hx hl hm hpl stack with ⟨n, m, htakes, hheight⟩
        refine ⟨n, m, htakes, ?_⟩
        rw [hheight, Arith.stackNeed, Nat.max_eq_left hdeeper]
      · -- The value of the left operand is on the stack while the right one gets there.
        rcases takes_of_eval hx hl hgrows hm hpl stack io with ⟨n, slots', htakes, hm'⟩
        rcases ihr hy hr hm' hpr (.int x :: stack) with ⟨k, m, htakes', hheight⟩
        refine ⟨n + k, m, takes_trans htakes htakes', ?_⟩
        rw [hheight, Arith.stackNeed, List.length_cons]
        omega

end Loaded

namespace Code

variable {program : Block} {code : Code}

/-- No run gets higher than the program needs, and at one place of the code every run is as high
    as that. -/
theorem height_le_stackNeedAll (h : ofProgram program = .ok code) :
    ∃ loaded place, Loaded.ofCode code = .ok loaded ∧ place ≤ code.instrs.length ∧
      ∀ io n m, loaded.Takes n (loaded.start io) m →
        m.stack.length ≤ Stmt.stackNeedAll program ∧
        (m.ip = place → m.stack.length = Stmt.stackNeedAll program) := by
  rcases loaded_sound h with ⟨loaded, hloaded, hsound⟩
  rcases emits_ofProgram h with ⟨ctx, hemits, -⟩
  rcases exists_length_shapeAt_eq_peak [] code.instrs with ⟨place, hplace, hpeak⟩
  refine ⟨loaded, place, hloaded, hplace, fun io n m htakes => ?_⟩
  -- The height is that of the shape which belongs to the place.
  have hfits := Loaded.takes_fits hsound (Loaded.start_fits hsound io) htakes
  have hheight : m.stack.length = (shapeAt [] code.instrs m.ip).length := by
    rw [← hfits.shape, Machine.shape, List.length_map]
  rw [hheight, ← hemits.peak]
  refine ⟨length_shapeAt_le_peak [] code.instrs m.ip, fun hip => ?_⟩
  rw [hip, hpeak]

end Code

/-- A sum of ones with one more of them than the number says, all parentheses at its end. -/
def Arith.ones : Nat → Arith
  | 0 => .num 1
  | n + 1 => .op .add (.num 1) (ones n)

namespace Arith

/-- The ones pile up before the first two of them are added. -/
theorem stackNeed_ones (n : Nat) : (ones n).stackNeed = n + 1 := by
  induction n with
  | zero => rfl
  | succ n ih =>
      rw [ones, stackNeed, stackNeed, ih]
      omega

theorem exists_compile_ones (ctx : Context) (n : Nat) :
    ∃ piece, (ones n).compile ctx = .ok piece := by
  induction n with
  | zero => exact ⟨_, rfl⟩
  | succ n ih =>
      rcases ih with ⟨piece, hpiece⟩
      exact ⟨_, compile_op_eq_ok.mpr ⟨[.const 1], piece, rfl, hpiece, rfl⟩⟩

theorem exists_eval_ones (env : Env) (n : Nat) : ∃ v, (ones n).eval env = .ok v := by
  induction n with
  | zero => exact ⟨1, rfl⟩
  | succ n ih =>
      rcases ih with ⟨v, hv⟩
      refine ⟨1 + v, ?_⟩
      rw [ones, eval_op_of_ok (x := 1) rfl hv]
      rfl

end Arith

/-- There are programs that need any height, and their runs get there. -/
theorem Code.exists_takes_ones (n : Nat) (io : Streams) :
    ∃ code loaded k m, ofProgram [.write (.ones n)] = .ok code ∧ Loaded.ofCode code = .ok loaded ∧
      loaded.Takes k (loaded.start io) m ∧ m.stack.length = n + 1 := by
  rcases Arith.exists_compile_ones .empty n with ⟨piece, hpiece⟩
  rcases Arith.exists_eval_ones .empty n with ⟨v, hv⟩
  have hcompiled : ofProgram [.write (.ones n)] = .ok ⟨piece ++ [.printInt], 0⟩ := by
    rw [ofProgram, yields_of_emits (Emits.write hpiece)]
    rfl
  rcases loaded_sound hcompiled with ⟨loaded, hloaded, hsound⟩
  rcases Loaded.placed_append.mp (Loaded.placed_instrs hsound.instrs_eq).1 with ⟨stop, hp, -⟩
  have hm : Mirrors .empty (Array.replicate loaded.slots none) .empty := by
    rw [hsound.slots_eq]
    exact mirrors_start .empty
  rcases Loaded.takes_stackNeed hv hpiece (Context.grows_refl _) hm hp [] io with
    ⟨k, m, htakes, hheight⟩
  refine ⟨_, loaded, k, m, hcompiled, hloaded, htakes, ?_⟩
  rw [hheight, Arith.stackNeed_ones, List.length_nil, Nat.zero_add]

namespace Assembly

/-- The stack limit that a line declares. -/
def readLimit? (l : List Char) : Option Nat :=
  (l.dropPrefix? "    .limit stack ".toList).bind Decimal.readNat?

/-- The stack limit that the main method of a text declares, which is its last method. -/
def declaredStack? (text : String) : Option Nat :=
  ((linesOf text.toList).rtakeWhile (· ≠ mainLine)).findSome? readLimit?

variable {cls : String}

/-- No instruction can be mistaken for the line that opens the main method. -/
theorem textLine_ne_mainLine (hcls : IsClassName cls.toList) (i : Instr) :
    textLine cls i ≠ mainLine := by
  intro h
  have hread := readLine?_textLine hcls i
  rw [h] at hread
  cases hread

theorem localsLine_ne_mainLine (slots : Nat) : localsLine slots ≠ mainLine := by
  intro h
  rw [localsLine, String.toList_append] at h
  have hhead : some ' ' = some '.' := congrArg List.head? h
  exact absurd hhead (by decide)

theorem readLimit?_localsLine (slots : Nat) : readLimit? (localsLine slots) = none := by
  rw [readLimit?, localsLine, String.toList_append]
  rfl

/-- The main method declares the same stack limit for all programs. -/
theorem declaredStack?_render (hcls : IsClassName cls.toList) (code : Code) :
    declaredStack? (render cls code) = some stackLimit := by
  rcases linesOf_render hcls code with ⟨front, hlines⟩
  -- The line that opens the method occurs once, so looking for it from behind finds it.
  have htail : ∀ l ∈ localsLine code.slots :: opening :: (code.instrs.map (textLine cls)
      ++ ["    return".toList, ".end method".toList]), decide (l ≠ mainLine) = true := by
    intro l hl
    refine decide_eq_true ?_
    simp only [List.mem_cons, List.mem_append, List.mem_map, List.not_mem_nil, or_false] at hl
    rcases hl with rfl | rfl | ⟨i, -, rfl⟩ | rfl | rfl
    · exact localsLine_ne_mainLine code.slots
    · decide
    · exact textLine_ne_mainLine hcls i
    · decide
    · decide
  have hmain : (linesOf (render cls code).toList).rtakeWhile (· ≠ mainLine)
      = localsLine code.slots :: opening :: (code.instrs.map (textLine cls)
        ++ ["    return".toList, ".end method".toList]) := by
    rw [hlines, List.append_assoc]
    exact rtakeWhile_append_cons (by simp) htail front
  have hlimit : readLimit? opening = some stackLimit := by decide
  rw [declaredStack?, hmain, List.findSome?_cons, readLimit?_localsLine]
  dsimp only
  rw [List.findSome?_cons, hlimit]

/-- The main method declares a stack of 200 cells, whatever the program. No run of the code gets
    higher than the program needs, and at one place of the code every run is that high. So the
    limit is enough for a program that needs no more, and for none that needs more and comes to
    that place. -/
theorem stackLimit_enough_iff (program : Block) (code : Code)
    (h : Code.ofProgram program = .ok code) (hcls : IsClassName cls.toList) :
    declaredStack? (render cls code) = some 200 ∧
    ∃ loaded place, Loaded.ofCode code = .ok loaded ∧ place ≤ code.instrs.length ∧
      (∀ io n m, loaded.Takes n (loaded.start io) m →
        m.stack.length ≤ Stmt.stackNeedAll program ∧
        (m.ip = place → m.stack.length = Stmt.stackNeedAll program)) ∧
      (Stmt.stackNeedAll program ≤ 200 →
        ∀ io n m, loaded.Takes n (loaded.start io) m → m.stack.length ≤ 200) ∧
      ((∃ io n m, loaded.Takes n (loaded.start io) m ∧ m.ip = place) →
        ((∀ io n m, loaded.Takes n (loaded.start io) m → m.stack.length ≤ 200) ↔
          Stmt.stackNeedAll program ≤ 200)) := by
  rcases Code.height_le_stackNeedAll h with ⟨loaded, place, hloaded, hplace, hheight⟩
  have henough : Stmt.stackNeedAll program ≤ 200 →
      ∀ io n m, loaded.Takes n (loaded.start io) m → m.stack.length ≤ 200 :=
    fun hneed io n m htakes => Nat.le_trans (hheight io n m htakes).1 hneed
  refine ⟨declaredStack?_render hcls code, loaded, place, hloaded, hplace, hheight, henough, ?_⟩
  rintro ⟨io, n, m, htakes, hip⟩
  constructor
  · intro hall
    rw [← (hheight io n m htakes).2 hip]
    exact hall io n m htakes
  · exact henough

/-- A sum of three ones needs three cells, and 200 are declared for it. -/
theorem stackLimit_enough_iff_of_sum :
    IsClassName "Demo".toList ∧
    declaredStack? (render "Demo" ⟨[.const 1, .const 1, .const 1, .arith .add, .arith .add,
      .printInt], 0⟩) = some 200 ∧
    ∃ loaded, Loaded.ofCode ⟨[.const 1, .const 1, .const 1, .arith .add, .arith .add, .printInt], 0⟩
        = .ok loaded ∧
      ∀ io n m, loaded.Takes n (loaded.start io) m → m.stack.length ≤ 3 := by
  have hcls : IsClassName "Demo".toList := ⟨⟨'D', "emo".toList, rfl, by decide⟩, by decide⟩
  rcases stackLimit_enough_iff [.write (.ones 2)] _ rfl hcls with
    ⟨hlimit, loaded, place, hloaded, -, hheight, -⟩
  have hneed : Stmt.stackNeedAll [.write (.ones 2)] = 3 := rfl
  refine ⟨hcls, hlimit, loaded, hloaded, fun io n m htakes => ?_⟩
  rw [← hneed]
  exact (hheight io n m htakes).1

/-- A sum of 201 ones that nests to the right has them all on the stack before it adds any, but
    200 cells are declared for it like for any other program. -/
theorem stackLimit_exceeded :
    ∃ code loaded n m, Code.ofProgram [.write (.ones 200)] = .ok code ∧
      Loaded.ofCode code = .ok loaded ∧ IsClassName "Main".toList ∧
      declaredStack? (render "Main" code) = some 200 ∧
      loaded.Takes n (loaded.start (.ofInput [])) m ∧ m.stack.length = 201 := by
  have hcls : IsClassName "Main".toList := ⟨⟨'M', "ain".toList, rfl, by decide⟩, by decide⟩
  rcases Code.exists_takes_ones 200 (.ofInput []) with
    ⟨code, loaded, n, m, hcode, hloaded, htakes, hheight⟩
  exact ⟨code, loaded, n, m, hcode, hloaded, hcls, declaredStack?_render hcls code, htakes, hheight⟩

end Assembly

end WhileLang
