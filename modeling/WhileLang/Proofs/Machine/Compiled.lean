import WhileLang.Proofs.Machine.Placed
import WhileLang.Proofs.Machine.Simulates

/-!
# Compiled Code on the Machine

Each instruction by itself, then the code of expressions, conditions and
blocks. An instruction either only moves the machine or simulates one step of
a run: a load, an operation, a store, or something done with the streams.

The code of an expression leaves its value on the stack, so the two operands
of an operation are found there in reverse. The code of a condition falls
through if it holds. The branches say the opposite of the comparisons, and
`holds_inverted` is that they really do, for numbers that wrap around.

Blocks are an induction over what they emit. A choice goes by one of its two
labels, and a loop comes by its first label in every round, which is the step
that a round takes at least.

## Theorems

* `simulates_load`, `simulates_arith`, `simulates_store`,
  `simulates_onStreams`: Instructions that are steps of a run.
* `simulates_eval`: Code of an expression pushes its value.
* `simulates_test`: Code of a condition falls through or jumps.
* `simulates_execAll`: Code of a block does what the block does.
-/

namespace WhileLang

section Instructions

variable {code : Loaded} {ctx : Context} {least ip place slot : Nat} {stack : List Cell}
  {x y : Int32} {l : Label}

theorem moves_const (h : code.instrs[ip]? = some (.const x)) :
    Moves code 1 ⟨ip, stack⟩ ⟨ip + 1, .int x :: stack⟩ :=
  fun _ _ => Loaded.takes_one h rfl

theorem moves_text {s : String} (h : code.instrs[ip]? = some (.text s)) :
    Moves code 1 ⟨ip, stack⟩ ⟨ip + 1, .text s :: stack⟩ :=
  fun _ _ => Loaded.takes_one h rfl

theorem moves_label (h : code.instrs[ip]? = some (.label l)) :
    Moves code 1 ⟨ip, stack⟩ ⟨ip + 1, stack⟩ :=
  fun _ _ => Loaded.takes_one h rfl

theorem moves_goto (h : code.instrs[ip]? = some (.goto l)) (hl : code.place? l = some place) :
    Moves code 1 ⟨ip, stack⟩ ⟨place, stack⟩ := by
  intro slots io
  refine Loaded.takes_one h ?_
  rw [Loaded.step, Loaded.exec, Loaded.jumpTo, hl]
  rfl

theorem moves_branch {b : Branch} (h : code.instrs[ip]? = some (.branch b l))
    (hl : code.place? l = some place) :
    Moves code 1 ⟨ip, .int y :: .int x :: stack⟩
      (if b.holds x y then ⟨place, stack⟩ else ⟨ip + 1, stack⟩) := by
  intro slots io
  refine Loaded.takes_one h ?_
  change (if b.holds x y then code.jumpTo l else pure ()) ⟨ip + 1, stack, slots, io⟩ = _
  rw [Loaded.jumpTo, hl]
  cases b.holds x y <;> rfl

/-- Loading from the slot of a variable. -/
theorem simulates_load {name : String} (h : code.instrs[ip]? = some (.load slot))
    (hslot : ctx.slot? name = some slot) :
    Simulates code ctx least ⟨ip, stack⟩ (.ofEnv (·.load name))
      fun v => ⟨ip + 1, .int v :: stack⟩ := by
  intro slots env io hm
  have hget : env.get? name = slots[slot]?.join := by
    rw [hm.get? name, Context.valueIn?, hslot, Option.bind_some]
  have hload : code.step (.load slot) ⟨ip, stack, slots, io⟩ =
      EStateM.bind (Run.load slot) (fun v => Run.push (.int v)) ⟨ip + 1, stack, slots, io⟩ := rfl
  rw [EStateM.bind, Run.load] at hload
  rw [Exec.ofEnv, Env.load, hget]
  cases hv : slots[slot]?.join with
  | some v =>
      rw [hv] at hload
      exact ⟨1, slots, Loaded.takes_one h hload, hm⟩
  | none =>
      rw [hv] at hload
      exact ⟨0, _, _, _, rfl, ⟨_, h, hload⟩, .undefinedVariable hslot, rfl⟩

/-- An operation on the two numbers on top. -/
theorem simulates_arith {o : ArithOp} (h : code.instrs[ip]? = some (.arith o)) :
    Simulates code ctx least ⟨ip, .int y :: .int x :: stack⟩
      (.ofEnv fun _ =>
        match o.result? x y with
        | some v => .ok v
        | none => .error .divisionByZero)
      fun v => ⟨ip + 1, .int v :: stack⟩ := by
  intro slots env io hm
  have hstep : code.step (.arith o) ⟨ip, .int y :: .int x :: stack, slots, io⟩ =
      match o.result? x y with
      | some v => .ok () ⟨ip + 1, .int v :: stack, slots, io⟩
      | none => .error .divisionByZero ⟨ip + 1, stack, slots, io⟩ := by
    change (match o.result? x y with | some v => Run.push (.int v) | none => throw _)
      ⟨ip + 1, stack, slots, io⟩ = _
    cases o.result? x y <;> rfl
  rw [Exec.ofEnv]
  cases hv : o.result? x y with
  | some v =>
      rw [hv] at hstep
      exact ⟨1, slots, Loaded.takes_one h hstep, hm⟩
  | none =>
      rw [hv] at hstep
      exact ⟨0, _, _, _, rfl, ⟨_, h, hstep⟩, .divisionByZero, rfl⟩

/-- Storing the number on top in the slot of a variable. -/
theorem simulates_store {name : String} (h : code.instrs[ip]? = some (.store slot))
    (hslot : ctx.slot? name = some slot) :
    Simulates code ctx least ⟨ip, .int x :: stack⟩ (.set name x) fun _ => ⟨ip + 1, stack⟩ := by
  intro slots env io hm
  have hlt : slot < slots.size := by
    rw [hm.size]
    exact Context.lt_of_slot? hslot
  refine ⟨1, slots.setIfInBounds slot (some x), Loaded.takes_one h ?_, mirrors_set hm hslot x⟩
  change (if slot < slots.size then EStateM.Result.ok () _ else _) = _
  rw [if_pos hlt]

/-- An instruction that does the same with the streams as a piece of a run. -/
theorem simulates_onStreams {α : Type} {i : Instr} {act : EStateM StreamError Streams α}
    {goal : α → Spot} (left : List Cell) (h : code.instrs[ip]? = some i)
    (hstep : ∀ slots io, code.step i ⟨ip, stack, slots, io⟩ =
      match act io with
      | .ok a io => .ok () ((goal a).machine slots io)
      | .error e io => .error (.stream e) ⟨ip + 1, left, slots, io⟩) :
    Simulates code ctx least ⟨ip, stack⟩ (.onStreams act) goal := by
  intro slots env io hm
  have hstep := hstep slots io
  rw [Exec.onStreams]
  rcases hact : act io with ⟨a, io'⟩ | ⟨e, io'⟩
  · rw [hact] at hstep
    exact ⟨1, slots, Loaded.takes_one h hstep, hm⟩
  · rw [hact] at hstep
    exact ⟨0, _, _, _, rfl, ⟨i, h, hstep⟩, .stream e, rfl⟩

theorem simulates_readInt (h : code.instrs[ip]? = some .readInt) :
    Simulates code ctx least ⟨ip, stack⟩ (.onStreams Streams.readInt)
      fun v => ⟨ip + 1, .int v :: stack⟩ := by
  refine simulates_onStreams stack h fun slots io => ?_
  change EStateM.bind (Run.onStreams Streams.readInt) _ ⟨ip + 1, stack, slots, io⟩ = _
  rw [EStateM.bind, Run.onStreams]
  cases Streams.readInt io <;> rfl

theorem simulates_printInt (h : code.instrs[ip]? = some .printInt) :
    Simulates code ctx least ⟨ip, .int x :: stack⟩
      (.onStreams (Streams.writeLine (Decimal.text x.toInt))) fun _ => ⟨ip + 1, stack⟩ := by
  refine simulates_onStreams stack h fun slots io => ?_
  change Run.onStreams (Streams.writeLine (Decimal.text x.toInt)) ⟨ip + 1, stack, slots, io⟩ = _
  cases hact : Streams.writeLine (Decimal.text x.toInt) io <;> simp only [Run.onStreams, hact]

theorem simulates_printText {s : String} (h : code.instrs[ip]? = some .printText) :
    Simulates code ctx least ⟨ip, .text s :: stack⟩ (.onStreams (Streams.writeLine s))
      fun _ => ⟨ip + 1, stack⟩ := by
  refine simulates_onStreams stack h fun slots io => ?_
  change Run.onStreams (Streams.writeLine s) ⟨ip + 1, stack, slots, io⟩ = _
  cases hact : Streams.writeLine s io <;> simp only [Run.onStreams, hact]

end Instructions

section Compiled

variable {code : Loaded} {ctx ctx₁ ctx' : Context} {least start stop : Nat} {stack : List Cell}
  {piece : List Instr}

/-- Code of an expression pushes its value. -/
theorem simulates_eval {a : Arith} (ha : a.compile ctx₁ = .ok piece) (hgrows : ctx₁.Grows ctx)
    (hp : code.Placed start piece stop) (stack : List Cell) :
    Simulates code ctx least ⟨start, stack⟩ (.ofEnv a.eval) fun v => ⟨stop, .int v :: stack⟩ := by
  induction a generalizing piece start stop stack with
  | num n =>
      rw [← compile_num_eq_ok.mp ha] at hp
      rcases hp with ⟨hi, rfl⟩
      exact simulates_of_moves (moves_const hi) (simulates_pure (fun v => ⟨_, .int v :: stack⟩) n)
  | var x =>
      rcases compile_var_eq_ok.mp ha with ⟨slot, hslot, rfl⟩
      rcases hp with ⟨hi, rfl⟩
      exact simulates_load hi (Context.slot?_of_grows hgrows hslot)
  | op o l r ihl ihr =>
      rcases compile_op_eq_ok.mp ha with ⟨left, right, hl, hr, rfl⟩
      rcases Loaded.placed_append.mp hp with ⟨_, hoperands, hi, rfl⟩
      rcases Loaded.placed_append.mp hoperands with ⟨middle, hpl, hpr⟩
      have hleft : Simulates code ctx least ⟨start, stack⟩ (.ofEnv l.eval)
          fun x => ⟨middle, .int x :: stack⟩ := ihl hl hpl stack
      have hright : ∀ x, Simulates code ctx least ⟨middle, .int x :: stack⟩ (.ofEnv r.eval)
          fun y => ⟨_, .int y :: .int x :: stack⟩ := fun x => ihr hr hpr (.int x :: stack)
      rw [Arith.ofEnv_eval_op]
      exact simulates_bind hleft fun x => simulates_bind (hright x) fun y => simulates_arith hi

/-- The jump of a comparison is taken if the comparison does not hold. -/
theorem CompareOp.holds_inverted (o : CompareOp) (x y : Int32) :
    o.inverted.holds x y = !o.holds x y := by
  cases o with
  | equal => rfl
  | notEqual => exact (Bool.not_not _).symm
  | less =>
      change decide (y ≤ x) = !decide (x < y)
      rw [← decide_not]
      exact decide_eq_decide.mpr Int32.not_lt.symm
  | greater =>
      change decide (x ≤ y) = !decide (y < x)
      rw [← decide_not]
      exact decide_eq_decide.mpr Int32.not_lt.symm

/-- Code of a condition falls through if it holds, and jumps if it does not. -/
theorem simulates_test {c : Cond} {skip : Label} {away : Nat}
    (hc : c.compile ctx₁ skip = .ok piece) (hgrows : ctx₁.Grows ctx)
    (hp : code.Placed start piece stop) (haway : code.place? skip = some away)
    (stack : List Cell) :
    Simulates code ctx least ⟨start, stack⟩ (.ofEnv c.eval)
      fun b => if b then ⟨stop, stack⟩ else ⟨away, stack⟩ := by
  cases c with
  | const value =>
      cases value with
      | true =>
          rw [← Except.ok.inj hc] at hp
          rw [show start = stop from hp]
          exact simulates_pure (fun b => if b then ⟨stop, stack⟩ else ⟨away, stack⟩) true
      | false =>
          rw [← Except.ok.inj hc] at hp
          exact simulates_of_moves (moves_goto hp.1 haway)
            (simulates_pure (fun b => if b then ⟨stop, stack⟩ else ⟨away, stack⟩) false)
  | compare o l r =>
      rcases compile_compare_eq_ok.mp hc with ⟨left, right, hl, hr, rfl⟩
      rcases Loaded.placed_append.mp hp with ⟨bottom, hoperands, hi, rfl⟩
      rcases Loaded.placed_append.mp hoperands with ⟨middle, hpl, hpr⟩
      have hleft : Simulates code ctx least ⟨start, stack⟩ (.ofEnv l.eval)
          fun x => ⟨middle, .int x :: stack⟩ := simulates_eval hl hgrows hpl stack
      have hright : ∀ x, Simulates code ctx least ⟨middle, .int x :: stack⟩ (.ofEnv r.eval)
          fun y => ⟨bottom, .int y :: .int x :: stack⟩ :=
        fun x => simulates_eval hr hgrows hpr (.int x :: stack)
      rw [Cond.ofEnv_eval_compare]
      refine simulates_bind hleft fun x => simulates_bind (hright x) fun y => ?_
      have hmoves : Moves code 1 ⟨bottom, .int y :: .int x :: stack⟩
          (if o.inverted.holds x y then ⟨away, stack⟩ else ⟨bottom + 1, stack⟩) :=
        moves_branch hi haway
      rw [CompareOp.holds_inverted] at hmoves
      refine simulates_of_moves hmoves ?_
      have hpure : Simulates code ctx least
          (if o.holds x y then ⟨bottom + 1, stack⟩ else ⟨away, stack⟩) (pure (o.holds x y))
          fun b => if b then ⟨bottom + 1, stack⟩ else ⟨away, stack⟩ :=
        simulates_pure (fun b : Bool => if b then ⟨bottom + 1, stack⟩ else ⟨away, stack⟩) _
      cases hb : o.holds x y <;> rw [hb] at hpure <;> exact hpure

/-- An assignment, from the code of its right-hand side. -/
theorem simulates_assign {x : String} {a : Arith} {slot : Nat} (ha : a.compile ctx₁ = .ok piece)
    (hgrows : ctx₁.Grows ctx) (hslot : ctx.slot? x = some slot)
    (hp : code.Placed start (piece ++ [.store slot]) stop) (stack : List Cell) :
    Simulates code ctx least ⟨start, stack⟩ (.assign x a) fun _ => ⟨stop, stack⟩ := by
  rcases Loaded.placed_append.mp hp with ⟨middle, hvalue, hi, rfl⟩
  have heval : Simulates code ctx least ⟨start, stack⟩ (.ofEnv a.eval)
      fun v => ⟨middle, .int v :: stack⟩ := simulates_eval ha hgrows hvalue stack
  exact simulates_bind heval fun v => simulates_store hi hslot

/-- Code of a block does what the block does. -/
theorem simulates_execAll {b : Block} {fuel : Nat} (h : Emits ctx₁ b piece ctx')
    (hgrows : ctx'.Grows ctx) (hresolved : code.Resolved) (hp : code.Placed start piece stop)
    (stack : List Cell) :
    Simulates code ctx fuel ⟨start, stack⟩ (Stmt.execAll fuel b) fun _ => ⟨stop, stack⟩ := by
  induction h generalizing start stop with
  | nil c =>
      rw [show start = stop from hp]
      exact simulates_pure (fun _ => ⟨stop, stack⟩) ()
  | append hb hb' ih ih' =>
      rcases Loaded.placed_append.mp hp with ⟨middle, hpb, hpb'⟩
      have hfirst := ih (Context.grows_trans hb'.grows hgrows) hpb
      have hothers := ih' hgrows hpb'
      rw [Stmt.execAll_append]
      exact simulates_bind hfirst fun _ => hothers
  | skip c =>
      rw [show start = stop from hp]
      exact simulates_pure (fun _ => ⟨stop, stack⟩) ()
  | @assign c a value x hvalue =>
      have hslot := Context.slot?_of_grows hgrows (c.slot?_bind x)
      rw [Stmt.execAll_singleton, Stmt.exec]
      exact simulates_assign hvalue (Context.grows_trans (c.grows_bind x) hgrows) hslot hp stack
  | @ifElse c c₁ c' cond t e test thenCode elseCode htest hthen helse iht ihe =>
      rcases Loaded.placed_append.mp hp with ⟨ending, hblocks, hend, rfl⟩
      rcases Loaded.placed_append.mp hblocks with ⟨_, hfirst, hpe⟩
      rcases Loaded.placed_append.mp hfirst with ⟨bottom, hfront, hgoto, helseLabel, rfl⟩
      rcases Loaded.placed_append.mp hfront with ⟨inside, hptest, hpt⟩
      have hgrowsThen := Context.grows_trans helse.grows hgrows
      have hgrowsTest := Context.grows_trans hthen.grows hgrowsThen
      have hcond : Simulates code ctx fuel ⟨start, stack⟩ (.ofEnv cond.eval)
          fun b => if b then ⟨inside, stack⟩ else ⟨bottom + 1, stack⟩ :=
        simulates_test htest hgrowsTest hptest (hresolved _ _ helseLabel) stack
      have hfirst : Simulates code ctx fuel ⟨inside, stack⟩ (Stmt.execAll fuel t)
          fun _ => ⟨bottom, stack⟩ := iht hgrowsThen hpt
      have hsecond : Simulates code ctx fuel ⟨bottom + 1, stack⟩ (Stmt.execAll fuel e)
          fun _ => ⟨ending, stack⟩ :=
        simulates_of_moves (moves_label helseLabel) (ihe hgrows hpe)
      -- The first block jumps over the second one, and both pass by the last label.
      have hleave : Moves code 1 ⟨ending, stack⟩ ⟨ending + 1, stack⟩ := moves_label hend
      have hover : Moves code 2 ⟨bottom, stack⟩ ⟨ending + 1, stack⟩ :=
        moves_trans (moves_goto hgoto (hresolved _ _ hend)) hleave
      rw [Stmt.execAll_singleton, Stmt.exec]
      exact simulates_ite hcond hfirst hover hsecond hleave
  | @whileDo c c' cond body test bodyCode htest hbody ih =>
      rcases Loaded.placed_append.mp hp with ⟨bottom, hround, hgoto, hend, rfl⟩
      rcases Loaded.placed_append.mp hround with ⟨inside, hfront, hpbody⟩
      rcases Loaded.placed_append.mp hfront with ⟨_, ⟨hbegin, rfl⟩, hptest⟩
      have hgrowsTest := Context.grows_trans hbody.grows hgrows
      have hcond : Simulates code ctx fuel ⟨start + 1, stack⟩ (.ofEnv cond.eval)
          fun b => if b then ⟨inside, stack⟩ else ⟨bottom + 1, stack⟩ :=
        simulates_test htest hgrowsTest hptest (hresolved _ _ hend) stack
      have hround : Simulates code ctx fuel ⟨inside, stack⟩ (Stmt.execAll fuel body)
          fun _ => ⟨bottom, stack⟩ := ih hgrows hpbody
      have hback : Moves code 1 ⟨bottom, stack⟩ ⟨start, stack⟩ :=
        moves_goto hgoto (hresolved _ _ hbegin)
      have hloop := simulates_repeatWhile (moves_label hbegin) hcond hround hback (Nat.le_refl fuel)
      rw [Stmt.execAll_singleton, Stmt.exec]
      -- The test jumps to the label behind the loop, which is passed by as well.
      exact simulates_moves hloop fun _ => moves_label hend
  | forTo _ ih =>
      rw [Stmt.execAll_singleton, Stmt.exec_forTo]
      exact ih hgrows hp
  | read c x =>
      rcases hp with ⟨hread, hstore, rfl⟩
      have hslot := Context.slot?_of_grows hgrows (c.slot?_bind x)
      rw [Stmt.execAll_singleton, Stmt.exec]
      exact simulates_bind (simulates_readInt hread) fun v => simulates_store hstore hslot
  | @write c a value hvalue =>
      rcases Loaded.placed_append.mp hp with ⟨middle, hpvalue, hprint, rfl⟩
      have heval : Simulates code ctx fuel ⟨start, stack⟩ (.ofEnv a.eval)
          fun v => ⟨middle, .int v :: stack⟩ := simulates_eval hvalue hgrows hpvalue stack
      rw [Stmt.execAll_singleton, Stmt.exec]
      exact simulates_bind heval fun v => simulates_printInt hprint
  | print c s =>
      rcases hp with ⟨htext, hprint, rfl⟩
      rw [Stmt.execAll_singleton, Stmt.exec]
      exact simulates_of_moves (moves_text htext) (simulates_printText hprint)

end Compiled

end WhileLang
