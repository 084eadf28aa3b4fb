import WhileLang.Proofs.Machine.Compiled

/-!
# Correctness of Compilation

A compiled program does on the machine what the program does. It comes to an
end if and only if the program does, with the same input used up and the same
output written, whether the output has room for everything or not; and either
both end, and then the slots hold what the variables hold, or both fail for
the same reason.

The simulation goes one way only, from the program to the machine. The other
way is had from the fuel: a machine that ends has ended within some number of
steps, and a program that is given that number as fuel cannot run out of it,
because the machine would have gone on for longer.

## Main definitions

* `Code.contextOf`: The slots of a compiled program.
* `Corresponds`: The results of a program and of its code are the same.

## Theorems

* `Code.loaded_follows`: The machine follows the program.
* `Code.ofProgram_correct`: Compilation is correct.
-/

namespace WhileLang

/-- The context that compiling a program leaves, with the slots of its names. -/
def Code.contextOf (program : Block) : Context :=
  ((Stmt.compileAll program).run .empty).2

/-- The result of a program and the result of its code are the same: the same streams, and the
    same variables or the same failure. -/
def Corresponds (ctx : Context) :
    EStateM.Result (Halt RunError) RunState Unit → EStateM.Result (Halt MachineError) Machine Unit →
      Prop
  | .ok _ s, .ok _ m =>
    m.io = s.io ∧ ∀ x v, s.env.get? x = some v ↔
      ∃ slot, ctx.slot? x = some slot ∧ m.slots[slot]? = some (some v)
  | .error (.error e) s, .error (.error e') m => m.io = s.io ∧ Agrees ctx e e'
  | _, _ => False

namespace Code

variable {program : Block} {code : Code}

/-- The code of a program can be loaded, and the machine follows the program. -/
theorem loaded_follows (h : ofProgram program = .ok code) :
    ∃ loaded, Loaded.ofCode code = .ok loaded ∧ loaded.instrs[code.instrs.length]? = none ∧
      ∀ fuel io, Follows loaded (contextOf program) fuel (loaded.start io)
        (fun _ => ⟨code.instrs.length, []⟩) (Program.run fuel program io) := by
  rcases emits_ofProgram h with ⟨ctx, hemits, hctx, hslots⟩
  rcases Loaded.ofCode_of_wellLabelled hemits.wellLabelled with
    ⟨loaded, hloaded, hinstrs, hsize, hresolved⟩
  rcases Loaded.placed_instrs hinstrs with ⟨hplaced, hend⟩
  refine ⟨loaded, hloaded, hend, fun fuel io => ?_⟩
  have hsim : Simulates loaded ctx fuel ⟨0, []⟩ (Stmt.execAll fuel program)
      fun _ => ⟨code.instrs.length, []⟩ :=
    simulates_execAll hemits (Context.grows_refl ctx) hresolved hplaced []
  rw [contextOf, hctx, Loaded.start, hsize, hslots]
  exact hsim _ _ io (mirrors_start ctx)

variable {loaded : Loaded} {ctx : Context} {fuel stop : Nat} {io : Streams}
  {r : EStateM.Result (Halt RunError) RunState Unit}

/-- A machine that follows an end or a failure has the same one. -/
theorem ends_of_follows (hstop : loaded.instrs[stop]? = none)
    (h : Follows loaded ctx fuel (loaded.start io) (fun _ => ⟨stop, []⟩) r) (hr : Halted r) :
    ∃ r', loaded.Ends io r' ∧ Corresponds ctx r r' := by
  rcases r with ⟨_, s⟩ | ⟨e | _, s⟩
  · rcases h with ⟨n, slots, htakes, hmirrors⟩
    have hrun := Loaded.runFor_of_takes_none htakes hstop
    exact ⟨.ok () _, ⟨trivial, n + 1, hrun⟩, rfl, fun x v => get?_eq_some_iff_of_mirrors hmirrors⟩
  · rcases h with ⟨n, m, e', m', htakes, hfails, hagrees, hio⟩
    have hrun := Loaded.runFor_of_takes_fails htakes hfails
    exact ⟨.error (.error e') m', ⟨trivial, n + 1, hrun⟩, hio, hagrees⟩
  · exact hr.elim

/-- A machine that follows a run without fuel has not ended either. -/
theorem halted_of_follows (h : Follows loaded ctx fuel (loaded.start io) (fun _ => ⟨stop, []⟩) r)
    (hrun : Halted (loaded.run fuel io)) : Halted r := by
  rcases r with ⟨_, s⟩ | ⟨e | _, s⟩
  · trivial
  · trivial
  · rcases h with ⟨n, m, hn, htakes⟩
    exact Loaded.runFor_of_takes_le htakes hn hrun

/-- A compiled program can be loaded; on the same streams it ends if and only if the program does,
    and then both have the same result. -/
theorem ofProgram_correct (program : Block) (code : Code) (h : ofProgram program = .ok code) :
    ∃ loaded, Loaded.ofCode code = .ok loaded ∧ ∀ io,
      ((∃ r, Program.Ends program io r) ↔ ∃ r, loaded.Ends io r) ∧
      ∀ r r', Program.Ends program io r → loaded.Ends io r' →
        Corresponds (contextOf program) r r' := by
  rcases loaded_follows h with ⟨loaded, hloaded, hstop, hfollows⟩
  have hends : ∀ io r, Program.Ends program io r →
      ∃ r', loaded.Ends io r' ∧ Corresponds (contextOf program) r r' := by
    intro io r hr
    rcases hr with ⟨hhalted, fuel, rfl⟩
    exact ends_of_follows hstop (hfollows fuel io) hhalted
  refine ⟨loaded, hloaded, fun io => ⟨⟨?_, ?_⟩, ?_⟩⟩
  · intro hprogram
    rcases hprogram with ⟨r, hr⟩
    rcases hends io r hr with ⟨r', hr', -⟩
    exact ⟨r', hr'⟩
  · intro hmachine
    rcases hmachine with ⟨r', hhalted, fuel, rfl⟩
    exact ⟨_, halted_of_follows (hfollows fuel io) hhalted, fuel, rfl⟩
  · intro r r' hr hr'
    rcases hends io r hr with ⟨r'', hr'', hcorresponds⟩
    rw [Loaded.ends_unique hr' hr'']
    exact hcorresponds

/-- A loop counts to two and the result is written; the machine writes it too and has it in its
    slot. -/
theorem ofProgram_correct_of_loop :
    ∃ loaded r, Loaded.ofCode
        ⟨[.const 0, .store 0, .label ⟨.loopBegin, 1⟩, .load 0, .const 2, .branch .ge ⟨.loopEnd, 2⟩,
          .load 0, .const 1, .arith .add, .store 0, .goto ⟨.loopBegin, 1⟩, .label ⟨.loopEnd, 2⟩,
          .load 0, .printInt], 1⟩ = .ok loaded ∧
      loaded.Ends (.ofInput []) r ∧
      Corresponds ⟨["x"], 2⟩ (.ok () ⟨⟨[("x", 2)]⟩, ⟨[], #[50, 10], none⟩⟩) r := by
  rcases ofProgram_correct
    [.assign "x" (.num 0), .whileDo (.compare .less (.var "x") (.num 2))
      [.assign "x" (.op .add (.var "x") (.num 1))], .write (.var "x")] _ rfl with
    ⟨loaded, hloaded, hcorrect⟩
  rcases hcorrect (.ofInput []) with ⟨hends, hsame⟩
  rcases hends.mp ⟨.ok () ⟨⟨[("x", 2)]⟩, ⟨[], #[50, 10], none⟩⟩, trivial, 3, rfl⟩ with ⟨r, hr⟩
  exact ⟨loaded, r, hloaded, hr, hsame _ r ⟨trivial, 3, rfl⟩ hr⟩

end Code

end WhileLang
