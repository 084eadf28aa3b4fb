import WhileLang.Code.OfProgram
import WhileLang.Proofs.Code.Growth
import WhileLang.Proofs.Program.Counting

/-!
# What Compilation Emits

The code of a block, as a relation that follows the syntax. Compilation is a
sequence of steps that can fail and that pass a context on; `Yields` is one
such step that succeeded, and `Emits` lists what all of them add up to, one
case for each kind of statement and one for two blocks in a row. Whatever
holds of all compiled code is an induction over these cases, and the steps
are not looked at again.

A counting loop has no code of its own. Its code is that of an assignment
and a loop whose body ends with the increment, because the variable is bound
by the assignment and so keeps its slot through the body.

Expressions and conditions hand out nothing, so for them it is enough to say
when their code is what it is.

## Main definitions

* `Compile.Yields`: A step of a compilation that succeeded.
* `Emits`: The code of a block, between two contexts.

## Theorems

* `Compile.yields_bind`: One step after the other.
* `compile_var_eq_ok`, `compile_op_eq_ok`, `compile_compare_eq_ok`: The code
  of expressions and conditions.
* `Emits.grows`: Compiling a block only hands out more.
* `Emits.counting`: The code of a counting loop.
* `emits_compileAll`: What compilation returns is what a block emits.
* `emits_ofProgram`: The code of a program is emitted from nothing.
-/

namespace WhileLang

namespace Compile

variable {α β : Type} {ctx ctx' : Context}

/-- The step succeeds, with a result and the context behind it. -/
def Yields (act : Compile α) (ctx : Context) (a : α) (ctx' : Context) : Prop :=
  act.run ctx = (.ok a, ctx')

theorem yields_pure {a b : α} : Yields (pure a) ctx b ctx' ↔ a = b ∧ ctx = ctx' := by
  rw [Yields, ExceptT.run_pure]
  constructor
  · intro h
    exact ⟨Except.ok.inj (Prod.mk.inj h).1, (Prod.mk.inj h).2⟩
  · intro h
    rw [h.1, h.2]
    rfl

/-- A step that fails keeps the context as it was left; one that succeeds passes it on. -/
theorem run_bind (act : Compile α) (next : α → Compile β) (ctx : Context) :
    (act >>= next).run ctx =
      match act.run ctx with
      | (.ok a, ctx₁) => (next a).run ctx₁
      | (.error e, ctx₁) => (.error e, ctx₁) := by
  change ExceptT.bindCont next (act.run ctx).1 (act.run ctx).2 = _
  rcases act.run ctx with ⟨_ | _, _⟩ <;> rfl

theorem yields_bind {act : Compile α} {next : α → Compile β} {b : β} :
    Yields (act >>= next) ctx b ctx' ↔
      ∃ a ctx₁, Yields act ctx a ctx₁ ∧ Yields (next a) ctx₁ b ctx' := by
  rw [Yields, run_bind]
  rcases hact : act.run ctx with ⟨e | a, ctx₁⟩
  · refine iff_of_false (fun h => nomatch h) ?_
    intro h
    rcases h with ⟨a, ctx₁, h, -⟩
    cases hact.symm.trans h
  · constructor
    · intro h
      exact ⟨a, ctx₁, hact, h⟩
    · intro h
      rcases h with ⟨a', ctx₁', h, hnext⟩
      cases hact.symm.trans h
      exact hnext

theorem yields_reading {f : Context → Except CompileError α} {a : α} :
    Yields (reading f) ctx a ctx' ↔ f ctx = .ok a ∧ ctx = ctx' := by
  constructor
  · intro h
    exact Prod.mk.inj h
  · intro h
    exact Prod.ext h.1 h.2

theorem yields_mint {kind : LabelKind} {l : Label} :
    Yields (mint kind) ctx l ctx' ↔
      ⟨kind, ctx.labels + 1⟩ = l ∧ ⟨ctx.names, ctx.labels + 1⟩ = ctx' := by
  constructor
  · intro h
    exact ⟨Except.ok.inj (Prod.mk.inj h).1, (Prod.mk.inj h).2⟩
  · intro h
    rcases h with ⟨rfl, rfl⟩
    rfl

theorem yields_bind_name {x : String} {slot : Nat} :
    Yields (Compile.bind x) ctx slot ctx' ↔ (ctx.bind x).1 = slot ∧ (ctx.bind x).2 = ctx' := by
  constructor
  · intro h
    exact ⟨Except.ok.inj (Prod.mk.inj h).1, (Prod.mk.inj h).2⟩
  · intro h
    rcases h with ⟨rfl, rfl⟩
    rfl

theorem yields_assign {x : String} {value : Arith} {code : List Instr} :
    Yields (assign x value) ctx code ctx' ↔
      ∃ valueCode, value.compile ctx = .ok valueCode ∧
        valueCode ++ [.store (ctx.bind x).1] = code ∧ (ctx.bind x).2 = ctx' := by
  rw [assign, yields_bind]
  simp only [yields_bind, yields_reading, yields_bind_name, yields_pure]
  constructor
  · intro h
    rcases h with ⟨valueCode, _, ⟨hvalue, rfl⟩, _, _, ⟨rfl, rfl⟩, rfl, rfl⟩
    exact ⟨valueCode, hvalue, rfl, rfl⟩
  · intro h
    rcases h with ⟨valueCode, hvalue, rfl, rfl⟩
    exact ⟨valueCode, ctx, ⟨hvalue, rfl⟩, _, _, ⟨rfl, rfl⟩, rfl, rfl⟩

end Compile

section Expressions

variable {ctx : Context} {code : List Instr}

theorem Context.lookup_eq_ok {x : String} {slot : Nat} :
    ctx.lookup x = .ok slot ↔ ctx.slot? x = some slot := by
  rw [Context.lookup]
  cases ctx.slot? x with
  | none => exact iff_of_false (fun h => nomatch h) (fun h => nomatch h)
  | some k =>
      constructor
      · intro h
        rw [Except.ok.inj h]
      · intro h
        rw [Option.some.inj h]

theorem compile_num_eq_ok {n : Int32} :
    (Arith.num n).compile ctx = .ok code ↔ [.const n] = code := by
  constructor
  · intro h
    exact Except.ok.inj h
  · intro h
    rw [← h]
    rfl

theorem compile_var_eq_ok {x : String} :
    (Arith.var x).compile ctx = .ok code ↔ ∃ slot, ctx.slot? x = some slot ∧ [.load slot] = code := by
  rw [Arith.compile]
  simp only [← Context.lookup_eq_ok]
  cases ctx.lookup x with
  | error e =>
      refine iff_of_false (fun h => nomatch h) ?_
      intro h
      rcases h with ⟨slot, h, -⟩
      cases h
  | ok k =>
      constructor
      · intro h
        exact ⟨k, rfl, Except.ok.inj h⟩
      · intro h
        rcases h with ⟨slot, h, hcode⟩
        rw [Except.ok.inj h, ← hcode]
        rfl

/-- Code of two operands and an instruction behind them. -/
theorem compile_operands_eq_ok {l r : Arith} {i : Instr} :
    (do return (← l.compile ctx) ++ (← r.compile ctx) ++ [i] : Except CompileError (List Instr))
        = .ok code ↔
      ∃ left right, l.compile ctx = .ok left ∧ r.compile ctx = .ok right ∧
        left ++ right ++ [i] = code := by
  cases l.compile ctx with
  | error e =>
      refine iff_of_false (fun h => nomatch h) ?_
      intro h
      rcases h with ⟨left, right, h, -, -⟩
      cases h
  | ok left =>
      cases r.compile ctx with
      | error e =>
          refine iff_of_false (fun h => nomatch h) ?_
          intro h
          rcases h with ⟨left, right, -, h, -⟩
          cases h
      | ok right =>
          constructor
          · intro h
            exact ⟨left, right, rfl, rfl, Except.ok.inj h⟩
          · intro h
            rcases h with ⟨left', right', hl, hr, hcode⟩
            rw [← hcode, ← Except.ok.inj hl, ← Except.ok.inj hr]
            rfl

theorem compile_op_eq_ok {o : ArithOp} {l r : Arith} :
    (Arith.op o l r).compile ctx = .ok code ↔
      ∃ left right, l.compile ctx = .ok left ∧ r.compile ctx = .ok right ∧
        left ++ right ++ [.arith o] = code :=
  compile_operands_eq_ok

/-- Code that increases a variable. -/
theorem compile_increment {x : String} {slot : Nat} (h : ctx.slot? x = some slot) :
    (Arith.op .add (.var x) (.num 1)).compile ctx = .ok [.load slot, .const 1, .arith .add] :=
  compile_op_eq_ok.mpr ⟨[.load slot], [.const 1], compile_var_eq_ok.mpr ⟨slot, h, rfl⟩,
    compile_num_eq_ok.mpr rfl, rfl⟩

theorem compile_compare_eq_ok {o : CompareOp} {l r : Arith} {skip : Label} :
    (Cond.compare o l r).compile ctx skip = .ok code ↔
      ∃ left right, l.compile ctx = .ok left ∧ r.compile ctx = .ok right ∧
        left ++ right ++ [.branch o.inverted skip] = code :=
  compile_operands_eq_ok

end Expressions

/-- The block has that code, if it is compiled with the first context and leaves the second. -/
inductive Emits : Context → Block → List Instr → Context → Prop
  | nil (ctx : Context) : Emits ctx [] [] ctx
  | append {ctx ctx₁ ctx' : Context} {b b' : Block} {code code' : List Instr} :
      Emits ctx b code ctx₁ → Emits ctx₁ b' code' ctx' → Emits ctx (b ++ b') (code ++ code') ctx'
  | skip (ctx : Context) : Emits ctx [.skip] [] ctx
  | assign {ctx : Context} {a : Arith} {value : List Instr} (x : String) :
      a.compile ctx = .ok value →
      Emits ctx [.assign x a] (value ++ [.store (ctx.bind x).1]) (ctx.bind x).2
  | ifElse {ctx ctx₁ ctx' : Context} {c : Cond} {t e : Block}
      {test thenCode elseCode : List Instr} :
      c.compile ⟨ctx.names, ctx.labels + 2⟩ ⟨.ifElse, ctx.labels + 1⟩ = .ok test →
      Emits ⟨ctx.names, ctx.labels + 2⟩ t thenCode ctx₁ → Emits ctx₁ e elseCode ctx' →
      Emits ctx [.ifElse c t e]
        (test ++ thenCode ++ [.goto ⟨.ifEnd, ctx.labels + 2⟩, .label ⟨.ifElse, ctx.labels + 1⟩]
          ++ elseCode ++ [.label ⟨.ifEnd, ctx.labels + 2⟩]) ctx'
  | whileDo {ctx ctx' : Context} {c : Cond} {body : Block} {test bodyCode : List Instr} :
      c.compile ⟨ctx.names, ctx.labels + 2⟩ ⟨.loopEnd, ctx.labels + 2⟩ = .ok test →
      Emits ⟨ctx.names, ctx.labels + 2⟩ body bodyCode ctx' →
      Emits ctx [.whileDo c body]
        ([.label ⟨.loopBegin, ctx.labels + 1⟩] ++ test ++ bodyCode
          ++ [.goto ⟨.loopBegin, ctx.labels + 1⟩, .label ⟨.loopEnd, ctx.labels + 2⟩]) ctx'
  | forTo {ctx ctx' : Context} {x : String} {a b : Arith} {body : Block} {code : List Instr} :
      Emits ctx (Stmt.counting x a b body) code ctx' → Emits ctx [.forTo x a b body] code ctx'
  | read (ctx : Context) (x : String) :
      Emits ctx [.read x] [.readInt, .store (ctx.bind x).1] (ctx.bind x).2
  | write {ctx : Context} {a : Arith} {value : List Instr} :
      a.compile ctx = .ok value → Emits ctx [.write a] (value ++ [.printInt]) ctx
  | print (ctx : Context) (s : String) : Emits ctx [.print s] [.text s, .printText] ctx

namespace Emits

variable {ctx ctx' : Context} {b : Block} {code : List Instr}

/-- Compiling a block only hands out more. -/
theorem grows (h : Emits ctx b code ctx') : ctx.Grows ctx' := by
  induction h with
  | nil ctx => exact ctx.grows_refl
  | append _ _ ih ih' => exact Context.grows_trans ih ih'
  | skip ctx => exact ctx.grows_refl
  | @assign ctx _ _ x _ => exact ctx.grows_bind x
  | @ifElse ctx _ _ _ _ _ _ _ _ _ _ _ ih ih' =>
      exact Context.grows_trans (ctx.grows_mint 2) (Context.grows_trans ih ih')
  | @whileDo ctx _ _ _ _ _ _ _ ih => exact Context.grows_trans (ctx.grows_mint 2) ih
  | forTo _ ih => exact ih
  | read ctx x => exact ctx.grows_bind x
  | @write ctx _ _ _ => exact ctx.grows_refl
  | print ctx _ => exact ctx.grows_refl

/-- Code of a counting loop, from the code of its parts. -/
theorem counting {ctx₁ : Context} {x : String} {a b : Arith} {body : Block} {slot : Nat}
    {value test bodyCode : List Instr} (hvalue : a.compile ctx = .ok value)
    (hslot : (ctx.bind x).2.lookup x = .ok slot)
    (htest : (Cond.compare .less (.var x) b).compile
      ⟨(ctx.bind x).2.names, (ctx.bind x).2.labels + 2⟩
      ⟨.loopEnd, (ctx.bind x).2.labels + 2⟩ = .ok test)
    (hbody : Emits ⟨(ctx.bind x).2.names, (ctx.bind x).2.labels + 2⟩ body bodyCode ctx₁) :
    Emits ctx [.forTo x a b body]
      (value ++ [.store (ctx.bind x).1] ++ [.label ⟨.loopBegin, (ctx.bind x).2.labels + 1⟩]
        ++ test ++ bodyCode ++ [.load slot, .const 1, .arith .add, .store slot,
          .goto ⟨.loopBegin, (ctx.bind x).2.labels + 1⟩,
          .label ⟨.loopEnd, (ctx.bind x).2.labels + 2⟩]) ctx₁ := by
  -- The variable keeps its slot through the body, so binding it again changes nothing.
  have hfirst : (ctx.bind x).2.slot? x = some slot := Context.lookup_eq_ok.mp hslot
  have hlast : ctx₁.slot? x = some slot :=
    Context.slot?_of_grows (Context.grows_trans (Context.grows_mint _ 2) hbody.grows) hfirst
  have hnext := Emits.assign x (compile_increment hlast)
  rw [Context.bind_of_slot? hlast] at hnext
  have hall := Emits.append (Emits.assign x hvalue)
    (Emits.whileDo htest (Emits.append hbody hnext))
  simp only [List.append_assoc, List.cons_append, List.nil_append] at hall ⊢
  exact Emits.forTo hall

end Emits

open Compile in
mutual

/-- What compilation returns for a statement is what it emits. -/
theorem emits_compile {ctx ctx' : Context} {code : List Instr} :
    ∀ s : Stmt, Yields (Stmt.compile s) ctx code ctx' → Emits ctx [s] code ctx'
  | .skip, h => by
      rw [Stmt.compile, yields_pure] at h
      rcases h with ⟨rfl, rfl⟩
      exact Emits.skip ctx
  | .assign x a, h => by
      rw [Stmt.compile, yields_assign] at h
      rcases h with ⟨value, hvalue, rfl, rfl⟩
      exact Emits.assign x hvalue
  | .ifElse c t e, h => by
      simp only [Stmt.compile, yields_bind, yields_mint, yields_reading, yields_pure] at h
      rcases h with ⟨_, _, ⟨rfl, rfl⟩, _, _, ⟨rfl, rfl⟩, test, _, ⟨htest, rfl⟩, thenCode, ctx₁,
        hthen, elseCode, _, helse, rfl, rfl⟩
      exact Emits.ifElse htest (emits_compileAll t hthen) (emits_compileAll e helse)
  | .whileDo c body, h => by
      simp only [Stmt.compile, yields_bind, yields_mint, yields_reading, yields_pure] at h
      rcases h with ⟨_, _, ⟨rfl, rfl⟩, _, _, ⟨rfl, rfl⟩, test, _, ⟨htest, rfl⟩, bodyCode, _,
        hbody, rfl, rfl⟩
      exact Emits.whileDo htest (emits_compileAll body hbody)
  | .forTo x a b body, h => by
      simp only [Stmt.compile, yields_bind, yields_assign, yields_mint, yields_reading,
        yields_pure] at h
      rcases h with ⟨_, _, ⟨value, hvalue, rfl, rfl⟩, slot, _, ⟨hslot, rfl⟩, _, _, ⟨rfl, rfl⟩,
        _, _, ⟨rfl, rfl⟩, test, _, ⟨htest, rfl⟩, bodyCode, _, hbody, rfl, rfl⟩
      exact Emits.counting hvalue hslot htest (emits_compileAll body hbody)
  | .read x, h => by
      simp only [Stmt.compile, yields_bind, yields_bind_name, yields_pure] at h
      rcases h with ⟨_, _, ⟨rfl, rfl⟩, rfl, rfl⟩
      exact Emits.read ctx x
  | .write a, h => by
      simp only [Stmt.compile, yields_bind, yields_reading, yields_pure] at h
      rcases h with ⟨value, _, ⟨hvalue, rfl⟩, rfl, rfl⟩
      exact Emits.write hvalue
  | .print s, h => by
      rw [Stmt.compile, yields_pure] at h
      rcases h with ⟨rfl, rfl⟩
      exact Emits.print ctx s

/-- What compilation returns for a block is what it emits. -/
theorem emits_compileAll {ctx ctx' : Context} {code : List Instr} :
    ∀ b : Block, Yields (Stmt.compileAll b) ctx code ctx' → Emits ctx b code ctx'
  | [], h => by
      rw [Stmt.compileAll, yields_pure] at h
      rcases h with ⟨rfl, rfl⟩
      exact Emits.nil ctx
  | s :: rest, h => by
      simp only [Stmt.compileAll, yields_bind, yields_pure] at h
      rcases h with ⟨first, ctx₁, hfirst, others, _, hothers, rfl, rfl⟩
      exact Emits.append (emits_compile s hfirst) (emits_compileAll rest hothers)

end

/-- The code of a program is what its block emits from nothing. -/
theorem emits_ofProgram {program : Block} {code : Code} (h : Code.ofProgram program = .ok code) :
    ∃ ctx, Emits .empty program code.instrs ctx ∧
      ((Stmt.compileAll program).run .empty).2 = ctx ∧ code.slots = ctx.names.length := by
  rw [Code.ofProgram] at h
  split at h
  · next instrs ctx hrun =>
    cases h
    exact ⟨ctx, emits_compileAll program hrun, by rw [hrun], rfl⟩
  · cases h

end WhileLang
