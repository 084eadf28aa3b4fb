import WhileLang.Proofs.Code.Emits
import WhileLang.Proofs.Program.Ends

/-!
# Counting Loops Are Loops

A counting loop is compiled by itself, and so is an assignment with a loop
behind it. Both come to the same code, label by label and slot by slot, and
if a part cannot be compiled, both fail with the same error and have handed
out the same names and labels by then. They differ in one respect only: a
counting loop looks its slot up once, before its body, and a loop looks it up
where the increment stands. In between nothing takes a slot away.

The equation is one of runs of the compiler, so it holds of failures too. For
code that is returned it closes the circle: what compilation returns is what
a block emits, and what a block emits is returned, which is how a block is
shown to be compiled without running the compiler on it.

## Theorems

* `Compile.run_bind_congr`: Compilations that begin alike.
* `Stmt.compileAll_append`: Code of blocks one after the other.
* `Stmt.run_compile_forTo`: A counting loop is compiled like its assignment and
  its loop.
* `yields_of_emits`: What a block emits is what compilation returns.
* `Stmt.forTo_eq_counting`: A counting loop is its assignment and its loop, when
  it is compiled and when it is run.
-/

namespace WhileLang

namespace Compile

variable {α β : Type} {ctx ctx' : Context}

/-- A step that succeeds goes on with its result. -/
theorem run_bind_of_ok {act : Compile α} {next : α → Compile β} {a : α}
    (h : Yields act ctx a ctx') : (act >>= next).run ctx = (next a).run ctx' := by
  rw [Yields] at h
  rw [run_bind, h]

/-- Compilations that begin alike are the same if they go on alike where they do go on. -/
theorem run_bind_congr {act : Compile α} {next next' : α → Compile β}
    (h : ∀ a ctx', Yields act ctx a ctx' → (next a).run ctx' = (next' a).run ctx') :
    (act >>= next).run ctx = (act >>= next').run ctx := by
  rw [run_bind, run_bind]
  rcases hact : act.run ctx with ⟨_ | a, ctx'⟩
  · rfl
  · exact h a ctx' hact

end Compile

open Compile

namespace Stmt

/-- Code of blocks one after the other. -/
theorem compileAll_append (b b' : Block) :
    compileAll (b ++ b') = (do return (← compileAll b) ++ (← compileAll b')) := by
  induction b with
  | nil => simp only [compileAll, pure_bind, List.nil_append, bind_pure]
  | cons s b ih =>
      rw [List.cons_append, compileAll, compileAll, ih]
      simp only [bind_assoc, pure_bind, List.append_assoc]

theorem compileAll_singleton (s : Stmt) : compileAll [s] = compile s := by
  simp only [compileAll, pure_bind, List.append_nil, bind_pure]

/-- A name that has a slot is increased in its slot, and nothing is handed out. -/
theorem yields_increment {ctx : Context} {x : String} {slot : Nat} (h : ctx.slot? x = some slot) :
    Yields (Compile.assign x (.op .add (.var x) (.num 1))) ctx
      [.load slot, .const 1, .arith .add, .store slot] ctx := by
  refine yields_assign.mpr ⟨_, compile_increment h, ?_, ?_⟩
  · rw [Context.bind_of_slot? h]
    rfl
  · rw [Context.bind_of_slot? h]

/-- A counting loop is compiled like its assignment and its loop, also if that fails. -/
theorem run_compile_forTo (x : String) (a b : Arith) (body : Block) (ctx : Context) :
    (compile (.forTo x a b body)).run ctx = (compileAll (counting x a b body)).run ctx := by
  rw [counting, compileAll, compileAll_singleton, compile, compile, compile, compileAll_append,
    compileAll_singleton, compile]
  simp only [bind_assoc, pure_bind]
  refine run_bind_congr fun init ctx₁ hinit => ?_
  rcases yields_assign.mp hinit with ⟨value, -, -, rfl⟩
  -- The variable has its slot from here on.
  have hslot : (ctx.bind x).2.slot? x = some (ctx.bind x).1 := ctx.slot?_bind x
  have hlookup : Yields (.reading (·.lookup x)) (ctx.bind x).2 (ctx.bind x).1 (ctx.bind x).2 :=
    yields_reading.mpr ⟨Context.lookup_eq_ok.mpr hslot, rfl⟩
  rw [run_bind_of_ok hlookup]
  refine run_bind_congr fun beginLabel ctx₂ hbegin => ?_
  refine run_bind_congr fun endLabel ctx₃ hend => ?_
  refine run_bind_congr fun test ctx₄ htest => ?_
  refine run_bind_congr fun bodyCode ctx₅ hbody => ?_
  rcases yields_mint.mp hbegin with ⟨-, rfl⟩
  rcases yields_mint.mp hend with ⟨-, rfl⟩
  rcases yields_reading.mp htest with ⟨-, rfl⟩
  have hgrows : (ctx.bind x).2.Grows ctx₅ :=
    Context.grows_trans (Context.grows_mint _ 2) (emits_compileAll body hbody).grows
  rw [run_bind_of_ok (yields_increment (Context.slot?_of_grows hgrows hslot))]
  simp only [List.append_assoc, List.cons_append, List.nil_append]

end Stmt

/-- What a block emits is what compilation returns. -/
theorem yields_of_emits {ctx ctx' : Context} {b : Block} {code : List Instr}
    (h : Emits ctx b code ctx') : Yields (Stmt.compileAll b) ctx code ctx' := by
  induction h with
  | nil ctx =>
      rw [Stmt.compileAll, yields_pure]
      exact ⟨rfl, rfl⟩
  | @append ctx ctx₁ ctx' b b' code code' _ _ ih ih' =>
      rw [Stmt.compileAll_append]
      simp only [yields_bind, yields_pure]
      exact ⟨code, ctx₁, ih, code', ctx', ih', rfl, rfl⟩
  | skip ctx =>
      rw [Stmt.compileAll_singleton, Stmt.compile, yields_pure]
      exact ⟨rfl, rfl⟩
  | assign x hvalue =>
      rw [Stmt.compileAll_singleton, Stmt.compile, yields_assign]
      exact ⟨_, hvalue, rfl, rfl⟩
  | ifElse htest _ _ iht ihe =>
      rw [Stmt.compileAll_singleton, Stmt.compile]
      simp only [yields_bind, yields_mint, yields_reading, yields_pure]
      exact ⟨_, _, ⟨rfl, rfl⟩, _, _, ⟨rfl, rfl⟩, _, _, ⟨htest, rfl⟩, _, _, iht, _, _, ihe, rfl, rfl⟩
  | whileDo htest _ ih =>
      rw [Stmt.compileAll_singleton, Stmt.compile]
      simp only [yields_bind, yields_mint, yields_reading, yields_pure]
      exact ⟨_, _, ⟨rfl, rfl⟩, _, _, ⟨rfl, rfl⟩, _, _, ⟨htest, rfl⟩, _, _, ih, rfl, rfl⟩
  | @forTo ctx ctx' x a b body code _ ih =>
      rw [Yields, Stmt.compileAll_singleton, Stmt.run_compile_forTo]
      exact ih
  | read ctx x =>
      rw [Stmt.compileAll_singleton, Stmt.compile]
      simp only [yields_bind, yields_bind_name, yields_pure]
      exact ⟨_, _, ⟨rfl, rfl⟩, rfl, rfl⟩
  | write hvalue =>
      rw [Stmt.compileAll_singleton, Stmt.compile]
      simp only [yields_bind, yields_reading, yields_pure]
      exact ⟨_, _, ⟨hvalue, rfl⟩, rfl, rfl⟩
  | print ctx s =>
      rw [Stmt.compileAll_singleton, Stmt.compile, yields_pure]
      exact ⟨rfl, rfl⟩

/-- A counting loop is an assignment and a loop, for the compiler and when it is run: from every
    context the same code or the same error and the same context, and from every state the same
    result, if there is one. -/
theorem Stmt.forTo_eq_counting (x : String) (a b : Arith) (body : Block) :
    (∀ ctx, (compileAll [.forTo x a b body]).run ctx
      = (compileAll [.assign x a, .whileDo (.compare .less (.var x) b)
          (body ++ [.assign x (.op .add (.var x) (.num 1))])]).run ctx) ∧
    ∀ s r, Ends [.forTo x a b body] s r ↔
      Ends [.assign x a, .whileDo (.compare .less (.var x) b)
        (body ++ [.assign x (.op .add (.var x) (.num 1))])] s r := by
  refine ⟨fun ctx => ?_, fun s r => ends_forTo⟩
  rw [compileAll_singleton, run_compile_forTo, counting]

end WhileLang
