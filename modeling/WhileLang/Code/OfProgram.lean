import WhileLang.Code.Context

/-!
# Compiling Programs

From programs to code. An expression leaves its value on the stack, a
condition falls through if it holds and jumps to a label if it does not, and
a statement leaves the stack as it was.

The only error is a variable that is used where nothing before it in the text
binds it. Names are bound in the order of the text: the right-hand side of an
assignment comes before its name, and the variable of a counting loop is
bound before the bound of the loop is compiled.

## Main definitions

* `CompileError`: Why a program cannot be compiled.
* `Compile`: Compilation with a context that outlives failure.
* `Arith.compile`, `Cond.compile`: Code of expressions and conditions.
* `Stmt.compile`, `Stmt.compileAll`: Code of statements.
* `Code.ofProgram`: Code of a program.
-/

namespace WhileLang

/-- Why a program cannot be compiled. -/
inductive CompileError where
  | undefinedVariable (name : String)
deriving DecidableEq, Repr

/-- The wording of an error. -/
def CompileError.message : CompileError → String
  | .undefinedVariable name => "Undefined variable '" ++ name ++ "'"

/-- The slot of a name that has to be bound. -/
def Context.lookup (ctx : Context) (name : String) : Except CompileError Nat :=
  match ctx.slot? name with
  | some slot => .ok slot
  | none => .error (.undefinedVariable name)

/-- Code that leaves the value of an expression on the stack. -/
def Arith.compile (ctx : Context) : Arith → Except CompileError (List Instr)
  | .num n => return [.const n]
  | .var x => return [.load (← ctx.lookup x)]
  | .op o l r => return (← l.compile ctx) ++ (← r.compile ctx) ++ [.arith o]

/-- The relation that holds exactly if the comparison does not. -/
def CompareOp.inverted : CompareOp → Branch
  | .equal => .ne
  | .notEqual => .eq
  | .less => .ge
  | .greater => .le

/-- Code that jumps if the condition does not hold. -/
def Cond.compile (ctx : Context) (skip : Label) : Cond → Except CompileError (List Instr)
  | .const true => return []
  | .const false => return [.goto skip]
  | .compare o l r =>
    return (← l.compile ctx) ++ (← r.compile ctx) ++ [.branch o.inverted skip]

/-- Compilation with a context, which keeps what was handed out when it fails. -/
abbrev Compile := ExceptT CompileError (StateM Context)

namespace Compile

/-- Code that depends on the context and hands out nothing. -/
def reading {α : Type} (f : Context → Except CompileError α) : Compile α := fun ctx =>
  (f ctx, ctx)

/-- A new label. -/
def mint (kind : LabelKind) : Compile Label := fun ctx =>
  (.ok (ctx.mint kind).1, (ctx.mint kind).2)

/-- The slot of a name, which is bound from now on. -/
def bind (name : String) : Compile Nat := fun ctx =>
  (.ok (ctx.bind name).1, (ctx.bind name).2)

/-- Code that sets a variable. -/
def assign (name : String) (value : Arith) : Compile (List Instr) := do
  let code ← reading value.compile
  return code ++ [.store (← bind name)]

end Compile

mutual

/-- Code of a statement. -/
def Stmt.compile : Stmt → Compile (List Instr)
  | .skip => return []
  | .assign x a => .assign x a
  | .ifElse c t e => do
    -- Labels are minted before the parts are compiled, so outer ones have smaller numbers.
    let elseLabel ← .mint .ifElse
    let endLabel ← .mint .ifEnd
    let test ← .reading (c.compile · elseLabel)
    let thenCode ← Stmt.compileAll t
    let elseCode ← Stmt.compileAll e
    return test ++ thenCode ++ [.goto endLabel, .label elseLabel] ++ elseCode ++ [.label endLabel]
  | .whileDo c body => do
    let beginLabel ← .mint .loopBegin
    let endLabel ← .mint .loopEnd
    let test ← .reading (c.compile · endLabel)
    let bodyCode ← Stmt.compileAll body
    return [.label beginLabel] ++ test ++ bodyCode ++ [.goto beginLabel, .label endLabel]
  | .forTo x a b body => do
    let init ← .assign x a
    -- The variable is bound by now, so the look-up cannot fail.
    let slot ← .reading (·.lookup x)
    let beginLabel ← .mint .loopBegin
    let endLabel ← .mint .loopEnd
    let test ← .reading ((Cond.compare .less (.var x) b).compile · endLabel)
    let bodyCode ← Stmt.compileAll body
    return init ++ [.label beginLabel] ++ test ++ bodyCode
      ++ [.load slot, .const 1, .arith .add, .store slot, .goto beginLabel, .label endLabel]
  | .read x => return [.readInt, .store (← .bind x)]
  | .write a => return (← .reading a.compile) ++ [.printInt]
  | .print s => return [.text s, .printText]

/-- Code of statements one after the other. -/
def Stmt.compileAll : Block → Compile (List Instr)
  | [] => return []
  | s :: rest => return (← Stmt.compile s) ++ (← Stmt.compileAll rest)

end

/-- Code of a program. -/
def Code.ofProgram (program : Block) : Except CompileError Code :=
  match (Stmt.compileAll program).run .empty with
  | (.ok instrs, ctx) => .ok ⟨instrs, ctx.names.length⟩
  | (.error e, _) => .error e

end WhileLang
