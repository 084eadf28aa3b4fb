import WhileLang.Proofs.Code.Emits

/-!
# Variables in the Order of the Text

Where the variables of a program stand, from left to right, and what a reader
finds who goes through them with the names in hand that are bound so far. A
name that is bound is kept for the rest; a name that is used and is not bound
ends the walk. No code occurs here.

The compiler does the same and emits code meanwhile, and it keeps what it has
found when it fails. `Walks` says of a piece of compilation that it goes
through certain occurrences, whether it succeeds or not: the names behind it
are those of the walk, it fails exactly where the walk ends early, and labels
are only ever added. Pieces that follow each other walk through their
occurrences one after the other, so the statement about blocks,
`walks_compileAll`, is an induction without a look at failure.

A counting loop looks its variable up twice more than the text names it. Both
times the variable has just been bound, so the walk is the same without them.

## Main definitions

* `Occurrence`: A variable that is used or bound.
* `Stmt.occurrences`, `Stmt.occurrencesAll`: The variables of a program.
* `Occurrence.walk`: The names bound behind occurrences, and where they end.
* `Compile.WalksFrom`, `Compile.Walks`: A compilation goes through occurrences,
  from one context or from any.

## Theorems

* `Occurrence.walk_append`: One walk after the other.
* `Occurrence.nodup_walk`, `Occurrence.prefix_walk`: Names are only added, and
  none twice.
* `Arith.compile_eq_error_iff`, `Cond.compile_eq_error_iff`: Where expressions
  and conditions fail.
* `walks_compileAll`: Compiling a block goes through its variables.
* `Compile.WalksFrom.grows`: It only hands out more, even if it fails.
-/

namespace WhileLang

/-- A variable in a program. -/
inductive Occurrence where
  /-- The value of the variable is asked for. -/
  | use (name : String)
  /-- The variable is given a value. -/
  | bind (name : String)
deriving DecidableEq, Repr

/-- The variables of an expression. -/
def Arith.occurrences : Arith → List Occurrence
  | .num _ => []
  | .var x => [.use x]
  | .op _ l r => l.occurrences ++ r.occurrences

/-- The variables of a condition. -/
def Cond.occurrences : Cond → List Occurrence
  | .const _ => []
  | .compare _ l r => l.occurrences ++ r.occurrences

mutual

/-- The variables of a statement. -/
def Stmt.occurrences : Stmt → List Occurrence
  | .skip | .print _ => []
  -- The right-hand side comes before the name.
  | .assign x a => a.occurrences ++ [.bind x]
  | .ifElse c t e => c.occurrences ++ Stmt.occurrencesAll t ++ Stmt.occurrencesAll e
  | .whileDo c body => c.occurrences ++ Stmt.occurrencesAll body
  | .forTo x a b body =>
    a.occurrences ++ .bind x :: b.occurrences ++ Stmt.occurrencesAll body
  | .read x => [.bind x]
  | .write a => a.occurrences

/-- The variables of statements one after the other. -/
def Stmt.occurrencesAll : Block → List Occurrence
  | [] => []
  | s :: rest => Stmt.occurrences s ++ Stmt.occurrencesAll rest

end

namespace Occurrence

/-- The names that are bound behind the occurrences, in the order in which they were bound first,
    and the name that is used unbound, if there is one. The walk ends there. -/
def walk : List Occurrence → List String → List String × Option String
  | [], names => (names, none)
  | .use x :: rest, names => if x ∈ names then walk rest names else (names, some x)
  | .bind x :: rest, names => walk rest (if x ∈ names then names else names ++ [x])

variable {os os' : List Occurrence} {names : List String} {x : String}

/-- A walk that ends early ends a longer one as well. -/
theorem walk_append_of_some (h : (walk os names).2 = some x) :
    walk (os ++ os') names = walk os names := by
  fun_induction walk os names with
  | case1 => cases h
  | case2 y rest names hy ih => rw [List.cons_append, walk, if_pos hy, ih h]
  | case3 y rest names hy => rw [List.cons_append, walk, if_neg hy]
  | case4 y rest names ih => rw [List.cons_append, walk, ih h]

/-- One walk after the other. -/
theorem walk_append (h : (walk os names).2 = none) :
    walk (os ++ os') names = walk os' (walk os names).1 := by
  fun_induction walk os names with
  | case1 => rfl
  | case2 y rest names hy ih => rw [List.cons_append, walk, if_pos hy, ih h]
  | case3 => cases h
  | case4 y rest names ih => rw [List.cons_append, walk, ih h]

/-- Walks that are the same are so behind other occurrences. -/
theorem walk_append_congr (before : List Occurrence)
    (h : ∀ names, walk os names = walk os' names) (names : List String) :
    walk (before ++ os) names = walk (before ++ os') names := by
  cases hbefore : (walk before names).2 with
  | some x => rw [walk_append_of_some hbefore, walk_append_of_some hbefore]
  | none => rw [walk_append hbefore, walk_append hbefore, h]

/-- A name that has just been bound may be used. -/
theorem walk_bind_use (x : String) (os : List Occurrence) (names : List String) :
    walk (.bind x :: .use x :: os) names = walk (.bind x :: os) names := by
  have hmem : x ∈ if x ∈ names then names else names ++ [x] := by
    split
    · assumption
    · exact List.mem_append_right names List.mem_cons_self
  rw [walk, walk, if_pos hmem, walk]

/-- Names are put behind those that are bound already. -/
theorem prefix_walk (os : List Occurrence) (names : List String) : names <+: (walk os names).1 := by
  fun_induction walk os names with
  | case1 | case3 => exact List.prefix_rfl
  | case2 _ _ _ _ ih => exact ih
  | case4 y rest names ih =>
      refine List.IsPrefix.trans ?_ ih
      split
      · exact List.prefix_rfl
      · exact List.prefix_append names [y]

/-- No name is put twice. -/
theorem nodup_walk (os : List Occurrence) (h : names.Nodup) : (walk os names).1.Nodup := by
  fun_induction walk os names with
  | case1 | case3 => exact h
  | case2 _ _ _ _ ih => exact ih h
  | case4 y rest names ih =>
      refine ih ?_
      split
      · exact h
      · next hy =>
        exact (List.perm_append_singleton y names).nodup_iff.mpr (List.nodup_cons.mpr ⟨hy, h⟩)

end Occurrence

open Occurrence

/-- Going through the variables of an expression binds nothing. -/
theorem Arith.walk_fst (a : Arith) (names : List String) :
    (walk a.occurrences names).1 = names := by
  induction a with
  | num n => rfl
  | var x =>
      rw [occurrences, walk]
      split <;> rfl
  | op o l r ihl ihr =>
      rw [occurrences]
      cases hl : (walk l.occurrences names).2 with
      | some x => rw [walk_append_of_some hl, ihl]
      | none => rw [walk_append hl, ihl, ihr]

/-- Going through the variables of a condition binds nothing. -/
theorem Cond.walk_fst (c : Cond) (names : List String) :
    (walk c.occurrences names).1 = names := by
  cases c with
  | const value => rfl
  | compare o l r => exact (Arith.op .add l r).walk_fst names

namespace Compile

variable {α β : Type} {os os' : List Occurrence}

/-- From that context on, the compilation goes through the occurrences, and it fails where their
    walk ends early. -/
structure WalksFrom (ctx : Context) (act : Compile α) (os : List Occurrence) : Prop where
  names : (act.run ctx).2.names = (walk os ctx.names).1
  fails : ∀ x,
    (act.run ctx).1 = .error (.undefinedVariable x) ↔ (walk os ctx.names).2 = some x
  /-- What was minted stays minted. -/
  labels : ctx.labels ≤ (act.run ctx).2.labels

/-- The compilation goes through the occurrences, whatever is bound before. -/
def Walks (act : Compile α) (os : List Occurrence) : Prop :=
  ∀ ctx, WalksFrom ctx act os

section From

variable {ctx ctx' : Context} {act : Compile α}

/-- A compilation only hands out more, even if it fails. -/
theorem WalksFrom.grows (h : WalksFrom ctx act os) : ctx.Grows (act.run ctx).2 := by
  refine ⟨?_, h.labels⟩
  rw [h.names]
  exact prefix_walk os ctx.names

/-- If it succeeds, the walk is complete. -/
theorem WalksFrom.walk_eq_none (h : WalksFrom ctx act os) {a : α}
    (hrun : act.run ctx = (.ok a, ctx')) : (walk os ctx.names).2 = none := by
  cases hwalk : (walk os ctx.names).2 with
  | none => rfl
  | some x =>
      have hfail := (h.fails x).mpr hwalk
      rw [hrun] at hfail
      cases hfail

end From

/-- What succeeds does not fail at a name. -/
theorem ok_eq_error_iff {a : α} {x : String} :
    (Except.ok a : Except CompileError α) = .error (.undefinedVariable x) ↔ none = some x :=
  iff_of_false (fun h => nomatch h) (fun h => nomatch h)

theorem walks_pure (a : α) : Walks (pure a : Compile α) [] :=
  fun _ => ⟨rfl, fun _ => ok_eq_error_iff, Nat.le_refl _⟩

theorem walks_mint (kind : LabelKind) : Walks (mint kind) [] :=
  fun ctx => ⟨rfl, fun _ => ok_eq_error_iff, Nat.le_succ ctx.labels⟩

theorem walks_bind_name (x : String) : Walks (Compile.bind x) [.bind x] := by
  intro ctx
  refine ⟨?_, fun _ => ok_eq_error_iff, (ctx.grows_bind x).labels⟩
  change (ctx.bind x).2.names = if x ∈ ctx.names then ctx.names else ctx.names ++ [x]
  cases hslot : ctx.slot? x with
  | some slot =>
      rw [Context.bind_of_slot? hslot, if_pos (Context.mem_of_slot? hslot)]
  | none =>
      rw [Context.bind_of_slot?_eq_none hslot, if_neg (Context.slot?_eq_none_iff.mp hslot)]

/-- Code that only looks names up goes through the names that it looks up. -/
theorem walks_reading {f : Context → Except CompileError α}
    (hnames : ∀ names, (walk os names).1 = names)
    (hfails : ∀ ctx x, f ctx = .error (.undefinedVariable x) ↔ (walk os ctx.names).2 = some x) :
    Walks (reading f) os :=
  fun ctx => ⟨(hnames ctx.names).symm, hfails ctx, Nat.le_refl _⟩

/-- One compilation after the other. -/
theorem walks_bind {act : Compile α} {next : α → Compile β} (h : Walks act os)
    (h' : ∀ a, Walks (next a) os') : Walks (act >>= next) (os ++ os') := by
  intro ctx
  rcases h ctx with ⟨hnames, hfails, hlabels⟩
  rcases hrun : act.run ctx with ⟨⟨⟨x⟩⟩ | a, ctx'⟩ <;> rw [hrun] at hnames hfails hlabels
  -- If the first part fails, the walk ends there too.
  · have hend : walk (os ++ os') ctx.names = walk os ctx.names :=
      walk_append_of_some ((hfails x).mp rfl)
    refine ⟨?_, fun y => ?_, ?_⟩ <;> rw [run_bind, hrun]
    · rw [hend]
      exact hnames
    · rw [hend, ← hfails y]
      simp only [Except.error.injEq]
    · exact hlabels
  · have hgoes : walk (os ++ os') ctx.names = walk os' (walk os ctx.names).1 :=
      walk_append ((h ctx).walk_eq_none hrun)
    rcases h' a ctx' with ⟨hnames', hfails', hlabels'⟩
    rw [hnames] at hnames' hfails'
    refine ⟨?_, fun y => ?_, ?_⟩ <;> rw [run_bind, hrun]
    · rw [hgoes]
      exact hnames'
    · rw [hgoes]
      exact hfails' y
    · exact Nat.le_trans hlabels hlabels'

/-- What is made of a result has no occurrences. -/
theorem walks_map {act : Compile α} (f : α → β) (h : Walks act os) :
    Walks (do return f (← act)) os := by
  have hall := walks_bind h fun a => walks_pure (f a)
  rwa [List.append_nil] at hall

theorem walks_mint_bind {kind : LabelKind} {next : Label → Compile β}
    (h : ∀ l, Walks (next l) os) : Walks (mint kind >>= next) os :=
  walks_bind (walks_mint kind) h

/-- Occurrences may be exchanged for others with the same walk. -/
theorem Walks.congr {act : Compile α} (h : Walks act os)
    (hwalk : ∀ names, walk os names = walk os' names) : Walks act os' := by
  intro ctx
  rcases h ctx with ⟨hnames, hfails, hlabels⟩
  rw [hwalk] at hnames hfails
  exact ⟨hnames, hfails, hlabels⟩

end Compile

open Compile

/-- A name is looked up where it is used. -/
theorem Context.lookup_eq_error_iff (ctx : Context) (x y : String) :
    ctx.lookup x = .error (.undefinedVariable y) ↔ (walk [.use x] ctx.names).2 = some y := by
  rw [Context.lookup, walk]
  cases hslot : ctx.slot? x with
  | some slot =>
      rw [if_pos (Context.mem_of_slot? hslot)]
      exact ok_eq_error_iff
  | none =>
      rw [if_neg (Context.slot?_eq_none_iff.mp hslot)]
      simp only [Except.error.injEq, CompileError.undefinedVariable.injEq, Option.some.injEq]

/-- Two operands and an instruction behind them fail where the operands do, the left one first. -/
theorem compile_operands_eq_error_iff {ctx : Context} {l r : Arith} {i : Instr}
    (hl : ∀ x, l.compile ctx = .error (.undefinedVariable x) ↔
      (walk l.occurrences ctx.names).2 = some x)
    (hr : ∀ x, r.compile ctx = .error (.undefinedVariable x) ↔
      (walk r.occurrences ctx.names).2 = some x) (x : String) :
    (do return (← l.compile ctx) ++ (← r.compile ctx) ++ [i] : Except CompileError (List Instr))
        = .error (.undefinedVariable x) ↔
      (walk (l.occurrences ++ r.occurrences) ctx.names).2 = some x := by
  rcases hlrun : l.compile ctx with ⟨⟨y⟩⟩ | left
  · rw [walk_append_of_some ((hl y).mp hlrun), ← hl x, hlrun]
    rfl
  · have hnone : (walk l.occurrences ctx.names).2 = none := by
      refine Option.eq_none_iff_forall_ne_some.mpr fun y hy => ?_
      cases hlrun.symm.trans ((hl y).mpr hy)
    rw [walk_append hnone, l.walk_fst, ← hr x]
    cases r.compile ctx with
    | error e => rfl
    | ok right => exact iff_of_false (fun h => nomatch h) (fun h => nomatch h)

/-- An expression fails at the first name in it that is not bound. -/
theorem Arith.compile_eq_error_iff (a : Arith) (ctx : Context) (x : String) :
    a.compile ctx = .error (.undefinedVariable x) ↔ (walk a.occurrences ctx.names).2 = some x := by
  induction a generalizing x with
  | num n => exact ok_eq_error_iff
  | var y =>
      rw [occurrences, ← Context.lookup_eq_error_iff, Arith.compile]
      cases ctx.lookup y with
      | error e =>
          change Except.error e = _ ↔ _
          simp only [Except.error.injEq]
      | ok slot =>
          constructor <;> intro h <;> cases h
  | op o l r ihl ihr => exact compile_operands_eq_error_iff ihl ihr x

/-- A condition fails at the first name in it that is not bound. -/
theorem Cond.compile_eq_error_iff (c : Cond) (ctx : Context) (skip : Label) (x : String) :
    c.compile ctx skip = .error (.undefinedVariable x) ↔
      (walk c.occurrences ctx.names).2 = some x := by
  cases c with
  | const value => cases value <;> exact ok_eq_error_iff
  | compare o l r =>
      exact compile_operands_eq_error_iff (l.compile_eq_error_iff ctx)
        (r.compile_eq_error_iff ctx) x

/-- A counting loop looks its variable up twice when it has just bound it. -/
theorem walk_counting (x : String) (a b : Arith) (os : List Occurrence) (names : List String) :
    walk (a.occurrences ++ [.bind x]
        ++ ([.use x] ++ ((Cond.compare .less (.var x) b).occurrences ++ os))) names
      = walk (a.occurrences ++ .bind x :: b.occurrences ++ os) names := by
  rw [List.append_assoc, List.append_assoc]
  refine walk_append_congr a.occurrences (fun names => ?_) names
  change walk (.bind x :: .use x :: .use x :: (b.occurrences ++ os)) names = _
  rw [walk_bind_use, walk_bind_use, List.cons_append]

theorem walks_arith (a : Arith) : Walks (reading a.compile) a.occurrences :=
  walks_reading a.walk_fst a.compile_eq_error_iff

theorem walks_cond (c : Cond) (skip : Label) :
    Walks (reading (c.compile · skip)) c.occurrences :=
  walks_reading c.walk_fst fun ctx => c.compile_eq_error_iff ctx skip

theorem walks_lookup (x : String) : Walks (reading (·.lookup x)) [.use x] :=
  walks_reading (Arith.var x).walk_fst fun ctx => ctx.lookup_eq_error_iff x

theorem walks_assign (x : String) (a : Arith) :
    Walks (Compile.assign x a) (a.occurrences ++ [.bind x]) :=
  walks_bind (walks_arith a) fun _ => walks_map _ (walks_bind_name x)

mutual

/-- Compiling a statement goes through its variables. -/
theorem walks_compile : ∀ s : Stmt, Walks (Stmt.compile s) s.occurrences
  | .skip => by
      rw [Stmt.compile, Stmt.occurrences]
      exact walks_pure []
  | .assign x a => by
      rw [Stmt.compile, Stmt.occurrences]
      exact walks_assign x a
  | .ifElse c t e => by
      rw [Stmt.compile, Stmt.occurrences, List.append_assoc]
      refine walks_mint_bind fun elseLabel => walks_mint_bind fun endLabel => ?_
      refine walks_bind (walks_cond c elseLabel) fun test => ?_
      exact walks_bind (walks_compileAll t) fun thenCode => walks_map _ (walks_compileAll e)
  | .whileDo c body => by
      rw [Stmt.compile, Stmt.occurrences]
      refine walks_mint_bind fun beginLabel => walks_mint_bind fun endLabel => ?_
      exact walks_bind (walks_cond c endLabel) fun test => walks_map _ (walks_compileAll body)
  | .forTo x a b body => by
      rw [Stmt.compile, Stmt.occurrences]
      refine Walks.congr (walks_bind (walks_assign x a) fun init => ?_) (walk_counting x a b _)
      refine walks_bind (walks_lookup x) fun slot => ?_
      refine walks_mint_bind fun beginLabel => walks_mint_bind fun endLabel => ?_
      exact walks_bind (walks_cond _ endLabel) fun test => walks_map _ (walks_compileAll body)
  | .read x => by
      rw [Stmt.compile, Stmt.occurrences]
      exact walks_map _ (walks_bind_name x)
  | .write a => by
      rw [Stmt.compile, Stmt.occurrences]
      exact walks_map _ (walks_arith a)
  | .print s => by
      rw [Stmt.compile, Stmt.occurrences]
      exact walks_pure _

/-- Compiling a block goes through its variables. -/
theorem walks_compileAll : ∀ b : Block, Walks (Stmt.compileAll b) (Stmt.occurrencesAll b)
  | [] => by
      rw [Stmt.compileAll, Stmt.occurrencesAll]
      exact walks_pure []
  | s :: rest => by
      rw [Stmt.compileAll, Stmt.occurrencesAll]
      exact walks_bind (walks_compile s) fun first => walks_map _ (walks_compileAll rest)

end

end WhileLang
