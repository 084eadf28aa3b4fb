import Mathlib.Data.List.Nodup
import Mathlib.Data.Set.Function
import Mathlib.Order.Interval.Set.Defs
import WhileLang.Proofs.Assembly.Operands
import WhileLang.Proofs.Code.Labels
import WhileLang.Proofs.Code.Occurrences

/-!
# One Context for Many Blocks

A context outlives the block that is compiled with it, and it does so even if
the block cannot be compiled. So blocks can be given to the compiler one
after the other, as a prompt would do, and each of them sees the variables of
those before it, also of one that failed halfway.

What holds of the context then holds after every call, because each call
starts where the one before it stopped. The slots number the names that the
texts so far have bound, and a name keeps its number. Labels differ across
all of the code that was returned, and their names as written do too. A jump
stays within the block that it was compiled for.

A call that fails returns no code. The labels that it minted are lost, and
the names that it bound are not.

## Main definitions

* `Call`: A result of the compiler, and the context behind it.
* `Stmt.compileEach`: Blocks compiled with the same context.
* `boundBy`: The names that texts bind.
* `Context.Numbers`: The slots number the names.

## Theorems

* `Call.wellLabelled_of`: One call, whether it fails or not.
* `Context.numbers_names`: Slots number the names of a context.
* `exists_wellLabelled_compileEach`: The labels of all calls together.
* `Stmt.compileEach_invariant`: What holds after every call.
-/

namespace WhileLang

/-- What a call of the compiler returned, and the context that it left behind. -/
structure Call where
  result : Except CompileError (List Instr)
  context : Context

namespace Call

/-- A block compiled with a context. -/
def of (ctx : Context) (b : Block) : Call :=
  ⟨((Stmt.compileAll b).run ctx).1, ((Stmt.compileAll b).run ctx).2⟩

/-- The code that a call returned, which is none if it failed. -/
def code (call : Call) : List Instr :=
  match call.result with
  | .ok code => code
  | .error _ => []

end Call

/-- Blocks compiled one after the other with the same context, whatever becomes of each. -/
def Stmt.compileEach (ctx : Context) : List Block → List Call
  | [] => []
  | b :: rest => Call.of ctx b :: compileEach (Call.of ctx b).context rest

/-- The names that texts bind one after the other, each as far as it is reached. -/
def boundBy (names : List String) (blocks : List Block) : List String :=
  blocks.foldl (fun names b => (Occurrence.walk (Stmt.occurrencesAll b) names).1) names

/-- The slots are those names, numbered without a gap, and no other name has one. -/
structure Context.Numbers (ctx : Context) (names : List String) : Prop where
  bijective : Set.BijOn ctx.slot? {x | x ∈ names} (some '' Set.Iio ctx.names.length)
  unbound : ∀ x, x ∉ names → ctx.slot? x = none

/-- Slots number the names of a context, if none is put twice. -/
theorem Context.numbers_names {ctx : Context} (h : ctx.names.Nodup) : ctx.Numbers ctx.names := by
  refine ⟨⟨?_, ?_, ?_⟩, fun x hx => slot?_eq_none_iff.mpr hx⟩
  · intro x hx
    cases hslot : ctx.slot? x with
    | none => exact absurd hx (slot?_eq_none_iff.mp hslot)
    | some k => exact ⟨k, lt_of_slot? hslot, rfl⟩
  · intro x hx y hy heq
    cases hslot : ctx.slot? x with
    | none => exact absurd hx (slot?_eq_none_iff.mp hslot)
    | some k => exact eq_of_slot? hslot (heq.symm.trans hslot)
  · rintro _ ⟨k, hk, rfl⟩
    refine ⟨ctx.names[k], List.getElem_mem hk, ?_⟩
    refine List.idxOf?_eq_some_iff.mpr ⟨hk, rfl, fun j hj heq => ?_⟩
    exact Nat.ne_of_lt hj ((h.getElem_inj_iff).mp heq)

namespace Call

variable (ctx : Context) (b : Block)

theorem names_of : (of ctx b).context.names
    = (Occurrence.walk (Stmt.occurrencesAll b) ctx.names).1 :=
  (walks_compileAll b ctx).names

/-- A call only hands out more, even if it fails. -/
theorem grows_of : ctx.Grows (of ctx b).context :=
  (walks_compileAll b ctx).grows

/-- Code that is returned is well labelled, between the contexts of the call. -/
theorem wellLabelled_of : WellLabelled ctx (of ctx b).code (of ctx b).context := by
  rw [code]
  split
  · next code hresult => exact (emits_compileAll b (Prod.ext hresult rfl)).wellLabelled
  · exact wellLabelled_of_nil rfl rfl

end Call

section Each

variable {ctx : Context} {blocks : List Block} {call : Call}

/-- Every call has the context only grown. -/
theorem grows_compileEach (h : call ∈ Stmt.compileEach ctx blocks) : ctx.Grows call.context := by
  induction blocks generalizing ctx with
  | nil => cases h
  | cons b rest ih =>
      rcases List.mem_cons.mp h with rfl | h
      · exact Call.grows_of ctx b
      · exact Context.grows_trans (Call.grows_of ctx b) (ih h)

/-- A later call has the context of an earlier one grown. -/
theorem pairwise_compileEach (ctx : Context) (blocks : List Block) :
    (Stmt.compileEach ctx blocks).Pairwise fun c c' => c.context.Grows c'.context := by
  induction blocks generalizing ctx with
  | nil => exact List.Pairwise.nil
  | cons b rest ih =>
      exact List.pairwise_cons.mpr ⟨fun call h => grows_compileEach h, ih _⟩

/-- After a call those names are bound that the texts up to it bind. -/
theorem names_compileEach {k : Nat} (h : (Stmt.compileEach ctx blocks)[k]? = some call) :
    call.context.names = boundBy ctx.names (blocks.take (k + 1)) := by
  induction blocks generalizing ctx k with
  | nil => cases h
  | cons b rest ih =>
      rw [List.take_succ_cons, boundBy, List.foldl_cons, ← Call.names_of]
      cases k with
      | zero =>
          cases h
          rfl
      | succ k => exact ih h

theorem nodup_boundBy {names : List String} (h : names.Nodup) (blocks : List Block) :
    (boundBy names blocks).Nodup := by
  induction blocks generalizing names with
  | nil => exact h
  | cons b rest ih => exact ih (Occurrence.nodup_walk _ h)

theorem wellLabelled_of_mem (h : call ∈ Stmt.compileEach ctx blocks) :
    ∃ ctx', WellLabelled ctx' call.code call.context := by
  induction blocks generalizing ctx with
  | nil => cases h
  | cons b rest ih =>
      rcases List.mem_cons.mp h with rfl | h
      · exact ⟨ctx, Call.wellLabelled_of ctx b⟩
      · exact ih h

/-- All code that is returned is well labelled as if it were one piece. -/
theorem exists_wellLabelled_compileEach (ctx : Context) (blocks : List Block) :
    ∃ ctx', ctx.Grows ctx' ∧
      WellLabelled ctx ((Stmt.compileEach ctx blocks).flatMap Call.code) ctx' := by
  induction blocks generalizing ctx with
  | nil => exact ⟨ctx, ctx.grows_refl, wellLabelled_of_nil rfl rfl⟩
  | cons b rest ih =>
      rcases ih (Call.of ctx b).context with ⟨ctx', hgrows, hrest⟩
      have hfirst := Call.grows_of ctx b
      exact ⟨ctx', Context.grows_trans hfirst hgrows,
        wellLabelled_append hfirst hgrows (Call.wellLabelled_of ctx b) hrest⟩

end Each

/-- What holds after every call of the compiler with one context, which is new at first: the slots
    number the names bound so far, no name loses its slot, no two labels of all the code are the
    same or written the same, and a jump leads to the one place in its own block that has its
    label. -/
theorem Stmt.compileEach_invariant (blocks : List Block) :
    (∀ (k : Nat) (call : Call), (Stmt.compileEach .empty blocks)[k]? = some call →
      call.context.Numbers (boundBy [] (blocks.take (k + 1)))) ∧
    ((Stmt.compileEach .empty blocks).Pairwise fun call later =>
      ∀ x slot, call.context.slot? x = some slot → later.context.slot? x = some slot) ∧
    (Code.marks ((Stmt.compileEach .empty blocks).flatMap Call.code)).Nodup ∧
    ((Code.marks ((Stmt.compileEach .empty blocks).flatMap Call.code)).map Label.display).Nodup ∧
    ∀ call ∈ Stmt.compileEach .empty blocks, ∀ code, call.result = .ok code →
      ∀ l ∈ Code.targets code, (Code.marks code).count l = 1 := by
  rcases exists_wellLabelled_compileEach .empty blocks with ⟨ctx, -, hall⟩
  have hmarks := List.Nodup.of_map Label.id hall.distinct
  refine ⟨?_, ?_, hmarks, hmarks.map Label.display_injective, ?_⟩
  · intro k call hcall
    have hnames := names_compileEach hcall
    have hnodup := nodup_boundBy List.nodup_nil (blocks.take (k + 1))
    rw [show boundBy [] (blocks.take (k + 1)) = call.context.names from hnames.symm] at hnodup ⊢
    exact Context.numbers_names hnodup
  · refine (pairwise_compileEach .empty blocks).imp fun hgrows x slot hslot => ?_
    exact Context.slot?_of_grows hgrows hslot
  · intro call hcall code hresult l hl
    rcases wellLabelled_of_mem hcall with ⟨ctx', hlabels⟩
    rw [Call.code, hresult] at hlabels
    exact List.count_eq_one_of_mem (List.Nodup.of_map Label.id hlabels.distinct)
      (hlabels.closed l hl)

/-- The first block fails when it has bound a name and minted two labels. The second one has that
    name, and its labels are new. -/
theorem Stmt.compileEach_invariant_of_failure :
    ∃ failed call, Stmt.compileEach .empty
        [[.assign "x" (.num 1), .ifElse (.const true) [.write (.var "y")] []],
          [.whileDo (.compare .less (.var "x") (.num 2)) [.read "z"]]] = [failed, call] ∧
      failed.result = .error (.undefinedVariable "y") ∧
      call.result = .ok [.label ⟨.loopBegin, 3⟩, .load 0, .const 2, .branch .ge ⟨.loopEnd, 4⟩,
        .readInt, .store 1, .goto ⟨.loopBegin, 3⟩, .label ⟨.loopEnd, 4⟩] ∧
      failed.context.Numbers ["x"] ∧ call.context.Numbers ["x", "z"] := by
  rcases Stmt.compileEach_invariant
    [[.assign "x" (.num 1), .ifElse (.const true) [.write (.var "y")] []],
      [.whileDo (.compare .less (.var "x") (.num 2)) [.read "z"]]] with ⟨hnumbers, -⟩
  exact ⟨_, _, rfl, rfl, rfl, hnumbers 0 _ rfl, hnumbers 1 _ rfl⟩

end WhileLang
