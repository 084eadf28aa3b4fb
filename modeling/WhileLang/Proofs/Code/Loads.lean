import WhileLang.Proofs.Code.Emits

/-!
# Stores Before Loads

In compiled code a slot is stored to before it is loaded, reading the code
from its beginning and not as it is run. That is so because a name has to be
bound before it may be used: the slots that a context has handed out are the
ones that the code before it stores to, and an expression loads only from
such slots.

`StoresFirst` says this of a piece of code behind other code that stores to
the first so many slots. Pieces follow each other as their contexts do, so
code of a statement is a chain of them.

## Main definitions

* `Code.StoresFirst`: Stores come before loads, some slots given.

## Theorems

* `Code.storesFirst_append`: One piece of code after the other.
* `Arith.load_lt_of_mem_compile`: An expression loads from slots that were
  handed out.
* `Emits.storesFirst`: Emitted code stores before it loads.
* `Emits.exists_store`: The same of code behind which there is no other.
-/

namespace WhileLang

/-- The slot that an instruction loads from. -/
def Instr.loaded? : Instr → Option Nat
  | .load slot => some slot
  | _ => none

namespace Code

variable {n n' n₁ : Nat} {code code' : List Instr}

/-- If the slots below the first number have been stored to, the code loads only what it or the
    code before it has stored, and behind it the slots below the second number have been stored
    to. -/
structure StoresFirst (n : Nat) (code : List Instr) (n' : Nat) : Prop where
  loads : ∀ k slot, code[k]? = some (.load slot) → slot < n ∨ .store slot ∈ code.take k
  stores : ∀ slot, slot < n' → slot < n ∨ .store slot ∈ code

/-- Code that loads from given slots only, with nothing said about its stores. -/
theorem storesFirst_of_load_lt (h : ∀ slot, .load slot ∈ code → slot < n) :
    StoresFirst n code n :=
  ⟨fun _ slot hk => Or.inl (h slot (List.mem_of_getElem? hk)), fun _ hslot => Or.inl hslot⟩

/-- Code that loads nothing. -/
theorem storesFirst_of_loaded?_eq_nil (h : code.filterMap Instr.loaded? = []) :
    StoresFirst n code n := by
  refine storesFirst_of_load_lt fun slot hmem => ?_
  have hslot : slot ∈ code.filterMap Instr.loaded? := List.mem_filterMap.mpr ⟨_, hmem, rfl⟩
  rw [h] at hslot
  cases hslot

/-- A store to the slot that is handed out next. -/
theorem storesFirst_store (slot : Nat) (h : ∀ slot', slot' < n' → slot' < n ∨ slot' = slot) :
    StoresFirst n [.store slot] n' := by
  refine ⟨fun k slot' hk => ?_, fun slot' hslot' => ?_⟩
  · cases List.mem_singleton.mp (List.mem_of_getElem? hk)
  · refine (h slot' hslot').imp_right fun heq => ?_
    rw [heq]
    exact List.mem_cons_self

theorem storesFirst_append (h : StoresFirst n code n₁) (h' : StoresFirst n₁ code' n') :
    StoresFirst n (code ++ code') n' := by
  constructor
  · intro k slot hk
    by_cases hlt : k < code.length
    · rw [List.getElem?_append_left hlt] at hk
      rw [List.take_append_of_le_length (Nat.le_of_lt hlt)]
      exact h.loads k slot hk
    · have hle : code.length ≤ k := Nat.le_of_not_lt hlt
      rw [List.getElem?_append_right hle] at hk
      rw [List.take_append, List.take_of_length_le hle, List.mem_append]
      -- What the second piece finds stored was given or is stored by the first piece.
      rcases h'.loads _ slot hk with hgiven | hstored
      · exact (h.stores slot hgiven).imp_right Or.inl
      · exact Or.inr (Or.inr hstored)
  · intro slot hslot
    rw [List.mem_append]
    rcases h'.stores slot hslot with hgiven | hstored
    · exact (h.stores slot hgiven).imp_right Or.inl
    · exact Or.inr (Or.inr hstored)

end Code

open Code

variable {ctx ctx' : Context} {code : List Instr}

/-- An expression loads from slots that were handed out. -/
theorem Arith.load_lt_of_mem_compile {a : Arith} {slot : Nat} (h : a.compile ctx = .ok code)
    (hmem : .load slot ∈ code) : slot < ctx.names.length := by
  induction a generalizing code with
  | num n =>
      rw [← compile_num_eq_ok.mp h] at hmem
      cases List.mem_singleton.mp hmem
  | var x =>
      rcases compile_var_eq_ok.mp h with ⟨slot', hslot, rfl⟩
      cases List.mem_singleton.mp hmem
      exact Context.lt_of_slot? hslot
  | op o l r ihl ihr =>
      rcases compile_op_eq_ok.mp h with ⟨left, right, hl, hr, rfl⟩
      rcases List.mem_append.mp hmem with hmem | hmem
      · exact (List.mem_append.mp hmem).elim (ihl hl) (ihr hr)
      · cases List.mem_singleton.mp hmem

/-- A condition loads from slots that were handed out. -/
theorem Cond.load_lt_of_mem_compile {c : Cond} {skip : Label} {slot : Nat}
    (h : c.compile ctx skip = .ok code) (hmem : .load slot ∈ code) : slot < ctx.names.length := by
  cases c with
  | const value =>
      cases value with
      | true =>
          rw [← Except.ok.inj h] at hmem
          cases hmem
      | false =>
          rw [← Except.ok.inj h] at hmem
          cases List.mem_singleton.mp hmem
  | compare o l r =>
      rcases compile_compare_eq_ok.mp h with ⟨left, right, hl, hr, rfl⟩
      rcases List.mem_append.mp hmem with hmem | hmem
      · exact (List.mem_append.mp hmem).elim (Arith.load_lt_of_mem_compile hl)
          (Arith.load_lt_of_mem_compile hr)
      · cases List.mem_singleton.mp hmem

/-- A store to the slot of a name that is bound. -/
theorem storesFirst_bind (ctx : Context) (x : String) :
    StoresFirst ctx.names.length [.store (ctx.bind x).1] (ctx.bind x).2.names.length := by
  refine storesFirst_store _ fun slot hslot => ?_
  cases h : ctx.slot? x with
  | some k =>
      rw [Context.bind_of_slot? h] at hslot
      exact Or.inl hslot
  | none =>
      rw [Context.bind_of_slot?_eq_none h] at hslot ⊢
      rw [List.length_append, List.length_singleton] at hslot
      omega

namespace Emits

/-- Emitted code stores before it loads. -/
theorem storesFirst {b : Block} (h : Emits ctx b code ctx') :
    StoresFirst ctx.names.length code ctx'.names.length := by
  induction h with
  | nil => exact storesFirst_of_loaded?_eq_nil rfl
  | append _ _ ih ih' => exact storesFirst_append ih ih'
  | skip => exact storesFirst_of_loaded?_eq_nil rfl
  | @assign ctx _ _ x hvalue =>
      exact storesFirst_append
        (storesFirst_of_load_lt fun slot => Arith.load_lt_of_mem_compile hvalue)
        (storesFirst_bind ctx x)
  | ifElse htest _ _ iht ihe =>
      have htestCode := storesFirst_of_load_lt fun slot => Cond.load_lt_of_mem_compile htest
      -- The jump over the second block and the labels load nothing.
      refine storesFirst_append (storesFirst_append (storesFirst_append
        (storesFirst_append htestCode iht) ?_) ihe) ?_
      · exact storesFirst_of_loaded?_eq_nil rfl
      · exact storesFirst_of_loaded?_eq_nil rfl
  | whileDo htest _ ih =>
      have htestCode := storesFirst_of_load_lt fun slot => Cond.load_lt_of_mem_compile htest
      refine storesFirst_append (storesFirst_append (storesFirst_append ?_ htestCode) ih) ?_
      · exact storesFirst_of_loaded?_eq_nil rfl
      · exact storesFirst_of_loaded?_eq_nil rfl
  | forTo _ ih => exact ih
  | read ctx x =>
      have hread : StoresFirst ctx.names.length [.readInt] ctx.names.length :=
        storesFirst_of_loaded?_eq_nil rfl
      exact storesFirst_append hread (storesFirst_bind ctx x)
  | write hvalue =>
      exact storesFirst_append
        (storesFirst_of_load_lt fun slot => Arith.load_lt_of_mem_compile hvalue)
        (storesFirst_of_loaded?_eq_nil rfl)
  | print => exact storesFirst_of_loaded?_eq_nil rfl

/-- Emitted code that starts from nothing has a store before each of its loads. -/
theorem exists_store {b : Block} {k slot : Nat} (h : Emits .empty b code ctx')
    (hk : code[k]? = some (.load slot)) : ∃ j, j < k ∧ code[j]? = some (.store slot) := by
  rcases h.storesFirst.loads k slot hk with hgiven | hstored
  · exact absurd hgiven (Nat.not_lt_zero slot)
  · rcases List.mem_iff_getElem?.mp hstored with ⟨j, hj⟩
    rw [List.getElem?_take] at hj
    split at hj
    · exact ⟨j, ‹_›, hj⟩
    · cases hj

end Emits

end WhileLang
