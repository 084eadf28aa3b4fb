import WhileLang.Code.Basic

/-!
# Slots and Labels

What a compiler has handed out so far. A variable gets a slot when it is
first bound, the next free one, and keeps it; a label gets the next number.
Nothing is ever taken back, not even when compilation fails, so whatever is
compiled later with the same context cannot clash with what came before.

## Main definitions

* `Context`: The bound names in the order of their slots, and the labels so far.
* `Context.slot?`: The slot of a name.
* `Context.bind`: The slot of a name, handed out if need be.
* `Context.mint`: A new label.

## Theorems

* `Context.slot?_eq_none_iff`: A name has a slot if and only if it is bound.
* `Context.nodup_bind`: Binding does not put a name twice.
-/

namespace WhileLang

/-- What a compiler has handed out so far. -/
structure Context where
  /-- The bound names; the slot of a name is its place here. -/
  names : List String
  labels : Nat
deriving DecidableEq, Repr

namespace Context

/-- Nothing is handed out. -/
def empty : Context := ⟨[], 0⟩

/-- The slot of a name. -/
def slot? (ctx : Context) (name : String) : Option Nat :=
  ctx.names.idxOf? name

/-- The slot of a name, the next free one if it has none yet. -/
def bind (name : String) (ctx : Context) : Nat × Context :=
  match ctx.slot? name with
  | some slot => (slot, ctx)
  | none => (ctx.names.length, { ctx with names := ctx.names ++ [name] })

/-- A new label. -/
def mint (kind : LabelKind) (ctx : Context) : Label × Context :=
  (⟨kind, ctx.labels + 1⟩, { ctx with labels := ctx.labels + 1 })

/-- A name has a slot if and only if it is bound. -/
theorem slot?_eq_none_iff {ctx : Context} {name : String} :
    ctx.slot? name = none ↔ name ∉ ctx.names := by
  simp [slot?]

/-- Binding does not put a name twice. -/
theorem nodup_bind {ctx : Context} (name : String) (h : ctx.names.Nodup) :
    (ctx.bind name).2.names.Nodup := by
  rw [bind]
  split
  · exact h
  · next hn =>
    rw [slot?_eq_none_iff] at hn
    -- The name that is put at the end is none of those before it.
    refine List.nodup_append.mpr ⟨h, List.pairwise_singleton _ _, fun a ha b hb hab => hn ?_⟩
    rw [← List.mem_singleton.mp hb, ← hab]
    exact ha

end Context

end WhileLang
