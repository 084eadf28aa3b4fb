import WhileLang.Code.Context

/-!
# Growth of a Context

A compiler only ever hands out more. Names are put behind the names that are
there, so a name that has a slot keeps it, and labels are counted upward, so
a new one is none of the old ones. `Grows` says both of two contexts, and it
is what pieces of code that are compiled one after the other have in common.

A slot belongs to one name, because it is the place where the name stands.

## Main definitions

* `Context.Grows`: Only more is handed out.

## Theorems

* `Context.getElem?_of_slot?`: A slot is the place of its name.
* `Context.slot?_of_grows`: A name keeps its slot.
* `Context.slot?_bind`: A bound name has the slot that it was bound to.
* `Context.mem_names_bind`: The names behind a binding.
* `Context.grows_bind`, `Context.grows_mint`: What handing out amounts to.
-/

namespace WhileLang

namespace Context

variable {ctx ctx' ctx₁ : Context} {x y : String} {k : Nat}

/-- What the first context has handed out, the second one has, and maybe more. -/
structure Grows (ctx ctx' : Context) : Prop where
  /-- New names stand behind the old ones. -/
  names : ctx.names <+: ctx'.names
  labels : ctx.labels ≤ ctx'.labels

/-- A slot is the place of its name. -/
theorem getElem?_of_slot? (h : ctx.slot? x = some k) : ctx.names[k]? = some x := by
  rcases List.idxOf?_eq_some_iff.mp h with ⟨hk, hx, -⟩
  rw [List.getElem?_eq_getElem hk, hx]

theorem mem_of_slot? (h : ctx.slot? x = some k) : x ∈ ctx.names :=
  List.mem_of_getElem? (getElem?_of_slot? h)

theorem exists_slot?_of_mem (h : x ∈ ctx.names) : ∃ k, ctx.slot? x = some k := by
  cases hslot : ctx.slot? x with
  | none => exact absurd h (slot?_eq_none_iff.mp hslot)
  | some k => exact ⟨k, rfl⟩

theorem lt_of_slot? (h : ctx.slot? x = some k) : k < ctx.names.length :=
  (List.getElem?_eq_some_iff.mp (getElem?_of_slot? h)).1

/-- Two names do not have the same slot. -/
theorem eq_of_slot? (hx : ctx.slot? x = some k) (hy : ctx.slot? y = some k) : x = y :=
  Option.some.inj ((getElem?_of_slot? hx).symm.trans (getElem?_of_slot? hy))

theorem grows_refl (ctx : Context) : ctx.Grows ctx :=
  ⟨List.prefix_rfl, Nat.le_refl _⟩

theorem grows_trans (h : ctx.Grows ctx₁) (h' : ctx₁.Grows ctx') : ctx.Grows ctx' :=
  ⟨h.names.trans h'.names, Nat.le_trans h.labels h'.labels⟩

/-- A name keeps its slot. -/
theorem slot?_of_grows (h : ctx.Grows ctx') (hx : ctx.slot? x = some k) : ctx'.slot? x = some k := by
  rcases h.names with ⟨more, hmore⟩
  rw [slot?, List.idxOf?] at hx ⊢
  rw [← hmore, List.findIdx?_append, hx]
  rfl

/-- A name that has a slot is not put again. -/
theorem bind_of_slot? (h : ctx.slot? x = some k) : ctx.bind x = (k, ctx) := by
  rw [bind, h]

/-- A name that has no slot is put at the end. -/
theorem bind_of_slot?_eq_none (h : ctx.slot? x = none) :
    ctx.bind x = (ctx.names.length, { ctx with names := ctx.names ++ [x] }) := by
  rw [bind, h]

/-- Behind a binding those names are bound that were bound before it, and the new one. -/
theorem mem_names_bind : y ∈ (ctx.bind x).2.names ↔ y ∈ ctx.names ∨ y = x := by
  cases h : ctx.slot? x with
  | some k =>
      rw [bind_of_slot? h]
      refine ⟨Or.inl, ?_⟩
      rintro (hy | rfl)
      · exact hy
      · exact mem_of_slot? h
  | none => rw [bind_of_slot?_eq_none h, List.mem_append, List.mem_singleton]

/-- Binding mints no label. -/
theorem labels_bind (ctx : Context) (x : String) : (ctx.bind x).2.labels = ctx.labels := by
  cases h : ctx.slot? x with
  | some k => rw [bind_of_slot? h]
  | none => rw [bind_of_slot?_eq_none h]

theorem grows_bind (ctx : Context) (x : String) : ctx.Grows (ctx.bind x).2 := by
  cases h : ctx.slot? x with
  | some k =>
      rw [bind_of_slot? h]
      exact grows_refl ctx
  | none =>
      rw [bind_of_slot?_eq_none h]
      exact ⟨List.prefix_append _ _, Nat.le_refl _⟩

theorem grows_mint (ctx : Context) (n : Nat) : ctx.Grows ⟨ctx.names, ctx.labels + n⟩ :=
  ⟨List.prefix_rfl, Nat.le_add_right _ _⟩

/-- A bound name has the slot that it was bound to. -/
theorem slot?_bind (ctx : Context) (x : String) :
    (ctx.bind x).2.slot? x = some (ctx.bind x).1 := by
  cases h : ctx.slot? x with
  | some k =>
      rw [bind_of_slot? h]
      exact h
  | none =>
      rw [bind_of_slot?_eq_none h]
      rw [slot?, List.idxOf?] at h ⊢
      rw [List.findIdx?_append, h, List.findIdx?_singleton, if_pos (beq_self_eq_true x)]
      exact congrArg some (Nat.zero_add _)

end Context

end WhileLang
