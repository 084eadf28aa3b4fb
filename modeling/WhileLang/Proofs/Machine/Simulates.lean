import WhileLang.Proofs.Code.Growth
import WhileLang.Proofs.Machine.Takes

/-!
# Simulation by the Machine

What it means that code does the same as a piece of a run over the syntax
tree. The slots mirror the variables, by the slots of a context that has all
names of the program, and the streams are the same. Where the piece ends, the
machine gets to the place and the stack that belong to its result. Where it
fails, the machine gets to an instruction that fails with the error that
agrees, and the streams are still the same.

A piece may also stop because it has no fuel left. This says nothing about
the program, but it must not be taken for an end, so the machine is asked to
go on for at least as many steps as the loops had rounds. With this the one
relation covers both directions: a machine that ends within some steps cannot
be simulating a piece that has as much fuel and still runs out of it.

Pieces are put together as the monad puts them together, with
`simulates_bind`. Instructions that touch neither slots nor streams only move
the machine, and can stand before or behind a piece.

## Main definitions

* `Mirrors`: The slots hold what the variables hold.
* `Agrees`: Two failures are the same.
* `Spot`: A place in the code and what is on the stack there.
* `Moves`: Steps that change only the spot.
* `Follows`: The machine follows a result.
* `Simulates`: The code between two spots does what a piece of a run does.

## Theorems

* `mirrors_start`, `mirrors_set`: Slots at the start and after a store.
* `simulates_bind`: One piece after the other.
* `simulates_of_moves`, `simulates_moves`: Moves before and behind a piece.
* `simulates_ite`, `simulates_repeatWhile`: A choice and a loop, from their
  parts.
-/

namespace WhileLang

/-- The value that the slots hold for a name. -/
def Context.valueIn? (ctx : Context) (slots : Array (Option Int32)) (x : String) : Option Int32 :=
  (ctx.slot? x).bind fun slot => slots[slot]?.join

/-- There is a slot for every name, and the slots hold what the variables hold. -/
structure Mirrors (ctx : Context) (slots : Array (Option Int32)) (env : Env) : Prop where
  /-- There is a slot for every name. -/
  size : slots.size = ctx.names.length
  /-- A variable has the value in its slot. -/
  get? : ∀ x, env.get? x = ctx.valueIn? slots x

/-- The failure of a run and the failure of the machine are the same. -/
inductive Agrees (ctx : Context) : RunError → MachineError → Prop
  | undefinedVariable {x : String} {slot : Nat} :
      ctx.slot? x = some slot → Agrees ctx (.undefinedVariable x) (.uninitializedSlot slot)
  | divisionByZero : Agrees ctx .divisionByZero .divisionByZero
  | stream (e : StreamError) : Agrees ctx (.stream e) (.stream e)

section Mirrors

variable {ctx : Context} {slots : Array (Option Int32)} {env : Env} {x : String} {slot : Nat}

theorem mirrors_start (ctx : Context) :
    Mirrors ctx (Array.replicate ctx.names.length none) .empty := by
  refine ⟨Array.size_replicate, fun x => ?_⟩
  rw [Env.get?_empty, Context.valueIn?]
  cases h : ctx.slot? x with
  | none => rfl
  | some slot =>
      rw [Option.bind_some, Array.getElem?_replicate, if_pos (Context.lt_of_slot? h)]
      rfl

/-- A name that has a slot is set by storing in the slot. -/
theorem mirrors_set (h : Mirrors ctx slots env) (hslot : ctx.slot? x = some slot) (v : Int32) :
    Mirrors ctx (slots.setIfInBounds slot (some v)) (env.set x v) := by
  have hlt : slot < slots.size := by
    rw [h.size]
    exact Context.lt_of_slot? hslot
  refine ⟨?_, fun y => ?_⟩
  · rw [Array.size_setIfInBounds]
    exact h.size
  · rw [Env.get?_set, Context.valueIn?]
    by_cases hy : y = x
    · rw [if_pos hy, hy, hslot, Option.bind_some, Array.getElem?_setIfInBounds_self_of_lt hlt]
      rfl
    · rw [if_neg hy, h.get? y, Context.valueIn?]
      cases hother : ctx.slot? y with
      | none => rfl
      | some other =>
          -- The slot of another name is another slot.
          have hne : slot ≠ other := fun heq => hy (Context.eq_of_slot? hother (heq ▸ hslot))
          rw [Option.bind_some, Option.bind_some, Array.getElem?_setIfInBounds_ne hne]

/-- A variable has a value if and only if its slot holds it. -/
theorem get?_eq_some_iff_of_mirrors (h : Mirrors ctx slots env) {v : Int32} :
    env.get? x = some v ↔ ∃ slot, ctx.slot? x = some slot ∧ slots[slot]? = some (some v) := by
  rw [h.get? x, Context.valueIn?, Option.bind_eq_some_iff]
  simp only [Option.join_eq_some_iff]

end Mirrors

/-- A place in the code and what is on the stack there. -/
structure Spot where
  ip : Nat
  /-- The stack, its top in front. -/
  stack : List Cell

/-- The machine at the spot. -/
abbrev Spot.machine (p : Spot) (slots : Array (Option Int32)) (io : Streams) : Machine :=
  ⟨p.ip, p.stack, slots, io⟩

/-- The machine goes from one spot to the other, and nothing else changes. -/
def Moves (code : Loaded) (n : Nat) (p q : Spot) : Prop :=
  ∀ slots io, code.Takes n (p.machine slots io) (q.machine slots io)

/-- The machine follows a result: to the spot for its value, to a failure that agrees, or for at
    least so many steps if the result is only that the fuel ran out. -/
def Follows {α : Type} (code : Loaded) (ctx : Context) (least : Nat) (m : Machine)
    (goal : α → Spot) : EStateM.Result (Halt RunError) RunState α → Prop
  | .ok a s => ∃ n slots, code.Takes n m ((goal a).machine slots s.io) ∧ Mirrors ctx slots s.env
  | .error (.error e) s =>
    ∃ n m₁ e' m₂, code.Takes n m m₁ ∧ code.Fails m₁ e' m₂ ∧ Agrees ctx e e' ∧ m₂.io = s.io
  | .error .outOfFuel _ => ∃ n m₁, least ≤ n ∧ code.Takes n m m₁

/-- The code from one spot on does what a piece of a run does, and gets to the spot for its
    value. -/
def Simulates {α : Type} (code : Loaded) (ctx : Context) (least : Nat) (start : Spot)
    (act : Exec α) (goal : α → Spot) : Prop :=
  ∀ slots env io, Mirrors ctx slots env →
    Follows code ctx least (start.machine slots io) goal (act ⟨env, io⟩)

section Simulates

variable {α β : Type} {code : Loaded} {ctx : Context} {least n k : Nat} {m m₁ : Machine}
  {start middle stop : Spot} {goal goal' : α → Spot} {act : Exec α}
  {r : EStateM.Result (Halt RunError) RunState α}

/-- Steps before a result is followed count. -/
theorem follows_of_takes (h : code.Takes n m m₁) (hr : Follows code ctx least m₁ goal r) :
    Follows code ctx (n + least) m goal r := by
  rcases r with ⟨a, s⟩ | ⟨e | _, s⟩
  · rcases hr with ⟨k, slots, htakes, hmirrors⟩
    exact ⟨n + k, slots, Loaded.takes_trans h htakes, hmirrors⟩
  · rcases hr with ⟨k, m', e', m₂, htakes, hfails⟩
    exact ⟨n + k, m', e', m₂, Loaded.takes_trans h htakes, hfails⟩
  · rcases hr with ⟨k, m', hk, htakes⟩
    exact ⟨n + k, m', Nat.add_le_add_left hk n, Loaded.takes_trans h htakes⟩

theorem follows_mono (hk : k ≤ least) (hr : Follows code ctx least m goal r) :
    Follows code ctx k m goal r := by
  rcases r with ⟨a, s⟩ | ⟨e | _, s⟩
  · exact hr
  · exact hr
  · rcases hr with ⟨n, m', hn, htakes⟩
    exact ⟨n, m', Nat.le_trans hk hn, htakes⟩

theorem simulates_mono (hk : k ≤ least) (h : Simulates code ctx least start act goal) :
    Simulates code ctx k start act goal :=
  fun slots env io hm => follows_mono hk (h slots env io hm)

theorem simulates_pure (goal : α → Spot) (a : α) :
    Simulates code ctx least (goal a) (pure a) goal :=
  fun slots _ _ hm => ⟨0, slots, rfl, hm⟩

/-- One piece after the other. -/
theorem simulates_bind {next : α → Exec β} {goal' : β → Spot}
    (h : Simulates code ctx least start act goal)
    (hnext : ∀ a, Simulates code ctx least (goal a) (next a) goal') :
    Simulates code ctx least start (act >>= next) goal' := by
  intro slots env io hm
  have hact := h slots env io hm
  change Follows _ _ _ _ _ (EStateM.bind act next ⟨env, io⟩)
  rw [EStateM.bind]
  rcases hres : act ⟨env, io⟩ with ⟨a, s⟩ | ⟨e | _, s⟩
  · rw [hres] at hact
    rcases hact with ⟨n, slots', htakes, hm'⟩
    exact follows_mono (Nat.le_add_left _ _)
      (follows_of_takes htakes (hnext a slots' s.env s.io hm'))
  · rw [hres] at hact
    exact hact
  · rw [hres] at hact
    exact hact

/-- Moves before a piece count. -/
theorem simulates_of_moves_add (h : Moves code n start middle)
    (hact : Simulates code ctx least middle act goal) :
    Simulates code ctx (n + least) start act goal :=
  fun slots env io hm => follows_of_takes (h slots io) (hact slots env io hm)

theorem simulates_of_moves (h : Moves code n start middle)
    (hact : Simulates code ctx least middle act goal) : Simulates code ctx least start act goal :=
  simulates_mono (Nat.le_add_left least n) (simulates_of_moves_add h hact)

/-- Moves behind a piece lead to another spot. -/
theorem simulates_moves (hact : Simulates code ctx least start act goal)
    (h : ∀ a, Moves code n (goal a) (goal' a)) : Simulates code ctx least start act goal' := by
  intro slots env io hm
  have hr := hact slots env io hm
  rcases hres : act ⟨env, io⟩ with ⟨a, s⟩ | ⟨e | _, s⟩
  · rw [hres] at hr
    rcases hr with ⟨k, slots', htakes, hm'⟩
    exact ⟨k + n, slots', Loaded.takes_trans htakes (h a slots' s.io), hm'⟩
  · rw [hres] at hr
    exact hr
  · rw [hres] at hr
    exact hr

theorem moves_trans (h : Moves code n start middle) (h' : Moves code k middle stop) :
    Moves code (n + k) start stop :=
  fun slots io => Loaded.takes_trans (h slots io) (h' slots io)

/-- A choice, from its test and its two sides, with moves behind each side to where both end. -/
theorem simulates_ite {test : Exec Bool} {x y : Exec Unit}
    {first firstEnd second secondEnd : Spot}
    (htest : Simulates code ctx least start test fun b => if b then first else second)
    (hx : Simulates code ctx least first x fun _ => firstEnd) (hleave : Moves code n firstEnd stop)
    (hy : Simulates code ctx least second y fun _ => secondEnd)
    (hleave' : Moves code k secondEnd stop) :
    Simulates code ctx least start (do if ← test then x else y) fun _ => stop := by
  refine simulates_bind htest fun b => ?_
  cases b with
  | true => exact simulates_moves hx fun _ => hleave
  | false => exact simulates_moves hy fun _ => hleave'

/-- A loop, from its test and its body. Each round takes at least the step at its beginning. -/
theorem simulates_repeatWhile {test : Exec Bool} {body : Exec Unit}
    {begin inside bottom outside : Spot} {fuel : Nat} (hbegin : Moves code 1 begin start)
    (htest : Simulates code ctx fuel start test fun b => if b then inside else outside)
    (hbody : Simulates code ctx fuel inside body fun _ => bottom)
    (hback : Moves code n bottom begin) {rounds : Nat} (hrounds : rounds ≤ fuel) :
    Simulates code ctx rounds begin (Exec.repeatWhile test body rounds) fun _ => outside := by
  induction rounds with
  | zero => exact fun slots env io _ => ⟨0, begin.machine slots io, Nat.le_refl 0, rfl⟩
  | succ rounds ih =>
      have hle : rounds ≤ fuel := Nat.le_of_succ_le hrounds
      have hround : Simulates code ctx rounds start (Exec.repeatWhile test body (rounds + 1))
          fun _ => outside := by
        rw [Exec.repeatWhile]
        refine simulates_bind (simulates_mono hle htest) fun b => ?_
        cases b with
        | true =>
            exact simulates_bind (simulates_moves (simulates_mono hle hbody) fun _ => hback)
              fun _ => ih hle
        | false =>
            rw [if_neg Bool.false_ne_true, if_neg Bool.false_ne_true]
            exact simulates_pure (fun _ => outside) ()
      have hcounted := simulates_of_moves_add hbegin hround
      exact simulates_mono (Nat.le_of_eq (Nat.add_comm rounds 1)) hcounted

end Simulates

end WhileLang
