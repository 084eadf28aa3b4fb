import WhileLang.Proofs.Code.Shapes
import WhileLang.Proofs.Machine.Placed
import WhileLang.Proofs.Machine.Takes

/-!
# Compiled Code Keeps the Shape of the Stack

At every moment of a run of compiled code the stack has the shape that
`Code.shapeAt` counts out for the place where the machine is, and there are
as many slots as the code asked for. So the height of the stack and the kinds
of its cells depend on the place alone, however the machine got there, and an
instruction never finds less than it takes, or something of another kind.

The argument is that of an invariant. `Loaded.exec_meets` is one instruction:
given a stack with what it takes on top it leaves what it leaves there, and
goes on behind itself or at a label; and if it fails, then not because of the
stack. `Loaded.step_fits` puts this into shaped code. Next to the label that
a jump leads to the stack is empty, and the jump has just emptied it, so the
shapes agree although the two places have nothing to do with each other.

## Main definitions

* `MachineError.IsStuck`: The failures that compiled code does not have.
* `Meets`: What holds behind a piece of a run that does not get stuck.
* `Loaded.Fits`: Stack and slots are as the place asks for.

## Theorems

* `meets_bind`: One piece after the other.
* `Loaded.exec_meets`: The effect of an instruction on shape and slots.
* `Loaded.step_fits`: One step keeps the invariant.
* `Loaded.takes_fits`: So does any number of steps.
* `Loaded.runFor_fits`: A run ends as it should.
* `Code.ofProgram_wellShaped`: Compiled code is well-formed for the machine.
-/

namespace WhileLang

/-- The machine found something else than the instruction needs, or a jump leads nowhere. -/
def MachineError.IsStuck : MachineError → Prop
  | .stackUnderflow | .expectedInteger _ | .expectedText _ | .undefinedLabel _ => True
  | .uninitializedSlot _ | .divisionByZero | .stream _ => False

/-- The kinds of what is on the stack, the top in front. -/
def Machine.shape (m : Machine) : List CellKind :=
  m.stack.map Cell.kind

/-- A result that holds what it should, or a failure that leaves the slots and is not one of the
    machine getting stuck. -/
def Holds {α : Type} (size : Nat) (post : α → Machine → Prop) :
    EStateM.Result MachineError Machine α → Prop
  | .ok a m => post a m
  | .error e m => ¬ e.IsStuck ∧ m.slots.size = size

/-- What holds behind a piece of a run from the state on. -/
def Meets {α : Type} (size : Nat) (act : Run α) (m : Machine) (post : α → Machine → Prop) : Prop :=
  Holds size post (act m)

section Pieces

variable {α β : Type} {size ip slot : Nat} {act : Run α} {next : α → Run β} {m : Machine}
  {post : β → Machine → Prop} {stack : List Cell} {slots : Array (Option Int32)} {io : Streams}
  {shape : List CellKind}

/-- One piece after the other. -/
theorem meets_bind (h : Meets size act m fun a m₁ => Meets size (next a) m₁ post) :
    Meets size (act >>= next) m post := by
  change Holds size post (EStateM.bind act next m)
  rw [EStateM.bind]
  rw [Meets] at h
  rcases hact : act m with ⟨a, m₁⟩ | ⟨e, m₁⟩
  · rw [hact] at h
    exact h
  · rw [hact] at h
    exact h

/-- Only a stack with a number on top begins with the kind of numbers. -/
theorem map_kind_eq_int_cons (h : stack.map Cell.kind = .int :: shape) :
    ∃ x rest, stack = .int x :: rest ∧ rest.map Cell.kind = shape := by
  rcases List.map_eq_cons_iff.mp h with ⟨cell, rest, rfl, hcell, hrest⟩
  cases cell with
  | int x => exact ⟨x, rest, rfl, hrest⟩
  | text s => cases hcell

/-- Only a stack with a text on top begins with the kind of texts. -/
theorem map_kind_eq_text_cons (h : stack.map Cell.kind = .text :: shape) :
    ∃ s rest, stack = .text s :: rest ∧ rest.map Cell.kind = shape := by
  rcases List.map_eq_cons_iff.mp h with ⟨cell, rest, rfl, hcell, hrest⟩
  cases cell with
  | int x => cases hcell
  | text s => exact ⟨s, rest, rfl, hrest⟩

theorem meets_popInt {post : Int32 → Machine → Prop} (h : stack.map Cell.kind = .int :: shape)
    (hpost : ∀ x rest, rest.map Cell.kind = shape → post x ⟨ip, rest, slots, io⟩) :
    Meets size .popInt ⟨ip, stack, slots, io⟩ post := by
  rcases map_kind_eq_int_cons h with ⟨x, rest, rfl, hrest⟩
  exact hpost x rest hrest

theorem meets_popText {post : String → Machine → Prop} (h : stack.map Cell.kind = .text :: shape)
    (hpost : ∀ s rest, rest.map Cell.kind = shape → post s ⟨ip, rest, slots, io⟩) :
    Meets size .popText ⟨ip, stack, slots, io⟩ post := by
  rcases map_kind_eq_text_cons h with ⟨s, rest, rfl, hrest⟩
  exact hpost s rest hrest

/-- What is done with the streams leaves stack and slots alone. -/
theorem meets_onStreams {act : EStateM StreamError Streams α} {post : α → Machine → Prop}
    (hsize : slots.size = size) (hpost : ∀ a io', post a ⟨ip, stack, slots, io'⟩) :
    Meets size (.onStreams act) ⟨ip, stack, slots, io⟩ post := by
  rw [Meets, Run.onStreams]
  rcases act io with ⟨a, io'⟩ | ⟨e, io'⟩
  · exact hpost a io'
  · exact ⟨not_false, hsize⟩

/-- A slot that is there can be stored in, and no slot is added. -/
theorem meets_store {x : Int32} {post : Unit → Machine → Prop} (hslot : slot < slots.size)
    (hpost : ∀ slots', slots'.size = slots.size → post () ⟨ip, stack, slots', io⟩) :
    Meets size (.store slot x) ⟨ip, stack, slots, io⟩ post := by
  rw [Meets, Run.store, if_pos hslot]
  exact hpost _ Array.size_setIfInBounds

end Pieces

namespace Loaded

variable {code : Loaded} {size ip : Nat} {i : Instr} {rest : List CellKind} {m m' : Machine}

/-- The effect of an instruction on shape and slots, and where it goes on. -/
theorem exec_meets (hshape : m.shape = i.takes ++ rest) (hsize : m.slots.size = size)
    (hstore : ∀ slot, i = .store slot → slot < size)
    (htarget : ∀ l, i.target? = some l → ∃ place, code.place? l = some place) :
    Meets size (code.exec i) m fun _ m' =>
      m'.shape = i.leaves ++ rest ∧ m'.slots.size = size ∧
        (m'.ip = m.ip ∨ ∃ l, i.target? = some l ∧ code.place? l = some m'.ip) := by
  rcases m with ⟨ip, stack, slots, io⟩
  cases i with
  | const n => exact ⟨congrArg (CellKind.int :: ·) hshape, hsize, .inl rfl⟩
  | text s => exact ⟨congrArg (CellKind.text :: ·) hshape, hsize, .inl rfl⟩
  | label l => exact ⟨hshape, hsize, .inl rfl⟩
  | load slot =>
      refine meets_bind ?_
      rw [Meets, Run.load]
      -- A slot without a value is a failure, but none that concerns the stack.
      cases (slots[slot]?).join with
      | none => exact ⟨not_false, hsize⟩
      | some v => exact ⟨congrArg (CellKind.int :: ·) hshape, hsize, .inl rfl⟩
  | store slot =>
      refine meets_bind (meets_popInt hshape fun x stack' hstack => ?_)
      have hslot : slot < slots.size := by
        rw [show slots.size = size from hsize]
        exact hstore slot rfl
      exact meets_store hslot fun slots' hslots => ⟨hstack, hslots.trans hsize, .inl rfl⟩
  | arith o =>
      refine meets_bind (meets_popInt hshape fun y stack₁ hstack₁ => ?_)
      refine meets_bind (meets_popInt hstack₁ fun x stack₂ hstack₂ => ?_)
      cases o.result? x y with
      | none => exact ⟨not_false, hsize⟩
      | some v => exact ⟨congrArg (CellKind.int :: ·) hstack₂, hsize, .inl rfl⟩
  -- A branch that is taken goes on at its label, the others behind the instruction.
  | branch b l =>
      refine meets_bind (meets_popInt hshape fun y stack₁ hstack₁ => ?_)
      refine meets_bind (meets_popInt hstack₁ fun x stack₂ hstack₂ => ?_)
      rcases htarget l rfl with ⟨place, hplace⟩
      cases b.holds x y with
      | true =>
          rw [if_pos rfl, Loaded.jumpTo, hplace]
          exact ⟨hstack₂, hsize, .inr ⟨l, rfl, hplace⟩⟩
      | false => exact ⟨hstack₂, hsize, .inl rfl⟩
  | goto l =>
      rcases htarget l rfl with ⟨place, hplace⟩
      rw [Loaded.exec, Loaded.jumpTo, hplace]
      exact ⟨hshape, hsize, .inr ⟨l, rfl, hplace⟩⟩
  | readInt =>
      exact meets_bind (meets_onStreams hsize fun v io' =>
        ⟨congrArg (CellKind.int :: ·) hshape, hsize, .inl rfl⟩)
  | printInt =>
      refine meets_bind (meets_popInt hshape fun x stack' hstack => ?_)
      exact meets_onStreams hsize fun _ io' => ⟨hstack, hsize, .inl rfl⟩
  | printText =>
      refine meets_bind (meets_popText hshape fun s stack' hstack => ?_)
      exact meets_onStreams hsize fun _ io' => ⟨hstack, hsize, .inl rfl⟩

/-- The machine is in the code or right behind it, the stack has the shape of the place, and there
    are as many slots as the code asked for. -/
structure Fits (instrs : List Instr) (size : Nat) (m : Machine) : Prop where
  ip_le : m.ip ≤ instrs.length
  shape : m.shape = Code.shapeAt [] instrs m.ip
  size : m.slots.size = size

/-- Code that is loaded and that does not get stuck if its stack is shaped. -/
structure Sound (code : Loaded) (instrs : List Instr) (size : Nat) : Prop where
  instrs_eq : code.instrs = instrs.toArray
  slots_eq : code.slots = size
  shaped : Code.Shaped [] instrs []
  store_lt : ∀ slot, Instr.store slot ∈ instrs → slot < size
  /-- A jump leads to a place where a label stands. -/
  place? : ∀ i ∈ instrs, ∀ l, i.target? = some l →
    ∃ place, code.place? l = some place ∧ instrs[place]? = some (.label l)

variable {instrs : List Instr}

theorem Sound.getElem? (h : code.Sound instrs size) (k : Nat) : code.instrs[k]? = instrs[k]? := by
  rw [h.instrs_eq, List.getElem?_toArray]

/-- The stack is empty at a label. -/
theorem Sound.shapeAt_label (h : code.Sound instrs size) {place : Nat} {l : Label}
    (hl : instrs[place]? = some (.label l)) : Code.shapeAt [] instrs place = [] := by
  rcases Code.shapeAt_of_shaped h.shaped hl with ⟨rest, hbefore, hrest, -⟩
  rw [hbefore, hrest rfl]
  rfl

/-- One step keeps stack and slots as they should be, or fails without getting stuck. -/
theorem step_fits (h : code.Sound instrs size) (hm : Fits instrs size m)
    (hi : instrs[m.ip]? = some i) :
    Holds size (fun _ m' => Fits instrs size m') (code.step i m) := by
  rcases Code.shapeAt_of_shaped h.shaped hi with ⟨rest, hbefore, hrest, hbehind⟩
  have hmem : i ∈ instrs := List.mem_of_getElem? hi
  -- The machine counts on before it looks at the instruction.
  have hexec : Meets size (code.exec i) ⟨m.ip + 1, m.stack, m.slots, m.io⟩ _ :=
    exec_meets (hm.shape.trans hbefore) hm.size
      (fun slot hslot => h.store_lt slot (hslot ▸ hmem))
      (fun l hl => (h.place? i hmem l hl).imp fun _ => And.left)
  rw [Meets] at hexec
  change Holds size _ (code.exec i ⟨m.ip + 1, m.stack, m.slots, m.io⟩)
  rcases hres : code.exec i ⟨m.ip + 1, m.stack, m.slots, m.io⟩ with ⟨_, m'⟩ | ⟨e, m'⟩
  · rw [hres] at hexec
    rcases hexec with ⟨hshape, hsize, hip | ⟨l, hl, hplace⟩⟩
    · have hlt : m.ip < instrs.length := (List.getElem?_eq_some_iff.mp hi).1
      refine ⟨?_, ?_, hsize⟩
      · rw [hip]
        exact hlt
      · rw [hshape, hip, hbehind]
    · -- The jump has taken all there was, and the stack is empty at the label.
      rcases h.place? i hmem l hl with ⟨place, hplace', hlabel⟩
      obtain rfl : place = m'.ip := Option.some.inj (hplace'.symm.trans hplace)
      have hjump : i.hasLabel = true := by
        rw [Instr.hasLabel, hl, Option.isSome_some, Bool.or_true]
      have hleaves : i.leaves = [] := by
        cases i <;> first | rfl | cases hl
      refine ⟨Nat.le_of_lt (List.getElem?_eq_some_iff.mp hlabel).1, ?_, hsize⟩
      rw [hshape, h.shapeAt_label hlabel, hrest hjump, hleaves]
      rfl
  · rw [hres] at hexec
    exact hexec

/-- Any number of steps keeps stack and slots as they should be. -/
theorem takes_fits (h : code.Sound instrs size) (hm : Fits instrs size m) {n : Nat}
    (htakes : code.Takes n m m') : Fits instrs size m' := by
  induction n generalizing m with
  | zero =>
      rw [← show m = m' from htakes]
      exact hm
  | succ n ih =>
      rcases htakes with ⟨i, m₁, hi, hstep, hrest⟩
      rw [h.getElem?] at hi
      have hfits := step_fits h hm hi
      rw [hstep] at hfits
      exact ih hfits hrest

/-- A run that ends is behind the code with nothing on the stack; one that fails did not get
    stuck. -/
theorem runFor_fits (h : code.Sound instrs size) (hm : Fits instrs size m) (fuel : Nat) :
    match code.runFor fuel m with
    | .ok _ m' => Fits instrs size m' ∧ m'.stack = []
    | .error (.error e) m' => ¬ e.IsStuck ∧ m'.slots.size = size
    | .error .outOfFuel m' => Fits instrs size m' := by
  induction fuel generalizing m with
  | zero => exact hm
  | succ fuel ih =>
      rw [runFor, h.getElem?]
      cases hi : instrs[m.ip]? with
      | none =>
          -- Only the end of the code has no instruction.
          have hip : m.ip = instrs.length :=
            Nat.le_antisymm hm.ip_le (List.getElem?_eq_none_iff.mp hi)
          have hnil : m.stack.map Cell.kind = [] := by
            rw [← Code.shapeAt_length h.shaped, ← hip]
            exact hm.shape
          exact ⟨hm, List.map_eq_nil_iff.mp hnil⟩
      | some i =>
          have hfits := step_fits h hm hi
          dsimp only
          rcases hstep : code.step i m with ⟨_, m₁⟩ | ⟨e, m₁⟩
          · rw [hstep] at hfits
            exact ih hfits
          · rw [hstep] at hfits
            exact hfits

theorem start_fits (h : code.Sound instrs size) (io : Streams) :
    Fits instrs size (code.start io) := by
  refine ⟨Nat.zero_le _, ?_, ?_⟩
  · cases instrs <;> rfl
  · rw [start, Array.size_replicate, h.slots_eq]

end Loaded

namespace Code

variable {program : Block} {code : Code}

/-- The code of a program can be loaded, and does not get stuck. -/
theorem loaded_sound (h : ofProgram program = .ok code) :
    ∃ loaded, Loaded.ofCode code = .ok loaded ∧ loaded.Sound code.instrs code.slots := by
  rcases emits_ofProgram h with ⟨ctx, hemits, -, hslots⟩
  have hlabelled := hemits.wellLabelled
  rcases Loaded.ofCode_of_wellLabelled hlabelled with ⟨loaded, hloaded, hinstrs, hsize, hresolved⟩
  refine ⟨loaded, hloaded, hinstrs, hsize, hemits.shaped, ?_, ?_⟩
  · intro slot hslot
    rw [hslots]
    exact hemits.store_lt hslot
  · intro i hi l hl
    -- The label is marked somewhere in the code, and that is where the table leads.
    have hmark := hlabelled.closed l (List.mem_filterMap.mpr ⟨i, hi, hl⟩)
    rcases List.mem_filterMap.mp hmark with ⟨j, hj, hjl⟩
    obtain rfl : j = .label l := by
      cases j <;> cases hjl
      rfl
    rcases List.mem_iff_getElem?.mp hj with ⟨place, hplace⟩
    refine ⟨place, hresolved l place ?_, hplace⟩
    rw [hinstrs, List.getElem?_toArray]
    exact hplace

/-- The code of a program can be loaded. Wherever a run of it is, the stack has the shape that
    belongs to the place, which is the empty one at labels and at the end of the code, and there
    are as many slots as the code asked for; and no run gets stuck. -/
theorem ofProgram_wellShaped (program : Block) (code : Code) (h : ofProgram program = .ok code) :
    ∃ loaded, Loaded.ofCode code = .ok loaded ∧
      (∀ io n m, loaded.Takes n (loaded.start io) m → m.ip ≤ code.instrs.length ∧
        m.stack.map Cell.kind = shapeAt [] code.instrs m.ip ∧ m.slots.size = code.slots) ∧
      (∀ place l, code.instrs[place]? = some (.label l) → shapeAt [] code.instrs place = []) ∧
      shapeAt [] code.instrs code.instrs.length = [] ∧
      (∀ fuel io m, loaded.run fuel io = .ok () m →
        m.stack = [] ∧ m.slots.size = code.slots) ∧
      ∀ fuel io e m, loaded.run fuel io = .error (.error e) m →
        ¬ e.IsStuck ∧ m.slots.size = code.slots := by
  rcases loaded_sound h with ⟨loaded, hloaded, hsound⟩
  have hrun := fun fuel io => Loaded.runFor_fits hsound (Loaded.start_fits hsound io) fuel
  refine ⟨loaded, hloaded, ?_, ?_, shapeAt_length hsound.shaped, ?_, ?_⟩
  · intro io n m htakes
    have hm := Loaded.takes_fits hsound (Loaded.start_fits hsound io) htakes
    exact ⟨hm.ip_le, hm.shape, hm.size⟩
  · intro place l hl
    exact hsound.shapeAt_label hl
  · intro fuel io m hm
    have h := hrun fuel io
    rw [← Loaded.run, hm] at h
    exact ⟨h.2, h.1.size⟩
  · intro fuel io e m hm
    have h := hrun fuel io
    rw [← Loaded.run, hm] at h
    exact h

/-- In every round of a loop the two operands are on the stack, and nothing else, when the machine
    comes to the comparison. -/
theorem ofProgram_wellShaped_of_loop :
    ∃ loaded, Loaded.ofCode
        ⟨[.const 0, .store 0, .label ⟨.loopBegin, 1⟩, .load 0, .const 2, .branch .ge ⟨.loopEnd, 2⟩,
          .load 0, .const 1, .arith .add, .store 0, .goto ⟨.loopBegin, 1⟩, .label ⟨.loopEnd, 2⟩],
          1⟩ = .ok loaded ∧
      ∀ io n m, loaded.Takes n (loaded.start io) m → m.ip = 5 →
        m.stack.map Cell.kind = [.int, .int] := by
  rcases ofProgram_wellShaped
    [.assign "x" (.num 0), .whileDo (.compare .less (.var "x") (.num 2))
      [.assign "x" (.op .add (.var "x") (.num 1))]] _ rfl with ⟨loaded, hloaded, hshape, -⟩
  refine ⟨loaded, hloaded, fun io n m htakes hip => ?_⟩
  have h := (hshape io n m htakes).2.1
  rw [hip] at h
  exact h

end Code

end WhileLang
