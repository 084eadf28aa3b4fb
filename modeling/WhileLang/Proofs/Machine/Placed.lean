import WhileLang.Machine.Basic
import WhileLang.Proofs.Code.Labels

/-!
# Code in Its Place

Where pieces of code stand in the code that a machine runs. A piece stands
between two places, and a piece that is made of two parts stands there if and
only if the parts stand next to each other, at a place in between. Stated
this way nothing has to be said about the lengths of pieces.

The machine looks labels up in a table in which later ones hide earlier ones.
In well labelled code there is nothing to hide, so a label leads to where it
stands, and since no jump leads out of the code, the code can be loaded.

## Main definitions

* `Loaded.Placed`: A piece of code stands between two places.
* `Loaded.Resolved`: Labels lead to where they stand.

## Theorems

* `Loaded.placed_append`: Two parts stand next to each other.
* `Loaded.mem_placesOf`: What the table of labels has in it.
* `Loaded.ofCode_of_wellLabelled`: Well labelled code can be loaded.
-/

namespace WhileLang

namespace Loaded

variable {code : Loaded} {start stop : Nat} {instrs piece piece' : List Instr} {l : Label}

/-- The piece stands in the code from the first place up to the second one. -/
def Placed (code : Loaded) : Nat → List Instr → Nat → Prop
  | start, [], stop => start = stop
  | start, i :: piece, stop => code.instrs[start]? = some i ∧ code.Placed (start + 1) piece stop

/-- Labels lead to where they stand. -/
def Resolved (code : Loaded) : Prop :=
  ∀ l place, code.instrs[place]? = some (.label l) → code.place? l = some place

/-- Two parts stand next to each other. -/
theorem placed_append :
    code.Placed start (piece ++ piece') stop ↔
      ∃ middle, code.Placed start piece middle ∧ code.Placed middle piece' stop := by
  induction piece generalizing start with
  | nil =>
      constructor
      · intro h
        exact ⟨start, rfl, h⟩
      · intro h
        rcases h with ⟨middle, rfl, h⟩
        exact h
  | cons i piece ih =>
      rw [List.cons_append, Placed, ih]
      constructor
      · intro h
        rcases h with ⟨hi, middle, h, h'⟩
        exact ⟨middle, ⟨hi, h⟩, h'⟩
      · intro h
        rcases h with ⟨middle, ⟨hi, h⟩, h'⟩
        exact ⟨hi, middle, h, h'⟩

theorem placed_of_getElem? (h : ∀ k, piece[k]? = code.instrs[start + k]?) :
    code.Placed start piece (start + piece.length) := by
  induction piece generalizing start with
  | nil => rfl
  | cons i piece ih =>
      refine ⟨(h 0).symm, ?_⟩
      rw [List.length_cons, Nat.add_comm piece.length, ← Nat.add_assoc]
      refine ih fun k => ?_
      rw [Nat.add_assoc, Nat.add_comm 1, ← h (k + 1)]
      rfl

/-- All of the code stands between the first place and the last one. -/
theorem placed_instrs (h : code.instrs = instrs.toArray) :
    code.Placed 0 instrs instrs.length ∧ code.instrs[instrs.length]? = none := by
  constructor
  · have hplaced : code.Placed 0 instrs (0 + instrs.length) :=
      placed_of_getElem? fun k => by rw [Nat.zero_add, h, List.getElem?_toArray]
    rwa [Nat.zero_add] at hplaced
  · rw [h, List.getElem?_toArray]
    exact List.getElem?_eq_none (Nat.le_refl _)

/-- The table has each label with the places where it stands. -/
theorem mem_placesOf {place : Nat} :
    (l, place) ∈ placesOf instrs ↔ instrs[place]? = some (.label l) := by
  rw [placesOf, List.mem_reverse, List.mem_filterMap]
  constructor
  · intro h
    rcases h with ⟨⟨i, k⟩, hmem, h⟩
    rw [List.mem_zipIdx_iff_getElem?] at hmem
    cases i <;> cases h
    exact hmem
  · intro h
    exact ⟨(.label l, place), List.mem_zipIdx_iff_getElem?.mpr h, rfl⟩

theorem map_fst_placesOf (instrs : List Instr) :
    (placesOf instrs).map Prod.fst = (Code.marks instrs).reverse := by
  have h : ∀ i : Instr × Nat, (i.1.mark?.map fun l => (l, i.2)).map Prod.fst = i.1.mark? := by
    intro i
    rw [Option.map_map]
    exact Option.map_id_apply
  have hmarks : Code.marks (instrs.zipIdx.map Prod.fst)
      = instrs.zipIdx.filterMap fun i => i.1.mark? := List.filterMap_map
  rw [List.zipIdx_map_fst] at hmarks
  rw [placesOf, List.map_reverse, List.map_filterMap, funext h, hmarks]

/-- In a table without repeated keys every entry is found. -/
theorem lookup_of_mem {table : List (Label × Nat)} {place : Nat}
    (hkeys : (table.map Prod.fst).Nodup) (h : (l, place) ∈ table) :
    table.lookup l = some place := by
  induction table with
  | nil => cases h
  | cons entry table ih =>
      rw [List.map_cons, List.nodup_cons] at hkeys
      rcases List.mem_cons.mp h with rfl | h
      · exact List.lookup_cons_self
      · have hne : l ≠ entry.1 := by
          intro heq
          exact hkeys.1 (heq ▸ List.mem_map_of_mem h)
        rw [List.lookup_cons, beq_eq_false_iff_ne.mpr hne]
        exact ih hkeys.2 h

/-- Well labelled code can be loaded, and its labels lead to where they stand. -/
theorem ofCode_of_wellLabelled {code : Code} {ctx ctx' : Context}
    (h : WellLabelled ctx code.instrs ctx') :
    ∃ loaded, ofCode code = .ok loaded ∧ loaded.instrs = code.instrs.toArray ∧
      loaded.slots = code.slots ∧ loaded.Resolved := by
  have hkeys : ((placesOf code.instrs).map Prod.fst).Nodup := by
    rw [map_fst_placesOf, (List.reverse_perm _).nodup_iff]
    exact List.Pairwise.of_map Label.id (fun l l' hne heq => hne (congrArg Label.id heq)) h.distinct
  have hfind : (code.instrs.filterMap Instr.target?).find?
      (fun l => ((placesOf code.instrs).lookup l).isNone) = none := by
    rw [List.find?_eq_none]
    intro l hl
    -- The label stands somewhere, so the table has it.
    have hmem : l ∈ (placesOf code.instrs).map Prod.fst := by
      rw [map_fst_placesOf, List.mem_reverse]
      exact h.closed l hl
    rcases List.mem_map.mp hmem with ⟨⟨l', place⟩, hentry, rfl⟩
    rw [lookup_of_mem hkeys hentry]
    exact Bool.false_ne_true
  refine ⟨⟨code.instrs.toArray, code.slots, placesOf code.instrs⟩, ?_, rfl, rfl, ?_⟩
  · rw [ofCode, hfind]
  · intro l place hplace
    exact lookup_of_mem hkeys (mem_placesOf.mpr (by rwa [List.getElem?_toArray] at hplace))

end Loaded

end WhileLang
