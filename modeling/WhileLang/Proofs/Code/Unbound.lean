import Mathlib.Data.Finset.Card
import WhileLang.Proofs.Code.Correct
import WhileLang.Proofs.Code.Loads
import WhileLang.Proofs.Code.Occurrences

/-!
# Unbound Names

What a reader of the text can tell about its compilation. A text is closed if
every use of a name stands behind a place where the name is bound. Programs
with closed texts can be compiled, all others cannot, and the name that the
compiler complains about is the one at the first place where the text is not
closed. The slots are read off the text as well: a name has as its slot the
number of different names that are bound before it is bound first.

`Occurrence.walk` follows the compiler, name by name. Here its result is
stated without it, by looking at the whole text in front of a place: the
names that a complete walk has in hand are those that the text binds, each of
them once, and so many as there are different ones.

## Main definitions

* `Occurrence.boundNames`: The names that a text binds, as often as it does.
* `Occurrence.Closed`: Every used name has been bound before.

## Theorems

* `Occurrence.mem_walk`, `Occurrence.mem_walk_nil`: The names behind a complete
  walk.
* `Occurrence.walk_eq_some_iff`: Where a walk ends early.
* `Occurrence.closed_iff`: A walk is complete if the text is closed.
* `Occurrence.length_walk`: How many names are behind a complete walk.
* `Code.ofProgram_eq_error_iff_walk`: Compilation fails where the walk ends.
* `Code.ofProgram_closed`: Which programs are compiled, and their slots.
-/

namespace WhileLang

namespace Occurrence

variable {os : List Occurrence} {names : List String} {x : String}

/-- The name that is bound. -/
def bound? : Occurrence → Option String
  | .use _ => none
  | .bind x => some x

/-- The names that are bound in a text, each as often as it is bound. -/
def boundNames (os : List Occurrence) : List String :=
  os.filterMap bound?

/-- Every name is bound somewhere before it is used. -/
def Closed (os : List Occurrence) : Prop :=
  ∀ before x after, os = before ++ .use x :: after → .bind x ∈ before

theorem mem_boundNames : x ∈ boundNames os ↔ .bind x ∈ os := by
  rw [boundNames, List.mem_filterMap]
  constructor
  · rintro ⟨o, ho, hx⟩
    cases o with
    | use y => cases hx
    | bind y =>
        cases hx
        exact ho
  · intro h
    exact ⟨.bind x, h, rfl⟩

/-- Behind a complete walk those names are bound that were bound before or are bound by the text. -/
theorem mem_walk (h : (walk os names).2 = none) :
    x ∈ (walk os names).1 ↔ x ∈ names ∨ .bind x ∈ os := by
  fun_induction walk os names with
  | case1 => simp only [List.not_mem_nil, or_false]
  | case2 y rest names hy ih =>
      rw [ih h]
      simp only [List.mem_cons, reduceCtorEq, false_or]
  | case3 => cases h
  | case4 y rest names ih =>
      rw [ih h, List.mem_cons, bind.injEq]
      split
      -- A name that was bound already is not put again.
      · next hy =>
        constructor
        · exact Or.imp_right Or.inr
        · rintro (hx | rfl | hx)
          · exact Or.inl hx
          · exact Or.inl hy
          · exact Or.inr hx
      · rw [List.mem_append, List.mem_singleton, or_assoc]

/-- A complete walk that starts without names has those in hand that the text binds. -/
theorem mem_walk_nil (h : (walk os []).2 = none) : x ∈ (walk os []).1 ↔ .bind x ∈ os :=
  (mem_walk h).trans (or_iff_right List.not_mem_nil)

/-- A walk ends early at a name that is not in hand when it is used. -/
theorem walk_eq_some_iff :
    (walk os names).2 = some x ↔ ∃ before after, os = before ++ .use x :: after ∧
      (walk before names).2 = none ∧ x ∉ (walk before names).1 := by
  constructor
  · intro h
    fun_induction walk os names with
    | case1 => cases h
    | case2 y rest names hy ih =>
        rcases ih h with ⟨before, after, rfl, hwalk, hx⟩
        refine ⟨.use y :: before, after, rfl, ?_⟩
        rw [walk, if_pos hy]
        exact ⟨hwalk, hx⟩
    | case3 y rest names hy =>
        cases h
        exact ⟨[], rest, rfl, rfl, hy⟩
    | case4 y rest names ih =>
        rcases ih h with ⟨before, after, rfl, hwalk, hx⟩
        refine ⟨.bind y :: before, after, rfl, ?_⟩
        rw [walk]
        exact ⟨hwalk, hx⟩
  · rintro ⟨before, after, rfl, hwalk, hx⟩
    rw [walk_append hwalk, walk, if_neg hx]

/-- A walk that starts without names is complete if and only if the text is closed. -/
theorem closed_iff : Closed os ↔ (walk os []).2 = none := by
  constructor
  · intro h
    refine Option.eq_none_iff_forall_ne_some.mpr fun x hx => ?_
    rcases walk_eq_some_iff.mp hx with ⟨before, after, rfl, hwalk, hmem⟩
    exact hmem ((mem_walk_nil hwalk).mpr (h before x after rfl))
  · rintro h before x after rfl
    have hbefore : (walk before []).2 = none := by
      refine Option.eq_none_iff_forall_ne_some.mpr fun y hy => ?_
      rw [walk_append_of_some hy, hy] at h
      cases h
    rw [walk_append hbefore, walk] at h
    split at h
    · next hx => exact (mem_walk_nil hbefore).mp hx
    · cases h

/-- So many names are behind a complete walk as the text binds different ones. -/
theorem length_walk (h : Closed os) : (walk os []).1.length = (boundNames os).toFinset.card := by
  have hnodup : (walk os []).1.Nodup := nodup_walk os List.nodup_nil
  rw [← List.toFinset_card_of_nodup hnodup]
  congr 1
  ext x
  rw [List.mem_toFinset, List.mem_toFinset, mem_walk_nil (closed_iff.mp h), mem_boundNames]

/-- The text in front of a place is closed if the whole text is. -/
theorem Closed.of_append {os' : List Occurrence} (h : Closed (os ++ os')) : Closed os := by
  rintro before x after rfl
  exact h before x (after ++ os') (by rw [List.append_assoc, List.cons_append])

/-- A name that is bound first at some place is put behind those bound before it. -/
theorem Closed.prefix_walk {before after : List Occurrence}
    (h : Closed (before ++ .bind x :: after)) (hx : .bind x ∉ before) :
    x ∉ (walk before []).1 ∧
      (walk before []).1 ++ [x] <+: (walk (before ++ .bind x :: after) []).1 := by
  have hbefore : (walk before []).2 = none := closed_iff.mp h.of_append
  have hnew : x ∉ (walk before []).1 := fun hmem => hx ((mem_walk_nil hbefore).mp hmem)
  refine ⟨hnew, ?_⟩
  rw [walk_append hbefore, walk, if_neg hnew]
  exact Occurrence.prefix_walk after _

end Occurrence

open Occurrence

namespace Code

variable {program : Block} {x : String}

/-- Compilation fails where a walk through the text ends early. -/
theorem ofProgram_eq_error_iff_walk :
    ofProgram program = .error (.undefinedVariable x) ↔
      (walk (Stmt.occurrencesAll program) []).2 = some x := by
  have hfails := (walks_compileAll program .empty).fails x
  rw [show Context.empty.names = [] from rfl] at hfails
  rw [← hfails, ofProgram]
  rcases (Stmt.compileAll program).run .empty with ⟨e | instrs, ctx⟩
  · simp only [Except.error.injEq]
  · simp only [reduceCtorEq]

/-- The names of a program are those that a walk through its text has in hand in the end. -/
theorem names_contextOf (program : Block) :
    (contextOf program).names = (walk (Stmt.occurrencesAll program) []).1 :=
  (walks_compileAll program .empty).names

/-- A name has as its slot the number of names that are bound before it. -/
theorem slot?_contextOf {before after : List Occurrence}
    (h : Closed (Stmt.occurrencesAll program))
    (hsplit : Stmt.occurrencesAll program = before ++ .bind x :: after) (hx : .bind x ∉ before) :
    (contextOf program).slot? x = some (boundNames before).toFinset.card := by
  rw [hsplit] at h
  rcases h.prefix_walk hx with ⟨hnew, hprefix⟩
  -- The name gets its slot when it is bound, and keeps it through the rest of the text.
  have hbind := Context.slot?_bind ⟨(walk before []).1, 0⟩ x
  rw [Context.bind_of_slot?_eq_none (Context.slot?_eq_none_iff.mpr hnew)] at hbind
  rw [← length_walk h.of_append]
  refine Context.slot?_of_grows ⟨?_, Nat.zero_le _⟩ hbind
  rw [names_contextOf, hsplit]
  exact hprefix

/-- A program is compiled if and only if its text is closed, and the error names the first place
    where it is not. Otherwise there are as many slots as names that are bound, each name has the
    slot that its first binding gives it, and no slot is loaded that is not stored to before, as the
    code is written. -/
theorem ofProgram_closed (program : Block) :
    ((∃ e, ofProgram program = .error e) ↔ ¬Closed (Stmt.occurrencesAll program)) ∧
    (∀ x, ofProgram program = .error (.undefinedVariable x) ↔
      ∃ before after, Stmt.occurrencesAll program = before ++ .use x :: after ∧
        .bind x ∉ before ∧ Closed before) ∧
    (Closed (Stmt.occurrencesAll program) → ∃ code, ofProgram program = .ok code ∧
      code.slots = (boundNames (Stmt.occurrencesAll program)).toFinset.card ∧
      (∀ before x after, Stmt.occurrencesAll program = before ++ .bind x :: after →
        .bind x ∉ before →
        (contextOf program).slot? x = some (boundNames before).toFinset.card) ∧
      ∀ k slot : Nat, code.instrs[k]? = some (.load slot) →
        ∃ j, j < k ∧ code.instrs[j]? = some (.store slot)) := by
  have herror : (∃ e, ofProgram program = .error e) ↔ ¬Closed (Stmt.occurrencesAll program) := by
    rw [closed_iff, ← ne_eq, Option.ne_none_iff_exists']
    constructor
    · rintro ⟨⟨x⟩, h⟩
      exact ⟨x, ofProgram_eq_error_iff_walk.mp h⟩
    · rintro ⟨x, h⟩
      exact ⟨_, ofProgram_eq_error_iff_walk.mpr h⟩
  refine ⟨herror, fun x => ?_, fun hclosed => ?_⟩
  · rw [ofProgram_eq_error_iff_walk, walk_eq_some_iff]
    refine exists_congr fun before => exists_congr fun after => and_congr_right fun _ => ?_
    rw [closed_iff, and_comm]
    exact and_congr_left fun hwalk => not_congr (mem_walk_nil hwalk)
  · cases hcode : ofProgram program with
    | error e => exact absurd hclosed (herror.mp ⟨e, hcode⟩)
    | ok code =>
        rcases emits_ofProgram hcode with ⟨ctx, hemits, hctx, hslots⟩
        refine ⟨code, rfl, ?_, fun before x after => slot?_contextOf hclosed, fun k slot => ?_⟩
        · rw [hslots, ← length_walk hclosed, ← names_contextOf, contextOf, hctx]
        · exact hemits.exists_store

/-- What either branch binds may be used behind both, and the variable of the loop is bound for the
    bound of the loop. -/
theorem ofProgram_closed_of_branches :
    ∃ code, ofProgram [.ifElse (.const true) [.assign "x" (.num 1)] [.read "y"],
        .forTo "i" (.var "y") (.op .add (.var "i") (.var "x")) [.write (.var "i")]] = .ok code ∧
      code.slots = 3 ∧
      (contextOf [.ifElse (.const true) [.assign "x" (.num 1)] [.read "y"],
        .forTo "i" (.var "y") (.op .add (.var "i") (.var "x")) [.write (.var "i")]]).slot? "i"
          = some 2 ∧
      ∀ k slot : Nat, code.instrs[k]? = some (.load slot) →
        ∃ j, j < k ∧ code.instrs[j]? = some (.store slot) := by
  rcases ofProgram_closed [.ifElse (.const true) [.assign "x" (.num 1)] [.read "y"],
    .forTo "i" (.var "y") (.op .add (.var "i") (.var "x")) [.write (.var "i")]] with ⟨-, -, hcode⟩
  rcases hcode (closed_iff.mpr (by decide)) with ⟨code, hok, hslots, hranks, hloads⟩
  exact ⟨code, hok, hslots, hranks [.bind "x", .bind "y", .use "y"] "i" _ rfl (by decide), hloads⟩

end Code

end WhileLang
