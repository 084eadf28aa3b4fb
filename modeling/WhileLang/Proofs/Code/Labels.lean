import WhileLang.Proofs.Code.Emits

/-!
# Labels of Emitted Code

Which labels a piece of code marks, and to which ones it jumps. The numbers
of the marked labels lie behind those of the first context and not behind
those of the second, no number is used twice, and every jump leads to a label
that the same piece marks. `WellLabelled` has all three, because they are
needed together: two pieces one after the other use different numbers just
because they lie between different contexts.

Choices and loops mint two labels first and then compile their parts, so both
add two smaller numbers to what the parts use. `wellLabelled_around` is that
step, whatever the order in which the labels stand in the code.

## Main definitions

* `Code.marks`, `Code.targets`: The labels that are marked and jumped to.
* `WellLabelled`: New numbers, all different, and no jump out of the code.

## Theorems

* `Arith.labels_compile`, `Cond.labels_compile`: Expressions have no labels,
  conditions jump to one.
* `wellLabelled_around`: Two new labels around code that is well labelled.
* `Emits.wellLabelled`: Emitted code is well labelled.
-/

namespace WhileLang

namespace Code

/-- The labels that stand in the code. -/
def marks (code : List Instr) : List Label :=
  code.filterMap Instr.mark?

/-- The labels that the code may jump to. -/
def targets (code : List Instr) : List Label :=
  code.filterMap Instr.target?

theorem marks_append (code code' : List Instr) : marks (code ++ code') = marks code ++ marks code' :=
  List.filterMap_append

theorem targets_append (code code' : List Instr) :
    targets (code ++ code') = targets code ++ targets code' :=
  List.filterMap_append

end Code

open Code

variable {ctx ctx₁ ctx' : Context} {code code' : List Instr}

/-- Code of an expression has no labels. -/
theorem Arith.labels_compile {a : Arith} (h : a.compile ctx = .ok code) :
    marks code = [] ∧ targets code = [] := by
  induction a generalizing code with
  | num n =>
      rw [← compile_num_eq_ok.mp h]
      exact ⟨rfl, rfl⟩
  | var x =>
      rcases compile_var_eq_ok.mp h with ⟨slot, -, rfl⟩
      exact ⟨rfl, rfl⟩
  | op o l r ihl ihr =>
      rcases compile_op_eq_ok.mp h with ⟨left, right, hl, hr, rfl⟩
      rcases ihl hl with ⟨hlm, hlt⟩
      rcases ihr hr with ⟨hrm, hrt⟩
      rw [marks_append, marks_append, targets_append, targets_append, hlm, hrm, hlt, hrt]
      exact ⟨rfl, rfl⟩

/-- Code of a condition marks nothing and jumps to one label only. -/
theorem Cond.labels_compile {c : Cond} {skip : Label} (h : c.compile ctx skip = .ok code) :
    marks code = [] ∧ ∀ l ∈ targets code, l = skip := by
  cases c with
  | const value =>
      cases value with
      | true =>
          rw [← Except.ok.inj h]
          exact ⟨rfl, fun l hl => nomatch hl⟩
      | false =>
          rw [← Except.ok.inj h]
          exact ⟨rfl, fun l hl => List.mem_singleton.mp hl⟩
  | compare o l r =>
      rcases compile_compare_eq_ok.mp h with ⟨left, right, hl, hr, rfl⟩
      rcases Arith.labels_compile hl with ⟨hlm, hlt⟩
      rcases Arith.labels_compile hr with ⟨hrm, hrt⟩
      rw [marks_append, marks_append, targets_append, targets_append, hlm, hrm, hlt, hrt]
      exact ⟨rfl, fun l hl => List.mem_singleton.mp hl⟩

/-- The code uses numbers of labels from between the contexts, each of them for one label, and
    does not jump elsewhere. -/
structure WellLabelled (ctx : Context) (code : List Instr) (ctx' : Context) : Prop where
  /-- The numbers are new. -/
  between : ∀ l ∈ marks code, ctx.labels < l.id ∧ l.id ≤ ctx'.labels
  distinct : ((marks code).map Label.id).Nodup
  /-- A jump leads to a label of the code. -/
  closed : ∀ l ∈ targets code, l ∈ marks code

theorem wellLabelled_of_nil (hmarks : marks code = []) (htargets : targets code = []) :
    WellLabelled ctx code ctx' := by
  refine ⟨?_, ?_, ?_⟩
  · rw [hmarks]
    exact fun l hl => nomatch hl
  · rw [hmarks]
    exact List.nodup_nil
  · rw [htargets]
    exact fun l hl => nomatch hl

theorem wellLabelled_append (hgrows : ctx.Grows ctx₁) (hgrows' : ctx₁.Grows ctx')
    (h : WellLabelled ctx code ctx₁) (h' : WellLabelled ctx₁ code' ctx') :
    WellLabelled ctx (code ++ code') ctx' := by
  refine ⟨?_, ?_, ?_⟩
  · intro l hl
    rw [marks_append] at hl
    rcases List.mem_append.mp hl with hl | hl
    · exact ⟨(h.between l hl).1, Nat.le_trans (h.between l hl).2 hgrows'.labels⟩
    · exact ⟨Nat.lt_of_le_of_lt hgrows.labels (h'.between l hl).1, (h'.between l hl).2⟩
  · rw [marks_append, List.map_append]
    refine List.nodup_append.mpr ⟨h.distinct, h'.distinct, ?_⟩
    intro n hn n' hn' heq
    -- The numbers of the first piece end where those of the second begin.
    rcases List.mem_map.mp hn with ⟨l, hl, rfl⟩
    rcases List.mem_map.mp hn' with ⟨l', hl', rfl⟩
    have hle := (h.between l hl).2
    have hlt := (h'.between l' hl').1
    omega
  · intro l hl
    rw [marks_append]
    rw [targets_append] at hl
    rcases List.mem_append.mp hl with hl | hl
    · exact List.mem_append_left _ (h.closed l hl)
    · exact List.mem_append_right _ (h'.closed l hl)

/-- Two new labels around code that is compiled after they are minted. -/
theorem wellLabelled_around {inner : List Instr} (l l' : Label) (hl : l.id = ctx.labels + 1)
    (hl' : l'.id = ctx.labels + 2) (hgrows : Context.Grows ⟨ctx.names, ctx.labels + 2⟩ ctx')
    (hinner : WellLabelled ⟨ctx.names, ctx.labels + 2⟩ inner ctx')
    (hmarks : (marks code).Perm (l :: l' :: marks inner))
    (htargets : ∀ t ∈ targets code, t = l ∨ t = l' ∨ t ∈ targets inner) :
    WellLabelled ctx code ctx' := by
  have hlabels : ctx.labels + 2 ≤ ctx'.labels := hgrows.labels
  have hbetween : ∀ t ∈ marks inner, ctx.labels + 2 < t.id ∧ t.id ≤ ctx'.labels := hinner.between
  refine ⟨?_, ?_, ?_⟩
  · intro t ht
    rcases List.mem_cons.mp (hmarks.mem_iff.mp ht) with rfl | ht
    · omega
    · rcases List.mem_cons.mp ht with rfl | ht
      · omega
      · have h := hbetween t ht
        omega
  · rw [(hmarks.map Label.id).nodup_iff, List.map_cons, List.map_cons, List.nodup_cons,
      List.nodup_cons]
    refine ⟨?_, ?_, hinner.distinct⟩
    · intro hmem
      rcases List.mem_cons.mp hmem with heq | hmem
      · omega
      · rcases List.mem_map.mp hmem with ⟨t, ht, heq⟩
        have h := hbetween t ht
        omega
    · intro hmem
      rcases List.mem_map.mp hmem with ⟨t, ht, heq⟩
      have h := hbetween t ht
      omega
  · intro t ht
    rw [hmarks.mem_iff]
    rcases htargets t ht with rfl | rfl | ht
    · exact List.mem_cons_self
    · exact List.mem_cons_of_mem _ List.mem_cons_self
    · exact List.mem_cons_of_mem _ (List.mem_cons_of_mem _ (hinner.closed t ht))

namespace Emits

/-- Emitted code is well labelled. -/
theorem wellLabelled {b : Block} (h : Emits ctx b code ctx') : WellLabelled ctx code ctx' := by
  induction h with
  | nil ctx => exact wellLabelled_of_nil rfl rfl
  | append hb hb' ih ih' => exact wellLabelled_append hb.grows hb'.grows ih ih'
  | skip ctx => exact wellLabelled_of_nil rfl rfl
  | assign x hvalue =>
      rcases Arith.labels_compile hvalue with ⟨hm, ht⟩
      refine wellLabelled_of_nil ?_ ?_
      · rw [marks_append, hm]
        rfl
      · rw [targets_append, ht]
        rfl
  | @ifElse ctx ctx₁ ctx' c t e test thenCode elseCode htest hthen helse iht ihe =>
      rcases Cond.labels_compile htest with ⟨hm, ht⟩
      refine wellLabelled_around ⟨.ifElse, ctx.labels + 1⟩ ⟨.ifEnd, ctx.labels + 2⟩ rfl rfl
        (Context.grows_trans hthen.grows helse.grows)
        (wellLabelled_append hthen.grows helse.grows iht ihe) ?_ ?_
      · have hmiddle : marks [.goto ⟨.ifEnd, ctx.labels + 2⟩, .label ⟨.ifElse, ctx.labels + 1⟩]
            = [⟨.ifElse, ctx.labels + 1⟩] := rfl
        rw [marks_append, marks_append, marks_append, marks_append, marks_append, hm, hmiddle,
          List.nil_append]
        -- The last label is moved to the front, then the one in the middle.
        refine (List.perm_append_singleton _ _).trans ?_
        refine (List.Perm.cons _ ?_).trans (List.Perm.swap _ _ _)
        rw [List.append_assoc]
        exact List.perm_middle
      · intro l hl
        simp only [targets_append, List.mem_append] at hl ⊢
        rcases hl with (((hl | hl) | hl) | hl) | hl
        · exact Or.inl (ht l hl)
        · exact Or.inr (Or.inr (Or.inl hl))
        · exact Or.inr (Or.inl (List.mem_singleton.mp hl))
        · exact Or.inr (Or.inr (Or.inr hl))
        · cases hl
  | @whileDo ctx ctx' c body test bodyCode htest hbody ih =>
      rcases Cond.labels_compile htest with ⟨hm, ht⟩
      refine wellLabelled_around ⟨.loopBegin, ctx.labels + 1⟩ ⟨.loopEnd, ctx.labels + 2⟩ rfl rfl
        hbody.grows ih ?_ ?_
      · rw [marks_append, marks_append, marks_append, hm, List.append_nil]
        exact List.Perm.cons _ (List.perm_append_singleton _ _)
      · intro l hl
        simp only [targets_append, List.mem_append] at hl
        rcases hl with ((hl | hl) | hl) | hl
        · cases hl
        · exact Or.inr (Or.inl (ht l hl))
        · exact Or.inr (Or.inr hl)
        · exact Or.inl (List.mem_singleton.mp hl)
  | forTo _ ih => exact ih
  | read ctx x => exact wellLabelled_of_nil rfl rfl
  | write hvalue =>
      rcases Arith.labels_compile hvalue with ⟨hm, ht⟩
      refine wellLabelled_of_nil ?_ ?_
      · rw [marks_append, hm]
        rfl
      · rw [targets_append, ht]
        rfl
  | print ctx s => exact wellLabelled_of_nil rfl rfl

end Emits

end WhileLang
