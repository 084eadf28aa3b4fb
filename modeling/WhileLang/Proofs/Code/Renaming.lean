import WhileLang.Proofs.Code.Calls
import WhileLang.Proofs.Code.Counting
import WhileLang.Proofs.Code.Unbound

/-!
# Names Do Not Matter

Compiling a block with other names, and with a context that has been used
before, gives the same code up to its slots and the numbers of its labels. The
labels are all shifted by the labels that the context had minted. The slots
are mapped one by one: if the renamed name is new to the context, it gets a new
slot, and if the context knew it already, it keeps the slot that it had. So
the map is no shift, and what it is depends on everything that was compiled
before, also on blocks that failed halfway.

Two runs of the compiler are compared, one with each context. That the second
context tracks the first one, name by name and label by label, is kept by every
step. The map of the slots is not carried along: it is read off the two contexts
behind both runs, because a slot that is handed out stays what it is, and each
step is stated for every map that the contexts behind it allow.

## Main definitions

* `Stmt.rename`, `Stmt.renameAll`: Other names in a program.
* `Instr.relocate`: Other slots and later labels in code.
* `Context.Tracks`: A context knows the renamed names of another one.
* `Context.Maps`: Slots of names go to the slots of the renamed names.

## Theorems

* `Context.tracks_bind`: Binding a name and its other name.
* `Arith.compile_rename`, `Cond.compile_rename`: Expressions and conditions.
* `Emits.exists_rename`: The code of a renamed block.
* `Context.exists_maps`: There is a map of the slots.
* `Stmt.compileAll_rename`: A block under other names in any context.
-/

namespace WhileLang

/-- Other names in an expression. -/
def Arith.rename (f : String → String) : Arith → Arith
  | .num n => .num n
  | .var x => .var (f x)
  | .op o l r => .op o (l.rename f) (r.rename f)

/-- Other names in a condition. -/
def Cond.rename (f : String → String) : Cond → Cond
  | .const value => .const value
  | .compare o l r => .compare o (l.rename f) (r.rename f)

mutual

/-- Other names in a statement. -/
def Stmt.rename (f : String → String) : Stmt → Stmt
  | .skip => .skip
  | .assign x a => .assign (f x) (a.rename f)
  | .ifElse c t e => .ifElse (c.rename f) (Stmt.renameAll f t) (Stmt.renameAll f e)
  | .whileDo c body => .whileDo (c.rename f) (Stmt.renameAll f body)
  | .forTo x a b body => .forTo (f x) (a.rename f) (b.rename f) (Stmt.renameAll f body)
  | .read x => .read (f x)
  | .write a => .write (a.rename f)
  | .print text => .print text

/-- Other names in statements one after the other. -/
def Stmt.renameAll (f : String → String) : Block → Block
  | [] => []
  | s :: rest => Stmt.rename f s :: Stmt.renameAll f rest

end

theorem Stmt.renameAll_append (f : String → String) (b b' : Block) :
    renameAll f (b ++ b') = renameAll f b ++ renameAll f b' := by
  induction b with
  | nil => rw [renameAll, List.nil_append, List.nil_append]
  | cons s b ih => rw [List.cons_append, renameAll, renameAll, ih, List.cons_append]

theorem Stmt.renameAll_counting (f : String → String) (x : String) (a b : Arith) (body : Block) :
    renameAll f (counting x a b body)
      = counting (f x) (a.rename f) (b.rename f) (renameAll f body) := by
  simp only [counting, renameAll, rename, renameAll_append, Cond.rename, Arith.rename]

/-- A label with a number that is larger by so much. -/
def Label.shift (n : Nat) (l : Label) : Label :=
  ⟨l.kind, l.id + n⟩

/-- An instruction with other slots, and with labels that are shifted. -/
def Instr.relocate (slots : Nat → Nat) (n : Nat) : Instr → Instr
  | .load slot => .load (slots slot)
  | .store slot => .store (slots slot)
  | .branch b l => .branch b (l.shift n)
  | .goto l => .goto (l.shift n)
  | .label l => .label (l.shift n)
  | i => i

namespace Context

variable {f : String → String} {σ : Nat → Nat} {n : Nat} {d d' c c' : Context}

/-- The second context knows all names of the first one under their other names, and it has minted
    so many labels more. -/
structure Tracks (f : String → String) (n : Nat) (d c : Context) : Prop where
  names : ∀ x ∈ d.names, f x ∈ c.names
  labels : c.labels = d.labels + n

/-- The slot of a name goes to the slot of its other name. -/
def Maps (f : String → String) (σ : Nat → Nat) (d c : Context) : Prop :=
  ∀ x k, d.slot? x = some k → c.slot? (f x) = some (σ k)

/-- A context that tracks another one has a map of its slots. -/
theorem exists_maps (h : Tracks f n d c) : ∃ σ, Maps f σ d c := by
  refine ⟨fun k => ((d.names[k]?).bind fun x => c.slot? (f x)).getD 0, fun x k hk => ?_⟩
  rcases exists_slot?_of_mem (h.names x (mem_of_slot? hk)) with ⟨k', hk'⟩
  simp only [getElem?_of_slot? hk, Option.bind_some, hk', Option.getD_some]

/-- A map of later slots is one of the slots that there were before. -/
theorem Maps.of_grows (h : Maps f σ d' c') (htracks : Tracks f n d c) (hd : d.Grows d')
    (hc : c.Grows c') : Maps f σ d c := by
  intro x k hk
  rcases exists_slot?_of_mem (htracks.names x (mem_of_slot? hk)) with ⟨k', hk'⟩
  have hlater : c'.slot? (f x) = some (σ k) := h x k (slot?_of_grows hd hk)
  rw [hk', ← hlater, slot?_of_grows hc hk']

/-- A map of slots that are different names gives different slots. -/
theorem Maps.injOn (h : Maps f σ d c) (hnodup : d.names.Nodup)
    (hf : Set.InjOn f {x | x ∈ d.names}) : Set.InjOn σ (Set.Iio d.names.length) := by
  intro j hj k hk heq
  rcases (numbers_names hnodup).bijective.surjOn ⟨j, hj, rfl⟩ with ⟨x, hx, hxj⟩
  rcases (numbers_names hnodup).bijective.surjOn ⟨k, hk, rfl⟩ with ⟨y, hy, hyk⟩
  have hsame : f x = f y := eq_of_slot? (h x j hxj) (heq ▸ h y k hyk)
  rw [hf hx hy hsame, hyk] at hxj
  exact (Option.some.inj hxj).symm

theorem tracks_empty (f : String → String) (c : Context) : Tracks f c.labels .empty c :=
  ⟨fun _ hx => absurd hx List.not_mem_nil, (Nat.zero_add _).symm⟩

theorem tracks_mint (h : Tracks f n d c) (m : Nat) :
    Tracks f n ⟨d.names, d.labels + m⟩ ⟨c.names, c.labels + m⟩ := by
  refine ⟨h.names, ?_⟩
  have hlabels := h.labels
  change c.labels + m = d.labels + m + n
  omega

/-- What is minted after the other context has minted the same is shifted. -/
theorem Tracks.shift_label (h : Tracks f n d c) (kind : LabelKind) (m : Nat) :
    Label.shift n ⟨kind, d.labels + m⟩ = ⟨kind, c.labels + m⟩ := by
  rw [Label.shift, h.labels, Nat.add_right_comm]

/-- A name is bound in the one context and its other name in the other one. -/
theorem tracks_bind (h : Tracks f n d c) (x : String) :
    Tracks f n (d.bind x).2 (c.bind (f x)).2 := by
  refine ⟨fun y hy => ?_, ?_⟩
  · rw [mem_names_bind] at hy ⊢
    exact hy.imp (h.names y) (congrArg f)
  · rw [labels_bind, labels_bind, h.labels]

/-- A map sends the slot of the bound name to the slot of its other name. -/
theorem Maps.bind_eq {x : String} (h : Maps f σ (d.bind x).2 (c.bind (f x)).2) :
    (c.bind (f x)).1 = σ (d.bind x).1 := by
  have hslot := h x _ (d.slot?_bind x)
  rw [c.slot?_bind (f x)] at hslot
  exact Option.some.inj hslot

end Context

open Context

section Expressions

variable {f : String → String} {σ : Nat → Nat} {d c : Context} {code : List Instr}

/-- Code of an expression under other names. -/
theorem Arith.compile_rename (hmaps : Maps f σ d c) (n : Nat) {a : Arith}
    (h : a.compile d = .ok code) : (a.rename f).compile c = .ok (code.map (Instr.relocate σ n)) := by
  induction a generalizing code with
  | num m =>
      rw [← compile_num_eq_ok.mp h]
      rfl
  | var x =>
      rcases compile_var_eq_ok.mp h with ⟨slot, hslot, rfl⟩
      exact compile_var_eq_ok.mpr ⟨σ slot, hmaps x slot hslot, rfl⟩
  | op o l r ihl ihr =>
      rcases compile_op_eq_ok.mp h with ⟨left, right, hl, hr, rfl⟩
      refine compile_op_eq_ok.mpr ⟨_, _, ihl hl, ihr hr, ?_⟩
      rw [List.map_append, List.map_append]
      rfl

/-- Code of a condition under other names jumps to the shifted label. -/
theorem Cond.compile_rename (hmaps : Maps f σ d c) (n : Nat) {cond : Cond} {skip : Label}
    (h : cond.compile d skip = .ok code) :
    (cond.rename f).compile c (skip.shift n) = .ok (code.map (Instr.relocate σ n)) := by
  cases cond with
  | const value =>
      cases value <;>
      · rw [← Except.ok.inj h]
        rfl
  | compare o l r =>
      rcases compile_compare_eq_ok.mp h with ⟨left, right, hl, hr, rfl⟩
      refine compile_compare_eq_ok.mpr ⟨_, _, Arith.compile_rename hmaps n hl,
        Arith.compile_rename hmaps n hr, ?_⟩
      rw [List.map_append, List.map_append]
      rfl

end Expressions

/-- The code of a block under other names, with a context that tracks the first one, is the code of
    the block for every map of the slots behind both. -/
theorem Emits.exists_rename {f : String → String} {n : Nat} {d d' c : Context} {b : Block}
    {code : List Instr} (h : Emits d b code d') (htracks : Tracks f n d c) :
    ∃ c', Tracks f n d' c' ∧ c.Grows c' ∧ ∀ σ, Maps f σ d' c' →
      Emits c (Stmt.renameAll f b) (code.map (Instr.relocate σ n)) c' := by
  induction h generalizing c with
  | nil d => exact ⟨c, htracks, c.grows_refl, fun σ _ => .nil c⟩
  | append _ hb' ih ih' =>
      rcases ih htracks with ⟨c₁, htracks₁, hgrows, hcode⟩
      rcases ih' htracks₁ with ⟨c', htracks', hgrows', hcode'⟩
      refine ⟨c', htracks', grows_trans hgrows hgrows', fun σ hmaps => ?_⟩
      rw [Stmt.renameAll_append, List.map_append]
      exact .append (hcode σ (hmaps.of_grows htracks₁ hb'.grows hgrows')) (hcode' σ hmaps)
  | skip d => exact ⟨c, htracks, c.grows_refl, fun σ _ => .skip c⟩
  | @assign d a value x hvalue =>
      refine ⟨_, tracks_bind htracks x, c.grows_bind (f x), fun σ hmaps => ?_⟩
      have hbefore := hmaps.of_grows htracks (d.grows_bind x) (c.grows_bind (f x))
      rw [List.map_append, List.map_singleton, Instr.relocate, ← hmaps.bind_eq]
      exact .assign (f x) (Arith.compile_rename hbefore n hvalue)
  | @ifElse d d₁ d' cond t e test thenCode elseCode htest hthen helse iht ihe =>
      have hminted := tracks_mint htracks 2
      rcases iht hminted with ⟨c₁, htracks₁, hgrows₁, hthenCode⟩
      rcases ihe htracks₁ with ⟨c', htracks', hgrows', helseCode⟩
      refine ⟨c', htracks', grows_trans (c.grows_mint 2) (grows_trans hgrows₁ hgrows'),
        fun σ hmaps => ?_⟩
      have hmaps₁ := hmaps.of_grows htracks₁ helse.grows hgrows'
      have htestCode := Cond.compile_rename (hmaps₁.of_grows hminted hthen.grows hgrows₁) n htest
      rw [htracks.shift_label] at htestCode
      have hall := Emits.ifElse htestCode (hthenCode σ hmaps₁) (helseCode σ hmaps)
      simpa only [Stmt.renameAll, Stmt.rename, List.map_append, List.map_cons, List.map_nil,
        Instr.relocate, htracks.shift_label] using hall
  | @whileDo d d' cond body test bodyCode htest hbody ih =>
      have hminted := tracks_mint htracks 2
      rcases ih hminted with ⟨c', htracks', hgrows', hbodyCode⟩
      refine ⟨c', htracks', grows_trans (c.grows_mint 2) hgrows', fun σ hmaps => ?_⟩
      have htestCode := Cond.compile_rename (hmaps.of_grows hminted hbody.grows hgrows') n htest
      rw [htracks.shift_label] at htestCode
      have hall := Emits.whileDo htestCode (hbodyCode σ hmaps)
      simpa only [Stmt.renameAll, Stmt.rename, List.map_append, List.map_cons, List.map_nil,
        Instr.relocate, htracks.shift_label] using hall
  | @forTo d d' x a b body code _ ih =>
      rcases ih htracks with ⟨c', htracks', hgrows, hcode⟩
      refine ⟨c', htracks', hgrows, fun σ hmaps => .forTo ?_⟩
      rw [← Stmt.renameAll_counting]
      exact hcode σ hmaps
  | read d x =>
      refine ⟨_, tracks_bind htracks x, c.grows_bind (f x), fun σ hmaps => ?_⟩
      have hcode : [Instr.readInt, .store (d.bind x).1].map (Instr.relocate σ n)
          = [.readInt, .store (c.bind (f x)).1] := by
        rw [hmaps.bind_eq]
        rfl
      rw [hcode]
      exact .read c (f x)
  | @write d a value hvalue =>
      refine ⟨c, htracks, c.grows_refl, fun σ hmaps => ?_⟩
      rw [List.map_append]
      exact .write (Arith.compile_rename hmaps n hvalue)
  | print d text => exact ⟨c, htracks, c.grows_refl, fun σ _ => .print c text⟩

/-- A block that compiles on its own also compiles under other names and with any context, whatever
    was compiled with it before. The code is the same with other slots, different ones for
    different slots, and with labels that are later by as many as the context had minted. A name has
    the slot that its slot was mapped to. -/
theorem Stmt.compileAll_rename {b : Block} {code : List Instr} {fresh : Context}
    (h : (compileAll b).run .empty = (.ok code, fresh)) {f : String → String}
    (hf : Set.InjOn f {x | .bind x ∈ occurrencesAll b}) (ctx : Context) :
    ∃ slots ctx', Set.InjOn slots (Set.Iio fresh.names.length) ∧
      (compileAll (renameAll f b)).run ctx
        = (.ok (code.map (Instr.relocate slots ctx.labels)), ctx') ∧
      ∀ x slot, fresh.slot? x = some slot → ctx'.slot? (f x) = some (slots slot) := by
  have hwalks := walks_compileAll b .empty
  have hcomplete : (Occurrence.walk (occurrencesAll b) []).2 = none := hwalks.walk_eq_none h
  have hnames : fresh.names = (Occurrence.walk (occurrencesAll b) []).1 := by
    have hrun := hwalks.names
    rwa [h] at hrun
  rcases (emits_compileAll b h).exists_rename (tracks_empty f ctx) with ⟨ctx', htracks, -, hcode⟩
  rcases exists_maps htracks with ⟨slots, hmaps⟩
  refine ⟨slots, ctx', hmaps.injOn ?_ ?_, yields_of_emits (hcode slots hmaps), hmaps⟩
  · rw [hnames]
    exact Occurrence.nodup_walk _ List.nodup_nil
  · refine hf.mono fun x hx => ?_
    change x ∈ fresh.names at hx
    rw [hnames] at hx
    exact (Occurrence.mem_walk_nil hcomplete).mp hx

/-- A block that failed has left a name and two labels behind. Under the name that it left, the
    second variable takes its slot, and the first one gets the next. -/
theorem Stmt.compileAll_rename_of_failure :
    ∃ ctx slots ctx',
      (compileAll [.read "b", .ifElse (.const true) [.write (.var "z")] []]).run .empty
        = (.error (.undefinedVariable "z"), ctx) ∧
      (compileAll [.read "a", .whileDo (.compare .less (.var "a") (.num 2)) [.read "b"]]).run ctx
        = (.ok ([.readInt, .store 0, .label ⟨.loopBegin, 1⟩, .load 0, .const 2,
            .branch .ge ⟨.loopEnd, 2⟩, .readInt, .store 1, .goto ⟨.loopBegin, 1⟩,
            .label ⟨.loopEnd, 2⟩].map (Instr.relocate slots 2)), ctx') ∧
      slots 0 = 1 ∧ slots 1 = 0 := by
  have hbound : ∀ x, .bind x ∈ occurrencesAll [.read "x",
      .whileDo (.compare .less (.var "x") (.num 2)) [.read "y"]] → x = "x" ∨ x = "y" := by
    intro x hx
    simpa [occurrencesAll, occurrences, Cond.occurrences, Arith.occurrences] using hx
  have hinj : Set.InjOn (fun x => if x = "x" then "a" else "b") {x | .bind x ∈ occurrencesAll
      [.read "x", .whileDo (.compare .less (.var "x") (.num 2)) [.read "y"]]} := by
    intro x hx y hy heq
    rcases hbound x hx with rfl | rfl <;> rcases hbound y hy with rfl | rfl
    · rfl
    · exact absurd heq (by decide)
    · exact absurd heq (by decide)
    · rfl
  have hfresh : (compileAll [.read "x",
      .whileDo (.compare .less (.var "x") (.num 2)) [.read "y"]]).run .empty
        = (.ok [.readInt, .store 0, .label ⟨.loopBegin, 1⟩, .load 0, .const 2,
            .branch .ge ⟨.loopEnd, 2⟩, .readInt, .store 1, .goto ⟨.loopBegin, 1⟩,
            .label ⟨.loopEnd, 2⟩], ⟨["x", "y"], 2⟩) := rfl
  rcases compileAll_rename hfresh hinj ⟨["b"], 2⟩ with ⟨slots, ctx', -, hrun, hslots⟩
  have hctx : ctx' = ⟨["b", "a"], 4⟩ := (Prod.mk.inj hrun).2.symm
  have hfirst := hslots "x" 0 rfl
  have hsecond := hslots "y" 1 rfl
  rw [hctx] at hfirst hsecond
  exact ⟨⟨["b"], 2⟩, slots, ctx', rfl, hrun, (Option.some.inj hfirst).symm,
    (Option.some.inj hsecond).symm⟩

end WhileLang
