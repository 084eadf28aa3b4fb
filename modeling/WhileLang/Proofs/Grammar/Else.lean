import WhileLang.Proofs.Grammar.Trees

/-!
# Which If an Else Belongs To

The one choice that the grammar leaves. A derivation is open if an `else`
behind it could be taken by an `if` in it, the last one that has none; this
depends on the statements at its end only, since braces and semicolons close
what stands before them. An `else` belongs to the nearest `if` that can still
take one exactly if no `then` part with an `else` behind it is open.

An `else` with its block can be moved from the `if` that has it to the last
open one in the `then` part. Two derivations are reattachments of each other
if such moves lead from one to the other. Moving every `else` as far inside
as possible settles a derivation, so each derivation has a reattachment in
which every `else` belongs to the nearest `if`.

## Main definitions

* `StmtTree.isOpen`: An `else` behind the derivation could be taken.
* `StmtTree.Nearest`: Every `else` belongs to the nearest `if`.
* `StmtTree.giveElse`: The derivation with an `else` taken by the last open `if`.
* `StmtTree.Reattached`: Only the attachment of `else` is different.
* `StmtTree.settle`: Every `else` moved to the nearest `if`.

## Theorems

* `StmtTree.yield_giveElse`: What is taken comes last.
* `StmtTree.Reattached.yield_eq`: Reattachments derive the same tokens.
* `StmtTree.nearest_settle`: What settling achieves.
* `StmtTree.reattached_settle`: Settling only moves `else`.
-/

namespace WhileLang

namespace StmtTree

/-- An `else` behind the derivation could be taken by an `if` in it. -/
def isOpen : {p : StmtPart} → StmtTree p → Bool
  | _, .single s => s.isOpen
  | _, .ifThen _ _ => true
  | _, .ifThenElse _ _ e => e.isOpen
  | _, .whileDo _ _ body => body.isOpen
  | _, .forTo _ _ _ _ body => body.isOpen
  | _, _ => false

/-- Every `else` belongs to the nearest `if` before it that can still take one. -/
def Nearest : {p : StmtPart} → StmtTree p → Prop
  | _, .program o => o.Nearest
  | _, .filled ss _ => ss.Nearest
  | _, .statements first more => first.Nearest ∧ more.Nearest
  | _, .others s more => s.Nearest ∧ more.Nearest
  | _, .braces o => o.Nearest
  | _, .single s => s.Nearest
  | _, .ifThen _ t => t.Nearest
  | _, .ifThenElse _ t e => t.isOpen = false ∧ t.Nearest ∧ e.Nearest
  | _, .whileDo _ _ body => body.Nearest
  | _, .forTo _ _ _ _ body => body.Nearest
  | _, _ => True

/-- The derivation with an `else` and its block taken by the last open `if`, if there is one. -/
def giveElse : {p : StmtPart} → StmtTree p → StmtTree .block → StmtTree p
  | _, .single s, taken => .single (s.giveElse taken)
  | _, .ifThen c t, taken =>
    if t.isOpen then .ifThen c (t.giveElse taken) else .ifThenElse c t taken
  | _, .ifThenElse c t e, taken => .ifThenElse c t (e.giveElse taken)
  | _, .whileDo c withDo body, taken => .whileDo c withDo (body.giveElse taken)
  | _, .forTo x start bound withDo body, taken =>
    .forTo x start bound withDo (body.giveElse taken)
  | _, d, _ => d

/-- Two derivations that differ only in which `if` an `else` belongs to. -/
inductive Reattached : {p : StmtPart} → StmtTree p → StmtTree p → Prop where
  /-- An `else` is moved to the last open `if` of the `then` part. -/
  | move {c : CondTree} {t e : StmtTree .block} (h : t.isOpen = true) :
      Reattached (.ifThenElse c t e) (.ifThen c (t.giveElse e))
  | refl {p : StmtPart} (d : StmtTree p) : Reattached d d
  | symm {p : StmtPart} {d d' : StmtTree p} (h : Reattached d d') : Reattached d' d
  | trans {p : StmtPart} {d d' d'' : StmtTree p} (h : Reattached d d') (h' : Reattached d' d'') :
      Reattached d d''
  -- The moves may be anywhere in a derivation.
  | program {o o' : StmtTree .opening} (h : Reattached o o') : Reattached (.program o) (.program o')
  | filled {ss ss' : StmtTree .statements} {semicolon : Bool} (h : Reattached ss ss') :
      Reattached (.filled ss semicolon) (.filled ss' semicolon)
  | statements {s s' : StmtTree .statement} {more more' : StmtTree .others}
      (h : Reattached s s') (hmore : Reattached more more') :
      Reattached (.statements s more) (.statements s' more')
  | others {s s' : StmtTree .statement} {more more' : StmtTree .others}
      (h : Reattached s s') (hmore : Reattached more more') :
      Reattached (.others s more) (.others s' more')
  | braces {o o' : StmtTree .opening} (h : Reattached o o') : Reattached (.braces o) (.braces o')
  | single {s s' : StmtTree .statement} (h : Reattached s s') : Reattached (.single s) (.single s')
  | ifThen {c : CondTree} {t t' : StmtTree .block} (h : Reattached t t') :
      Reattached (.ifThen c t) (.ifThen c t')
  | ifThenElse {c : CondTree} {t t' e e' : StmtTree .block}
      (h : Reattached t t') (he : Reattached e e') :
      Reattached (.ifThenElse c t e) (.ifThenElse c t' e')
  | whileDo {c : CondTree} {withDo : Bool} {body body' : StmtTree .block}
      (h : Reattached body body') : Reattached (.whileDo c withDo body) (.whileDo c withDo body')
  | forTo {x : String} {start bound : ExprTree} {withDo : Bool} {body body' : StmtTree .block}
      (h : Reattached body body') :
      Reattached (.forTo x start bound withDo body) (.forTo x start bound withDo body')

/-- What is taken comes last. -/
theorem yield_giveElse {p : StmtPart} (d : StmtTree p) (taken : StmtTree .block)
    (h : d.isOpen = true) :
    (d.giveElse taken).yield = d.yield ++ .keyword .elseKw :: taken.yield := by
  -- Along the end of the derivation, down to the last `if` without an `else`.
  induction d with
  | ifThen c t ih =>
      rw [giveElse]
      split
      next ht => simp [yield, ih ht]
      next ht => simp [yield]
  | single s ih => exact ih h
  | ifThenElse c t e iht ihe => simp [giveElse, yield, ihe h]
  | whileDo c withDo body ih => simp [giveElse, yield, ih h]
  | forTo x start bound withDo body ih => simp [giveElse, yield, ih h]
  | _ => cases h

/-- Reattachments derive the same tokens. -/
theorem Reattached.yield_eq {p : StmtPart} {d d' : StmtTree p} (h : Reattached d d') :
    d.yield = d'.yield := by
  induction h with
  | move h => simp [yield, yield_giveElse _ _ h]
  | refl => rfl
  | symm _ ih => exact ih.symm
  | trans _ _ ih ih' => exact ih.trans ih'
  | program _ ih | filled _ ih | braces _ ih | single _ ih | ifThen _ ih | whileDo _ ih
  | forTo _ ih => simp only [yield, ih]
  | statements _ _ ih ihmore | others _ _ ih ihmore | ifThenElse _ _ ih ihmore =>
      simp only [yield, ih, ihmore]

/-- Taking an `else` at the nearest `if` leaves every `else` at the nearest `if`. -/
theorem Nearest.giveElse {taken : StmtTree .block} (htaken : taken.Nearest) {p : StmtPart}
    {d : StmtTree p} (h : d.Nearest) : (d.giveElse taken).Nearest := by
  induction d with
  | ifThen c t ih =>
      rw [StmtTree.giveElse]
      split
      next ht => exact ih h
      next ht => exact ⟨Bool.eq_false_iff.mpr ht, h, htaken⟩
  | single s ih => exact ih h
  | ifThenElse c t e iht ihe => exact ⟨h.1, h.2.1, ihe h.2.2⟩
  | whileDo c withDo body ih => exact ih h
  | forTo x start bound withDo body ih => exact ih h
  | _ => exact h

/-- Every `else` moved to the nearest `if`. -/
def settle : {p : StmtPart} → StmtTree p → StmtTree p
  | _, .program o => .program o.settle
  | _, .filled ss semicolon => .filled ss.settle semicolon
  | _, .statements first more => .statements first.settle more.settle
  | _, .others s more => .others s.settle more.settle
  | _, .braces o => .braces o.settle
  | _, .single s => .single s.settle
  | _, .ifThen c t => .ifThen c t.settle
  | _, .ifThenElse c t e =>
    -- The `then` part may only have become open by being settled itself.
    if t.settle.isOpen then .ifThen c (t.settle.giveElse e.settle)
    else .ifThenElse c t.settle e.settle
  | _, .whileDo c withDo body => .whileDo c withDo body.settle
  | _, .forTo x start bound withDo body => .forTo x start bound withDo body.settle
  | _, d => d

/-- In a settled derivation every `else` belongs to the nearest `if`. -/
theorem nearest_settle {p : StmtPart} (d : StmtTree p) : d.settle.Nearest := by
  induction d with
  | ifThenElse c t e iht ihe =>
      rw [settle]
      split
      next ht => exact Nearest.giveElse ihe iht
      next ht => exact ⟨Bool.eq_false_iff.mpr ht, iht, ihe⟩
  | program o ih | filled o _ ih | braces o ih | single o ih | ifThen _ o ih | whileDo _ _ o ih
  | forTo _ _ _ _ o ih => exact ih
  | statements s more ih ihmore | others s more ih ihmore => exact ⟨ih, ihmore⟩
  | _ => trivial

/-- Settling only moves `else`. -/
theorem reattached_settle {p : StmtPart} (d : StmtTree p) : Reattached d d.settle := by
  induction d with
  | ifThenElse c t e iht ihe =>
      rw [settle]
      split
      next ht => exact (Reattached.ifThenElse iht ihe).trans (.move ht)
      next ht => exact .ifThenElse iht ihe
  | program o ih => exact .program ih
  | filled ss semicolon ih => exact .filled ih
  | statements first more ih ihmore => exact .statements ih ihmore
  | others s more ih ihmore => exact .others ih ihmore
  | braces o ih => exact .braces ih
  | single s ih => exact .single ih
  | ifThen c t ih => exact .ifThen ih
  | whileDo c withDo body ih => exact .whileDo ih
  | forTo x start bound withDo body ih => exact .forTo ih
  | _ => exact .refl _

end StmtTree

end WhileLang
