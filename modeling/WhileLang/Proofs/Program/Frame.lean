import WhileLang.Proofs.Code.Occurrences
import WhileLang.Proofs.Program.Ends

/-!
# Variables That Are Left Alone

A block changes only the variables that its text binds, and the value of an
expression depends only on the variables that its text uses. Both are read
off the occurrences, so they are known before anything is run: a variable
that a body does not bind has the same value behind every round, however
often the body is repeated and whatever it contains.

## Main definitions

* `Exec.Keeps`: A piece of a run that leaves a variable as it was.

## Theorems

* `Exec.keeps_bind`, `Exec.keeps_repeatWhile`: Sequences and loops of such
  pieces leave it as it was.
* `Stmt.execAll_keeps`: A block keeps the variables that it does not bind.
* `Stmt.Ends.get?_eq`: The same of the results of a block.
* `Arith.eval_congr`: An expression depends on the variables that it uses.
-/

namespace WhileLang

variable {α β : Type} {y : String}

namespace Exec

/-- Where the piece comes to its end, the variable is what it was. -/
def Keeps (y : String) (act : Exec α) : Prop :=
  ∀ s a s', act s = .ok a s' → s'.env.get? y = s.env.get? y

theorem keeps_pure (a : α) : Keeps y (pure a) := by
  intro s a' s' h
  cases h
  rfl

theorem keeps_bind {act : Exec α} {next : α → Exec β} (h : Keeps y act)
    (hnext : ∀ a, Keeps y (next a)) : Keeps y (act >>= next) := by
  intro s b s' hrun
  change EStateM.bind act next s = .ok b s' at hrun
  rw [EStateM.bind] at hrun
  rcases hact : act s with ⟨a, s₁⟩ | ⟨e, s₁⟩ <;> rw [hact] at hrun
  · exact (hnext a s₁ b s' hrun).trans (h s a s₁ hact)
  · cases hrun

theorem keeps_ofEnv (f : Env → Except RunError α) : Keeps y (ofEnv f) := by
  intro s a s' h
  rw [ofEnv] at h
  split at h <;> cases h
  rfl

theorem keeps_set {x : String} (hne : y ≠ x) (v : Int32) : Keeps y (set x v) := by
  intro s a s' h
  cases h
  rw [Env.get?_set, if_neg hne]

theorem keeps_onStreams (act : EStateM StreamError Streams α) : Keeps y (onStreams act) := by
  intro s a s' h
  rw [onStreams] at h
  split at h <;> cases h
  rfl

theorem keeps_assign {x : String} (hne : y ≠ x) (a : Arith) : Keeps y (assign x a) :=
  keeps_bind (keeps_ofEnv _) fun v => keeps_set hne v

theorem keeps_repeatWhile {test : Exec Bool} {body : Exec Unit} (htest : Keeps y test)
    (hbody : Keeps y body) (rounds : Nat) : Keeps y (repeatWhile test body rounds) := by
  induction rounds with
  | zero =>
      intro s a s' h
      cases h
  | succ n ih =>
      rw [repeatWhile]
      refine keeps_bind htest fun goesOn => ?_
      cases goesOn with
      | true => exact keeps_bind hbody fun _ => ih
      | false => exact keeps_pure ()

end Exec

open Exec

mutual

/-- A statement keeps the variables that it does not bind. -/
theorem Stmt.exec_keeps (fuel : Nat) :
    ∀ s : Stmt, Occurrence.bind y ∉ s.occurrences → Keeps y (s.exec fuel)
  | .skip, _ => by
      rw [Stmt.exec]
      exact keeps_pure ()
  | .assign x a, h => by
      rw [Stmt.exec]
      refine keeps_assign (fun heq => h ?_) a
      rw [Stmt.occurrences, heq]
      exact List.mem_append_right _ List.mem_cons_self
  | .ifElse c t e, h => by
      rw [Stmt.occurrences, List.mem_append, List.mem_append, not_or, not_or] at h
      rcases h with ⟨⟨-, ht⟩, he⟩
      rw [Stmt.exec]
      refine keeps_bind (keeps_ofEnv _) fun value => ?_
      cases value with
      | true => exact Stmt.execAll_keeps fuel t ht
      | false => exact Stmt.execAll_keeps fuel e he
  | .whileDo c body, h => by
      rw [Stmt.occurrences, List.mem_append, not_or] at h
      rw [Stmt.exec]
      exact keeps_repeatWhile (keeps_ofEnv _) (Stmt.execAll_keeps fuel body h.2) fuel
  | .forTo x a b body, h => by
      simp only [Stmt.occurrences, List.mem_append, List.mem_cons, not_or] at h
      rcases h with ⟨⟨-, hx, -⟩, hbody⟩
      have hne : y ≠ x := fun heq => hx (by rw [heq])
      rw [Stmt.exec]
      refine keeps_bind (keeps_assign hne a) fun _ => ?_
      refine keeps_repeatWhile ?_ ?_ fuel
      · exact keeps_bind (keeps_ofEnv _) fun v => keeps_bind (keeps_ofEnv _) fun bound =>
          keeps_pure (decide (v < bound))
      · exact keeps_bind (Stmt.execAll_keeps fuel body hbody) fun _ =>
          keeps_bind (keeps_ofEnv _) fun v => keeps_set hne (v + 1)
  | .read x, h => by
      rw [Stmt.exec]
      refine keeps_bind (keeps_onStreams _) fun v => keeps_set (fun heq => h ?_) v
      rw [Stmt.occurrences, heq]
      exact List.mem_cons_self
  | .write a, _ => by
      rw [Stmt.exec]
      exact keeps_bind (keeps_ofEnv _) fun v => keeps_onStreams _
  | .print text, _ => by
      rw [Stmt.exec]
      exact keeps_onStreams _

/-- A block keeps the variables that it does not bind. -/
theorem Stmt.execAll_keeps (fuel : Nat) :
    ∀ b : Block, Occurrence.bind y ∉ Stmt.occurrencesAll b → Keeps y (Stmt.execAll fuel b)
  | [], _ => by
      rw [Stmt.execAll]
      exact keeps_pure ()
  | s :: rest, h => by
      rw [Stmt.occurrencesAll, List.mem_append, not_or] at h
      rw [Stmt.execAll]
      exact keeps_bind (Stmt.exec_keeps fuel s h.1) fun _ => Stmt.execAll_keeps fuel rest h.2

end

/-- A block that has come to its end has kept the variables that it does not bind. -/
theorem Stmt.Ends.get?_eq {b : Block} {s s' : RunState} (h : Ends b s (.ok () s'))
    (hy : Occurrence.bind y ∉ Stmt.occurrencesAll b) : s'.env.get? y = s.env.get? y := by
  rcases h with ⟨-, fuel, hrun⟩
  exact Stmt.execAll_keeps fuel b hy s () s' hrun

/-- An expression depends on the variables that it uses. -/
theorem Arith.eval_congr {a : Arith} {env env' : Env}
    (h : ∀ y, Occurrence.use y ∈ a.occurrences → env.get? y = env'.get? y) :
    a.eval env = a.eval env' := by
  induction a with
  | num n => rfl
  | var x =>
      rw [eval, eval, Env.load, Env.load, h x List.mem_cons_self]
  | op o l r ihl ihr =>
      rw [eval, eval, ihl fun y hy => h y (List.mem_append_left _ hy),
        ihr fun y hy => h y (List.mem_append_right _ hy)]

end WhileLang
