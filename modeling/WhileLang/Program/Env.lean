/-!
# Variables

The values of the variables of a running program, by name. Variables are kept
in the order in which they were first set.

## Main definitions

* `Env`: Names with values.
* `Env.get?`: The value of a variable.
* `Env.set`: A variable set to a value.

## Theorems

* `Env.get?_set`: What a variable is after another one was set.
-/

namespace WhileLang

/-- The variables that were set, with their values. -/
structure Env where
  /-- Names and values, in the order in which the variables were first set. -/
  bindings : List (String × Int32)
deriving DecidableEq, Repr

namespace Env

/-- No variable was set. -/
def empty : Env := ⟨[]⟩

/-- The value of a variable. -/
def get? (env : Env) (name : String) : Option Int32 :=
  env.bindings.lookup name

/-- Sets a name in a list of bindings, at its place if it has one. -/
def setBinding (name : String) (value : Int32) : List (String × Int32) → List (String × Int32)
  | [] => [(name, value)]
  | b :: bs => if name = b.1 then (name, value) :: bs else b :: setBinding name value bs

/-- A variable set to a value. -/
def set (env : Env) (name : String) (value : Int32) : Env :=
  ⟨setBinding name value env.bindings⟩

@[simp] theorem get?_empty (name : String) : empty.get? name = none := rfl

theorem lookup_setBinding (bs : List (String × Int32)) (x y : String) (v : Int32) :
    (setBinding x v bs).lookup y = if y = x then some v else bs.lookup y := by
  induction bs with
  | nil =>
    by_cases h : y = x
    · rw [h, setBinding, List.lookup_cons_self, if_pos rfl]
    · rw [setBinding, List.lookup_cons, beq_eq_false_iff_ne.mpr h, if_neg h]
  | cons b bs ih =>
    rw [setBinding]
    split
    -- The name has its place here.
    · next hx =>
      by_cases h : y = x
      · rw [h, List.lookup_cons_self, if_pos rfl]
      · rw [List.lookup_cons, beq_eq_false_iff_ne.mpr h, if_neg h, List.lookup_cons,
          beq_eq_false_iff_ne.mpr (hx ▸ h)]
    -- Another name has its place here, and the search goes on.
    · next hx =>
      rw [List.lookup_cons, List.lookup_cons, ih]
      by_cases hb : y = b.1
      · simp only [hb, beq_self_eq_true, if_neg (Ne.symm hx)]
      · rw [beq_eq_false_iff_ne.mpr hb]

/-- A set variable has its new value, the others keep theirs. -/
theorem get?_set (env : Env) (x y : String) (v : Int32) :
    (env.set x v).get? y = if y = x then some v else env.get? y :=
  lookup_setBinding env.bindings x y v

end Env

end WhileLang
