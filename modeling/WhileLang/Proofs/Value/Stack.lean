import Mathlib.Data.List.Basic
import WhileLang.Value.Traversal

/-!
# Walks With a Stack

What the walks over a value collect is what a recursion on the value collects,
although no walk descends into a value. A walk keeps a stack of the values
that are still to be visited. Each round takes the value at the top, adds what
this value has of its own, and pushes its parts, the last one first, so that
the first one is the next to be visited.

Two things are followed through the rounds. What has been found, together with
what the values on the stack still hold from the top down, stays the same
(`found_round`), and the stack loses exactly one node (`size_round`). So a
walk ends after as many rounds as its values have nodes, and what it has found
by then is all there is.

The recursions and the walks are brought together by one law: a function
`Collects` if its list is what a value has of its own, followed by the lists
of its parts. There is only one such function.

## Main definitions

* `Value.chars`, `Value.tags`: The text and the named parts, by recursion.
* `Value.parts`: The values directly in a value.
* `Value.Collects`: The law of a collecting recursion.
* `Walk`: A stack of values and what has been found.
* `Walk.round`, `Walk.rounds`: One round of a walk, and a number of them.

## Theorems

* `Value.Collects.unique`: The law has one solution.
* `Value.infix_of_mem_tags`: The text of a named part stands in the text.
* `Walk.rounds_size`: A walk visits every node once and then ends.
* `Value.walks_eq_recursions`: Text and named parts, by recursion and by a
  walk.
-/

namespace WhileLang

namespace Value

mutual

/-- The characters of a value, from left to right. -/
def chars : Value → List Char
  | .void => []
  | .char c => [c]
  | .seq v w => v.chars ++ w.chars
  | .left v | .right v | .tagged _ v => v.chars
  | .stars vs => charsEach vs

/-- The characters of several values in order. -/
def charsEach : List Value → List Char
  | [] => []
  | v :: vs => v.chars ++ charsEach vs

end

mutual

/-- The names in a value with the texts below them: a name before those inside it, and otherwise
    from left to right. -/
def tags : Value → List (String × List Char)
  | .void | .char _ => []
  | .seq v w => v.tags ++ w.tags
  | .left v | .right v => v.tags
  | .stars vs => tagsEach vs
  | .tagged name v => (name, v.chars) :: v.tags

/-- The names in several values in order. -/
def tagsEach : List Value → List (String × List Char)
  | [] => []
  | v :: vs => v.tags ++ tagsEach vs

end

/-- The values directly in a value, from left to right. -/
def parts : Value → List Value
  | .void | .char _ => []
  | .seq v w => [v, w]
  | .left v | .right v | .tagged _ v => [v]
  | .stars vs => vs

/-- The character that a value is. -/
def ownChar : Value → List Char
  | .char c => [c]
  | _ => []

/-- The name that a value has, with its text. -/
def ownTag : Value → List (String × List Char)
  | .tagged name v => [(name, v.flatten)]
  | _ => []

/-- The list of a value is what it has of its own, followed by the lists of its parts. -/
def Collects {β : Type} (own g : Value → List β) : Prop :=
  ∀ v, g v = own v ++ v.parts.flatMap g

variable {β : Type} {own g g' : Value → List β} {v w : Value} {vs : List Value}

theorem size_eq (v : Value) : v.size = sizeAll v.parts + 1 := by
  cases v <;> simp only [size, sizeAll, parts] <;> omega

theorem size_le_sizeAll (h : v ∈ vs) : v.size ≤ sizeAll vs := by
  induction vs with
  | nil => exact absurd h List.not_mem_nil
  | cons w vs ih =>
      rw [sizeAll]
      rcases List.mem_cons.mp h with rfl | h
      · omega
      · have := ih h
        omega

theorem sizeAll_eq_zero : sizeAll vs = 0 ↔ vs = [] := by
  cases vs with
  | nil => simp [sizeAll]
  | cons v vs => simp [sizeAll, size_eq]

theorem sizeAll_reverse (vs : List Value) : sizeAll vs.reverse = sizeAll vs := by
  induction vs with
  | nil => rfl
  | cons v vs ih =>
      rw [List.reverse_cons, sizeAll_append, ih]
      simp only [sizeAll]
      omega

/-- What holds of a value if it holds of its parts. -/
theorem parts_induction {motive : Value → Prop} (h : ∀ v, (∀ w ∈ v.parts, motive w) → motive v)
    (v : Value) : motive v := by
  refine h v fun w hw => ?_
  have hlt : w.size < v.size := by
    have := size_le_sizeAll hw
    rw [size_eq v]
    omega
  exact parts_induction h w
termination_by v.size

/-- There is one way to collect what values have of their own. -/
theorem Collects.unique (h : Collects own g) (h' : Collects own g') (v : Value) : g v = g' v := by
  induction v using parts_induction with
  | h v ih => rw [h v, h' v, List.flatMap_congr ih]

theorem charsEach_eq (vs : List Value) : charsEach vs = vs.flatMap chars := by
  induction vs with
  | nil => rfl
  | cons v vs ih => rw [charsEach, ih, List.flatMap_cons]

theorem tagsEach_eq (vs : List Value) : tagsEach vs = vs.flatMap tags := by
  induction vs with
  | nil => rfl
  | cons v vs ih => rw [tagsEach, ih, List.flatMap_cons]

theorem collects_chars : Collects ownChar chars := by
  intro v
  cases v <;> simp [chars, ownChar, parts, charsEach_eq]

theorem collects_flatten : Collects ownChar flatten := by
  intro v
  cases v <;> simp [ownChar, parts]

/-- The matched text is that of the recursion. -/
theorem flatten_eq_chars (v : Value) : v.flatten = v.chars :=
  collects_flatten.unique collects_chars v

theorem collects_tags : Collects ownTag tags := by
  intro v
  cases v <;> simp [tags, ownTag, parts, tagsEach_eq, flatten_eq_chars]

theorem collects_named : Collects ownTag named := by
  intro v
  cases v <;> simp [ownTag, parts]

/-- The named parts are those of the recursion. -/
theorem named_eq_tags (v : Value) : v.named = v.tags :=
  collects_named.unique collects_tags v

/-- The text of a part stands in the text of the value. -/
theorem chars_infix_of_mem_parts (h : w ∈ v.parts) : w.chars <:+: v.chars := by
  rcases List.append_of_mem h with ⟨front, back, hparts⟩
  refine ⟨ownChar v ++ front.flatMap chars, back.flatMap chars, ?_⟩
  rw [collects_chars v, hparts]
  simp only [List.flatMap_append, List.flatMap_cons, List.append_assoc]

/-- The text of a named part stands in the text of the value. -/
theorem infix_of_mem_tags {name : String} {text : List Char} (h : (name, text) ∈ v.tags) :
    text <:+: v.chars := by
  induction v using parts_induction with
  | h v ih =>
      rw [collects_tags v, List.mem_append, List.mem_flatMap] at h
      rcases h with h | ⟨w, hw, h⟩
      -- The name is that of the value itself, whose text is the text of what is below it.
      · cases v with
        | tagged name' v =>
            simp only [ownTag, List.mem_singleton, Prod.mk.injEq] at h
            have htext : text = (tagged name' v).chars := h.2.trans (flatten_eq_chars v)
            exact htext ▸ List.infix_refl _
        | _ => exact absurd h List.not_mem_nil
      · exact (ih w hw h).trans (chars_infix_of_mem_parts hw)

end Value

/-- A walk over values: those that are still to be visited, the next one at the end, and what has
    been found so far. -/
structure Walk (β : Type) where
  pending : List Value
  found : List β

namespace Walk

open Value

variable {β : Type} {own g : Value → List β}

/-- The walk that begins at a value. -/
def start (v : Value) : Walk β :=
  ⟨[v], []⟩

/-- One round: the value at the top of the stack gives way to its parts, and what it has of its own
    is found. There is no round without a value. -/
def round (own : Value → List β) (s : Walk β) : Option (Walk β) :=
  s.pending.getLast?.map fun v =>
    -- The first part is to be visited next, so it is pushed last.
    ⟨s.pending.dropLast ++ v.parts.reverse, s.found ++ own v⟩

/-- So many rounds, unless the walk ends before. -/
def rounds (own : Value → List β) : Nat → Walk β → Option (Walk β)
  | 0, s => some s
  | n + 1, s => (s.round own).bind (rounds own n)

/-- After so many rounds there is no further one, and this has been found. -/
def EndsAfter (own : Value → List β) (s : Walk β) (n : Nat) (found : List β) : Prop :=
  ∃ t, s.rounds own n = some t ∧ t.round own = none ∧ t.found = found

theorem round_concat (front : List Value) (v : Value) (found : List β) :
    round own ⟨front ++ [v], found⟩ = some ⟨front ++ v.parts.reverse, found ++ own v⟩ := by
  simp [round]

theorem round_eq_none {s : Walk β} : s.round own = none ↔ s.pending = [] := by
  simp [round]

/-- What has been found and what is still to be found stay the same together. -/
theorem found_round (hg : Collects own g) {s t : Walk β} (h : s.round own = some t) :
    t.found ++ t.pending.reverse.flatMap g = s.found ++ s.pending.reverse.flatMap g := by
  rcases s with ⟨pending, found⟩
  rcases List.eq_nil_or_concat' pending with rfl | ⟨front, v, rfl⟩
  · cases h
  · rw [round_concat, Option.some.injEq] at h
    rw [← h]
    simp [hg v]

/-- A round visits one node. -/
theorem size_round {s t : Walk β} (h : s.round own = some t) :
    sizeAll s.pending = sizeAll t.pending + 1 := by
  rcases s with ⟨pending, found⟩
  rcases List.eq_nil_or_concat' pending with rfl | ⟨front, v, rfl⟩
  · cases h
  · rw [round_concat, Option.some.injEq] at h
    rw [← h]
    simp only [sizeAll_append, sizeAll_reverse, sizeAll, size_eq v]
    omega

/-- A walk has a round for each node of its values, and then it has found what they hold. -/
theorem rounds_size (hg : Collects own g) (s : Walk β) :
    s.rounds own (sizeAll s.pending) = some ⟨[], s.found ++ s.pending.reverse.flatMap g⟩ := by
  generalize hn : sizeAll s.pending = n
  induction n generalizing s with
  | zero =>
      have hnil := sizeAll_eq_zero.mp hn
      rw [rounds, hnil, List.reverse_nil, List.flatMap_nil, List.append_nil, ← hnil]
  | succ n ih =>
      have hne : s.round own ≠ none := by
        rw [Ne, round_eq_none, ← sizeAll_eq_zero]
        omega
      rcases Option.ne_none_iff_exists'.mp hne with ⟨t, ht⟩
      have hsize := size_round ht
      rw [rounds, ht, Option.bind_some, ih t (by omega), found_round hg ht]

/-- A walk from a value ends with the list of the value, after a round for each node. -/
theorem endsAfter_start (hg : Collects own g) (v : Value) :
    (start v).EndsAfter own v.size (g v) := by
  refine ⟨⟨[], g v⟩, ?_, rfl, rfl⟩
  have h := rounds_size hg (start v)
  simpa [start, sizeAll] using h

end Walk

namespace Value

/-- The text and the named parts of a value are what recursions on the value collect. The text of
    each named part stands in the text of the value. The walks that collect the two with a stack
    end, after one round for each node of the value. -/
theorem walks_eq_recursions (v : Value) :
    v.flatten = v.chars ∧ v.named = v.tags ∧
      (∀ name text, (name, text) ∈ v.named → text <:+: v.flatten) ∧
      (Walk.start v).EndsAfter ownChar v.size v.flatten ∧
      (Walk.start v).EndsAfter ownTag v.size v.named := by
  refine ⟨flatten_eq_chars v, named_eq_tags v, fun name text h => ?_,
    Walk.endsAfter_start collects_flatten v, Walk.endsAfter_start collects_named v⟩
  rw [named_eq_tags] at h
  rw [flatten_eq_chars]
  exact infix_of_mem_tags h

/-- A name, and behind it rounds of which the second has a name inside a name. -/
def nestedNames : Value :=
  .seq (.tagged "word" (.stars [.char 'x', .char 'y']))
    (.stars [.char '=', .tagged "number" (.tagged "digit" (.char '7'))])

/-- The outer name comes first, and the text of the inner one is in the whole text. -/
theorem walks_eq_recursions_of_nestedNames :
    nestedNames.flatten = "xy=7".toList ∧
      nestedNames.named = [("word", ['x', 'y']), ("number", ['7']), ("digit", ['7'])] ∧
      ("digit", ['7']) ∈ nestedNames.named ∧ ['7'] <:+: nestedNames.flatten ∧
      (Walk.start nestedNames).EndsAfter ownTag 10 nestedNames.named := by
  rcases walks_eq_recursions nestedNames with ⟨htext, hnamed, hinfix, -, hends⟩
  have hmem : ("digit", ['7']) ∈ nestedNames.named := by
    rw [hnamed]
    decide
  exact ⟨htext.trans (by decide), hnamed.trans rfl, hmem, hinfix _ _ hmem, hends⟩

end Value

end WhileLang
