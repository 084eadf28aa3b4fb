import WhileLang.Text.Utf8

/-!
# Positions in a Text

Where in a source text something stands. A position carries three counts that
follow different units: the offset counts bytes of UTF-8, lines count line
feeds, and columns count characters. Lines and columns start at one.

A position is found by walking over the text before it, one character at a
time. `advance_append` lets that walk be cut anywhere, so a scanner may keep
the position of the place it has reached instead of going back to the start.
`offset_advance`, `line_advance` and `column_advance` say what the walk
amounts to.

## Main definitions

* `Position`: Byte offset, line and column.
* `Position.behind`: The position behind a whole text, counted at once.
* `Position.advance`: The position behind a piece of text.
* `Span`: A piece of text, by its first position and the offset behind it.

## Theorems

* `Position.advance_append`: Walking over two pieces is walking over both.
* `Position.offset_advance`: The offset grows by the bytes of the text.
* `Position.line_advance`: The line grows by the line feeds of the text.
* `Position.column_advance`: The column counts from the last line feed.
-/

namespace WhileLang

/-- A place in a text. -/
structure Position where
  /-- Bytes of UTF-8 before the place. -/
  offset : Nat
  /-- Line, starting at one. -/
  line : Nat
  /-- Column in characters, starting at one. -/
  column : Nat
deriving Repr, DecidableEq, Inhabited

/-- A piece of text. -/
structure Span where
  start : Position
  /-- The byte offset just behind it. -/
  stop : Nat
deriving Repr, DecidableEq, Inhabited

namespace Position

/-- The beginning of a text. -/
def origin : Position := ⟨0, 1, 1⟩

/-- The place behind a text, counted over all of it. -/
def behind (before : List Char) : Position where
  offset := (Utf8.encode before).length
  line := 1 + before.count '\n'
  column := 1 + (before.reverse.takeWhile (· ≠ '\n')).length

/-- The place behind one character. -/
def next (p : Position) (c : Char) : Position :=
  if c = '\n' then ⟨p.offset + c.utf8Size, p.line + 1, 1⟩
  else ⟨p.offset + c.utf8Size, p.line, p.column + 1⟩

/-- The place behind a piece of text that starts at the given place. -/
def advance (p : Position) (cs : List Char) : Position :=
  cs.foldl next p

@[simp] theorem advance_nil (p : Position) : p.advance [] = p := rfl

@[simp] theorem advance_cons (p : Position) (c : Char) (cs : List Char) :
    p.advance (c :: cs) = (p.next c).advance cs := rfl

/-- Walking over two pieces is walking over both at once. -/
theorem advance_append (p : Position) (cs ds : List Char) :
    p.advance (cs ++ ds) = (p.advance cs).advance ds :=
  List.foldl_append

@[simp] theorem offset_next (p : Position) (c : Char) :
    (p.next c).offset = p.offset + c.utf8Size := by
  rw [next]
  split <;> rfl

/-- The offset grows by the size of the text in bytes. -/
theorem offset_advance (p : Position) (cs : List Char) :
    (p.advance cs).offset = p.offset + (Utf8.encode cs).length := by
  induction cs generalizing p with
  | nil => rfl
  | cons c cs ih => rw [advance_cons, ih, offset_next, Utf8.length_encode_cons, Nat.add_assoc]

/-- The line grows by the number of line feeds. -/
theorem line_advance (p : Position) (cs : List Char) :
    (p.advance cs).line = p.line + cs.count '\n' := by
  induction cs generalizing p with
  | nil => rfl
  | cons c cs ih =>
    rw [advance_cons, ih, next, List.count_cons]
    -- The step and the count move together, at a line feed and nowhere else.
    by_cases h : c = '\n'
    · simp only [h, if_true, beq_self_eq_true]
      omega
    · simp only [h, if_false, beq_iff_eq, Nat.add_zero]

/-- Without a line feed the column grows by the number of characters. -/
theorem column_advance_of_not_mem (p : Position) (cs : List Char) (h : '\n' ∉ cs) :
    (p.advance cs).column = p.column + cs.length := by
  induction cs generalizing p with
  | nil => rfl
  | cons c cs ih =>
    rw [List.mem_cons, not_or] at h
    rw [advance_cons, ih _ h.2, next, if_neg (Ne.symm h.1), List.length_cons]
    dsimp only
    omega

/-- Behind a line feed the column counts the characters since then. -/
theorem column_advance (p : Position) (cs ds : List Char) (h : '\n' ∉ ds) :
    (p.advance (cs ++ '\n' :: ds)).column = 1 + ds.length := by
  rw [advance_append, advance_cons, column_advance_of_not_mem _ _ h, next, if_pos rfl]

end Position

end WhileLang
