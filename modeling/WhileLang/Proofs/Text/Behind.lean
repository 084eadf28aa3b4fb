import WhileLang.Text.Position

/-!
# Positions by What Is Before Them

A place in a text is settled by the text in front of it: the offset is its
size in bytes, the line counts its line feeds, and the column counts its
characters behind the last line feed. `Position.behind` says so at once, for
the whole text in front, where a scanner keeps the three counts up to date
from piece to piece. `advance_behind` is why both come to the same.

## Theorems

* `Position.advance_behind`: Walking on from the place behind a text.
* `Position.behind_append_of_not_mem`: Places in a line, by those in the line alone.
-/

namespace WhileLang

namespace Position

theorem next_behind (before : List Char) (c : Char) :
    (behind before).next c = behind (before ++ [c]) := by
  have hoffset : (Utf8.encode (before ++ [c])).length
      = (Utf8.encode before).length + c.utf8Size := by
    rw [Utf8.encode_append, List.length_append, Utf8.length_encode_cons]
    rfl
  rw [next, behind, behind, hoffset, List.count_append, List.reverse_append]
  by_cases hc : c = '\n'
  · rw [if_pos hc, hc]
    rfl
  · rw [if_neg hc, List.count_singleton, List.reverse_singleton, List.singleton_append,
      List.takeWhile_cons_of_pos (by simpa only [decide_eq_true_eq] using hc),
      if_neg (by simpa only [beq_iff_eq] using hc), List.length_cons]
    rfl

/-- Walking on from the place behind a text. -/
theorem advance_behind (before cs : List Char) :
    (behind before).advance cs = behind (before ++ cs) := by
  induction cs generalizing before with
  | nil => rw [advance_nil, List.append_nil]
  | cons c cs ih => rw [advance_cons, next_behind, ih, List.append_assoc, List.singleton_append]

/-- Walking on within a line. -/
theorem advance_of_not_mem (p : Position) {cs : List Char} (hcs : '\n' ∉ cs) :
    p.advance cs = ⟨p.offset + (Utf8.encode cs).length, p.line, p.column + cs.length⟩ := by
  calc p.advance cs
      = ⟨(p.advance cs).offset, (p.advance cs).line, (p.advance cs).column⟩ := rfl
    _ = _ := by
      rw [offset_advance, line_advance, column_advance_of_not_mem p cs hcs,
        List.count_eq_zero_of_not_mem hcs, Nat.add_zero]

/-- Where a line begins, what is in front of it counts for the offset and settles the line, and
    the column is that of the line alone. -/
theorem behind_append_of_not_mem {before cs : List Char} {start number : Nat}
    (hbefore : behind before = ⟨start, number, 1⟩) (hcs : '\n' ∉ cs) :
    behind (before ++ cs) = ⟨start + (behind cs).offset, number, (behind cs).column⟩ := by
  have halone : behind cs = ⟨0 + (Utf8.encode cs).length, 1, 1 + cs.length⟩ := by
    rw [← List.nil_append cs, ← advance_behind, advance_of_not_mem _ hcs]
    rfl
  rw [← advance_behind, hbefore, advance_of_not_mem _ hcs, halone, Nat.zero_add]

/-- A line feed ends a line. -/
theorem behind_newline {before : List Char} {start number column : Nat}
    (hbefore : behind before = ⟨start, number, column⟩) :
    behind (before ++ ['\n']) = ⟨start + 1, number + 1, 1⟩ := by
  rw [← next_behind, hbefore, next, if_pos rfl]
  rfl

end Position

end WhileLang
