import Mathlib.Data.List.DropRight
import WhileLang.Proofs.Assembly.Lines

/-!
# Assembly Texts Read Back

The instructions of a program, read back from the text that it was assembled
to. The main method is the last one of the text, and two lines end it, so
its instructions are found from behind: they reach back to the line that
opens it, which no instruction can be mistaken for. What the head of the text
is like does not matter, and the class name is needed neither to find the
instructions nor to read them.

## Main definitions

* `Assembly.readBack?`: The instructions of an assembly text.

## Theorems

* `Assembly.linesOf_render`: The lines of an assembly text.
* `Assembly.readBack?_render`: The instructions are read back.
* `Assembly.render_faithful`: A text determines its instructions, one line for
  each, and the class name touches none of their operands.
-/

namespace WhileLang

namespace Assembly

/-- The line behind which the instructions of the main method begin. -/
def opening : List Char := "    .limit stack 200".toList

/-- The line that opens the main method. -/
def mainLine : List Char := ".method public static main([Ljava/lang/String;)V".toList

/-- The line that says how many local variables there are. -/
def localsLine (slots : Nat) : List Char :=
  ("    .limit locals " ++ Decimal.natText (max slots leastLocals)).toList

/-- The instructions of an assembly text, if all of its lines can be read. -/
def readBack? (text : String) : Option (List Instr) :=
  ((linesOf text.toList).dropLast.dropLast.rtakeWhile (· ≠ opening)).mapM readLine?

variable {cls : String}

/-- The instructions of a program are its lines, one for each. -/
theorem linesOf_instrs_append (hcls : IsClassName cls.toList) (instrs : List Instr)
    (cs : List Char) :
    linesOf ((instrs.flatMap fun i => (renderInstr cls i).toList) ++ cs)
      = instrs.map (textLine cls) ++ linesOf cs := by
  induction instrs with
  | nil => rfl
  | cons i instrs ih =>
      rw [List.flatMap_cons, List.append_assoc, linesOf_renderInstr_append hcls, ih]
      rfl

theorem linesOf_opening_append (cs : List Char) :
    linesOf (opening ++ '\n' :: '\n' :: cs) = opening :: linesOf cs := by
  have hbreak : linesOf ('\n' :: cs) = linesOf cs := linesOf_append_break [] cs
  have hopening : linesOf opening = [opening] := by decide
  rw [linesOf_append_break, hbreak, hopening]
  rfl

theorem linesOf_footer : linesOf footer.toList = ["    return".toList, ".end method".toList] := by
  decide

theorem exists_toList_unlines {lines : List String} (h : lines ≠ []) :
    ∃ cs, (unlines lines).toList = cs ++ ['\n'] := by
  rcases List.eq_nil_or_concat lines with rfl | ⟨front, l, rfl⟩
  · exact absurd rfl h
  · refine ⟨(unlines front).toList ++ l.toList, ?_⟩
    rw [unlines, unlines, String.toList_join, String.toList_join, List.concat_eq_append,
      List.map_append, List.flatMap_append, List.append_assoc]
    simp only [List.map_singleton, List.flatMap_singleton, String.toList_append]
    rfl

/-- The head of the class ends with a line break, so the main method begins on a line of its own. -/
theorem exists_toList_header (cls : String) : ∃ cs, (header cls).toList = cs ++ ['\n'] := by
  have hmethods : ∃ cs, methods.toList = cs ++ ['\n'] := by
    unfold methods
    exact exists_toList_unlines (List.cons_ne_nil _ _)
  rcases hmethods with ⟨cs, hcs⟩
  refine ⟨(".class public " ++ cls ++ "." ++ cls ++ "\n").toList ++ cs, ?_⟩
  calc
    (header cls).toList
        = (".class public " ++ cls ++ "." ++ cls ++ "\n").toList ++ methods.toList :=
      String.toList_append
    _ = (".class public " ++ cls ++ "." ++ cls ++ "\n").toList ++ (cs ++ ['\n']) :=
      congrArg _ hcs
    _ = (".class public " ++ cls ++ "." ++ cls ++ "\n").toList ++ cs ++ ['\n'] :=
      (List.append_assoc _ _ _).symm

/-- The opening of the main method has three lines. -/
theorem toList_prologue (slots : Nat) :
    (prologue slots).toList = mainLine ++ '\n' :: (localsLine slots ++ '\n' ::
      (opening ++ ['\n', '\n'])) := by
  have hlimit : ("    .limit stack " ++ Decimal.natText stackLimit).toList = opening := by decide
  rw [prologue, unlines, String.toList_join, List.flatMap_map]
  simp only [List.flatMap_cons, List.flatMap_nil, String.toList_append (t := "\n"), hlimit]
  simp only [List.append_assoc]
  rfl

theorem linesOf_localsLine (slots : Nat) : linesOf (localsLine slots) = [localsLine slots] := by
  have hbreak : '\n' ∉ localsLine slots := not_mem_toList_append (by decide) (not_break_natText _)
  have hblank : (localsLine slots).all Text.isBlank = false := by
    rw [localsLine, String.toList_append, List.all_append]
    rfl
  rw [linesOf_of_not_mem hbreak, List.filter_singleton, hblank]
  rfl

/-- The lines of an assembly text are those of its instructions, behind the opening of the main
    method and before its end. -/
theorem linesOf_render (hcls : IsClassName cls.toList) (code : Code) :
    ∃ front, linesOf (render cls code).toList
      = front ++ mainLine :: localsLine code.slots :: opening :: code.instrs.map (textLine cls)
        ++ ["    return".toList, ".end method".toList] := by
  rcases exists_toList_header cls with ⟨front, hfront⟩
  have hmain : linesOf mainLine = [mainLine] := by decide
  refine ⟨linesOf front, ?_⟩
  rw [render, String.toList_append, String.toList_append, String.toList_append, hfront,
    toList_prologue, String.toList_join, List.flatMap_map]
  simp only [List.append_assoc, List.cons_append, List.nil_append]
  rw [linesOf_append_break, linesOf_append_break, linesOf_append_break, linesOf_opening_append,
    linesOf_instrs_append hcls, linesOf_footer, hmain, linesOf_localsLine]
  rfl

/-- No instruction can be mistaken for the opening of the main method. -/
theorem textLine_ne_opening (hcls : IsClassName cls.toList) (i : Instr) :
    textLine cls i ≠ opening := by
  intro h
  have hread := readLine?_textLine hcls i
  rw [h] at hread
  cases hread

/-- What stands behind the last element that is looked for. -/
theorem rtakeWhile_append_cons {α : Type} {p : α → Bool} {x : α} {xs : List α} (hx : p x = false)
    (hxs : ∀ y ∈ xs, p y = true) (front : List α) : (front ++ x :: xs).rtakeWhile p = xs := by
  have hreverse : ∀ y ∈ xs.reverse, p y = true := fun y hy => hxs y (List.mem_reverse.mp hy)
  rw [List.rtakeWhile, List.reverse_append, List.reverse_cons, List.append_assoc,
    List.takeWhile_append_of_pos hreverse, List.singleton_append,
    List.takeWhile_cons_of_neg (by simp [hx]), List.append_nil, List.reverse_reverse]

/-- The instructions of a program are read back from its assembly text. -/
theorem readBack?_render (hcls : IsClassName cls.toList) (code : Code) :
    readBack? (render cls code) = some code.instrs := by
  obtain ⟨front, hlines⟩ : ∃ front, linesOf (render cls code).toList
      = front ++ opening :: code.instrs.map (textLine cls)
        ++ ["    return".toList, ".end method".toList] := by
    rcases linesOf_render hcls code with ⟨front, hlines⟩
    refine ⟨front ++ [mainLine, localsLine code.slots], ?_⟩
    rw [hlines]
    simp only [List.append_assoc, List.cons_append, List.nil_append]
  have hlast : (front ++ opening :: code.instrs.map (textLine cls)
        ++ ["    return".toList, ".end method".toList]).dropLast.dropLast
      = front ++ opening :: code.instrs.map (textLine cls) := by
    rw [List.append_cons, List.dropLast_concat, List.dropLast_concat]
  have hbody : (front ++ opening :: code.instrs.map (textLine cls)).rtakeWhile (· ≠ opening)
      = code.instrs.map (textLine cls) := by
    refine rtakeWhile_append_cons (by simp) (fun l hl => ?_) front
    rcases List.mem_map.mp hl with ⟨i, -, rfl⟩
    exact decide_eq_true (textLine_ne_opening hcls i)
  rw [readBack?, hlines, hlast, hbody, List.mapM_map]
  have hread : ∀ i, readLine? (textLine cls i) = some i := readLine?_textLine hcls
  simp only [Function.comp_def, hread]
  exact (List.mapM_pure).trans (congrArg some (List.map_id _))

/-- An assembly text says which instructions it was made from, whatever class it is for. Each
    instruction has one line of its own, a text constant ends where its closing quote is put and
    breaks no line, and the class name is written where no operand is. -/
theorem render_faithful (hcls : IsClassName cls.toList) :
    (∀ code code', render cls code = render cls code' → code.instrs = code'.instrs) ∧
    (∀ code, readBack? (render cls code) = some code.instrs) ∧
    (∀ i, linesOf (renderInstr cls i).toList = [textLine cls i] ∧
      readLine? (textLine cls i) = some i) ∧
    (∀ s, (∃ quoted, (quoteText s).toList = '"' :: quoted ∧
        ∀ rest, readQuoted? (quoted ++ rest) = some (s.toList, rest)) ∧
      '\n' ∉ (quoteText s).toList ∧ '\r' ∉ (quoteText s).toList) ∧
    ∀ i cls', i ∉ [.readInt, .printInt, .printText] → renderInstr cls i = renderInstr cls' i := by
  refine ⟨?_, readBack?_render hcls, ?_, ?_, ?_⟩
  · intro code code' heq
    have hread := readBack?_render hcls code
    rw [heq, readBack?_render hcls code'] at hread
    exact (Option.some.inj hread).symm
  · intro i
    exact ⟨linesOf_renderInstr hcls i, readLine?_textLine hcls i⟩
  · intro s
    exact ⟨exists_quoted s, not_break_quoteText s⟩
  · intro i cls' hi
    exact renderInstr_congr cls cls' hi

/-- A text with quotes, a backslash, line breaks and a word that might be taken for the class. -/
theorem render_faithful_of_quotes :
    IsClassName "Demo".toList ∧
    renderInstr "Demo" (.text "XXX\"\\\r\n") = "    ldc \"XXX\\\"\\\\\\r\\n\"\n" ∧
    readBack? (render "Demo" ⟨[.text "XXX\"\\\r\n", .printText, .label ⟨.loopEnd, 2⟩], 0⟩)
      = some [.text "XXX\"\\\r\n", .printText, .label ⟨.loopEnd, 2⟩] := by
  have hcls : IsClassName "Demo".toList := ⟨⟨'D', "emo".toList, rfl, by decide⟩, by decide⟩
  exact ⟨hcls, by decide, (render_faithful hcls).2.1 _⟩

end Assembly

end WhileLang
