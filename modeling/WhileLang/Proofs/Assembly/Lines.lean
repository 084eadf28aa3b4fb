import Mathlib.Data.List.TakeWhile
import WhileLang.Assembly.ClassName
import WhileLang.Proofs.Assembly.Operands

/-!
# Instructions Read Back

The line of an instruction as an assembler reads it: blanks, a word, one more
blank and an operand. The word says how the operand is to be read. A line
that is not indented is that of a label. The class of a method that is called
is skipped, up to the second slash, so no class name is needed to read a line;
it is enough that the name is valid, because then it has neither slashes nor
blanks nor line breaks in it.

Each instruction has exactly one line that is not blank, and it is read back
as that instruction.

## Main definitions

* `Assembly.readInstr?`: The instruction of that word and operand.
* `Assembly.readLine?`: The instruction of a line.
* `Assembly.textLine`: The line of an instruction, indented.
* `Assembly.linesOf`: The lines of a text that are not blank.

## Theorems

* `Assembly.readLine?_textLine`: A line is read back.
* `Assembly.linesOf_renderInstr`: An instruction has one line.
* `Assembly.renderInstr_congr`: The class name is in calls only.
-/

namespace WhileLang

namespace Assembly

/-- What stands behind the first occurrence of a character. -/
def behind (c : Char) (cs : List Char) : List Char :=
  (cs.dropWhile (· ≠ c)).tail

/-- The constant that an operand stands for. A text has to end where its quotes do. -/
def readConst? : List Char → Option Instr
  | '"' :: cs =>
    match readQuoted? cs with
    | some (text, []) => some (.text (String.ofList text))
    | _ => none
  | cs => (Decimal.readInt32? cs).map .const

/-- The call of that method. -/
def readMethod? (method : List Char) : Option Instr :=
  match String.ofList method with
  | "read()I" => some .readInt
  | "write(I)V" => some .printInt
  | "writes(Ljava/lang/String;)V" => some .printText
  | _ => none

/-- The instruction of that word and operand. -/
def readInstr? (word : String) (operand : List Char) : Option Instr :=
  match word with
  | "ldc" => readConst? operand
  | "iload" => (Decimal.readNat? operand).map .load
  | "istore" => (Decimal.readNat? operand).map .store
  | "iadd" => some (.arith .add)
  | "isub" => some (.arith .sub)
  | "imul" => some (.arith .mul)
  | "idiv" => some (.arith .div)
  | "if_icmpeq" => (Label.ofName? operand).map (.branch .eq)
  | "if_icmpne" => (Label.ofName? operand).map (.branch .ne)
  | "if_icmple" => (Label.ofName? operand).map (.branch .le)
  | "if_icmpge" => (Label.ofName? operand).map (.branch .ge)
  | "goto" => (Label.ofName? operand).map .goto
  | "invokestatic" => readMethod? (behind '/' (behind '/' operand))
  | _ => none

/-- The instruction of a line. -/
def readLine? (cs : List Char) : Option Instr :=
  match cs.dropPrefix? "    ".toList with
  | some cs => readInstr? (String.ofList (cs.takeWhile (· ≠ ' '))) (behind ' ' cs)
  | none => if cs.getLast? = some ':' then (Label.ofName? cs.dropLast).map .label else none

/-- The line of an instruction, indented unless it is a label. -/
def textLine (cls : String) (i : Instr) : List Char :=
  match i.mark? with
  | some _ => (line cls i).toList
  | none => "    ".toList ++ (line cls i).toList

/-- The lines of a text, without those that are blank. -/
def linesOf (cs : List Char) : List (List Char) :=
  (cs.splitOn '\n').filter fun l => !l.all Text.isBlank

theorem forall_ne_of_not_mem {c : Char} {cs : List Char} (h : c ∉ cs) :
    ∀ d ∈ cs, decide (d ≠ c) = true := by
  intro d hd
  exact decide_eq_true fun heq => h (heq ▸ hd)

theorem behind_append {c : Char} {cs : List Char} (h : c ∉ cs) (rest : List Char) :
    behind c (cs ++ c :: rest) = rest := by
  rw [behind, List.dropWhile_append_of_pos (forall_ne_of_not_mem h),
    List.dropWhile_cons_of_neg (by simp)]
  rfl

section Words

variable {w : List Char}

theorem readLine?_indented (cs : List Char) :
    readLine? ("    ".toList ++ cs)
      = readInstr? (String.ofList (cs.takeWhile (· ≠ ' '))) (behind ' ' cs) := by
  rw [readLine?, List.dropPrefix?_append_of_beq _ (beq_self_eq_true _)]

/-- A line with an operand is read by the word before it. -/
theorem readLine?_operand (hw : ' ' ∉ w) (operand : List Char) :
    readLine? ("    ".toList ++ (w ++ ' ' :: operand)) = readInstr? (String.ofList w) operand := by
  have hall := forall_ne_of_not_mem hw
  rw [readLine?_indented, List.takeWhile_append_of_pos hall,
    List.takeWhile_cons_of_neg (by simp), List.append_nil, behind_append hw]

/-- So is a line without one. -/
theorem readLine?_word (hw : ' ' ∉ w) :
    readLine? ("    ".toList ++ w) = readInstr? (String.ofList w) [] := by
  have hall := forall_ne_of_not_mem hw
  rw [readLine?_indented, List.takeWhile_eq_self_iff.mpr hall, behind,
    List.dropWhile_eq_nil_iff.mpr hall]
  rfl

end Words

/-- A numeral does not begin with a quote. -/
theorem readConst?_ofInt (n : Int32) : readConst? (Decimal.ofInt n.toInt) = some (.const n) := by
  rw [readConst?]
  · rw [Decimal.readInt32?_ofInt]
    rfl
  · intro cs h
    have hread := Decimal.readInt32?_ofInt n
    rw [h] at hread
    cases hread

theorem readNat?_natText (n : Nat) : Decimal.readNat? (Decimal.natText n).toList = some n := by
  rw [Decimal.natText, String.toList_ofList, Decimal.readNat?_toDigits]

theorem readConst?_quoteText (s : String) : readConst? (quoteText s).toList = some (.text s) := by
  rw [toList_quoteText, readConst?, readQuoted?_escaped]
  exact congrArg (fun s => some (Instr.text s)) String.ofList_toList

section Lines

variable {cls : String} {i : Instr}

theorem textLine_of_mark?_eq_none (h : i.mark? = none) :
    textLine cls i = "    ".toList ++ (line cls i).toList := by
  rw [textLine, h]

theorem toList_call (cls method : String) :
    (call cls method).toList = "invokestatic".toList
      ++ ' ' :: (cls.toList ++ '/' :: (cls.toList ++ '/' :: method.toList)) := by
  unfold call
  simp only [String.toList_append, List.append_assoc]
  rfl

theorem readLine?_textLine_operand (w operand : String) (hmark : i.mark? = none)
    (hline : line cls i = w ++ " " ++ operand) (hw : ' ' ∉ w.toList) :
    readLine? (textLine cls i) = readInstr? w operand.toList := by
  rw [textLine_of_mark?_eq_none hmark, hline, String.toList_append, String.toList_append,
    List.append_assoc]
  refine (readLine?_operand hw operand.toList).trans ?_
  rw [String.ofList_toList]

theorem not_mem_of_isClassName {c : Char} (hcls : IsClassName cls.toList)
    (hc : isClassChar c = false) : c ∉ cls.toList := by
  intro h
  exact Bool.false_ne_true (hc.symm.trans (List.all_eq_true.mp hcls.2 c h))

/-- A valid class name has no slash in it, so the method is what is behind the second one. -/
theorem readLine?_textLine_call (hcls : IsClassName cls.toList) (method : String)
    (hmark : i.mark? = none) (hline : line cls i = call cls method) :
    readLine? (textLine cls i) = readMethod? method.toList := by
  have hslash : '/' ∉ cls.toList := not_mem_of_isClassName hcls (by decide)
  have hword : ' ' ∉ "invokestatic".toList := by decide
  rw [textLine_of_mark?_eq_none hmark, hline, toList_call, readLine?_operand hword]
  change readMethod? (behind '/' (behind '/' _)) = _
  rw [behind_append hslash, behind_append hslash]

/-- The line of a label begins with its kind, so it is not indented. -/
theorem readLine?_label (l : Label) : readLine? (line cls (.label l)).toList = some (.label l) := by
  have hname : (line cls (.label l)).toList = l.display.toList ++ [':'] := String.toList_append
  have hmargin : (line cls (.label l)).toList.dropPrefix? "    ".toList = none := by
    rw [hname, Label.toList_display, List.append_assoc]
    cases l.kind <;> rfl
  rw [readLine?, hmargin, hname]
  dsimp only
  rw [if_pos List.getLast?_concat, List.dropLast_concat, Label.ofName?_display]
  rfl

/-- A line is read back as the instruction that it was made from. -/
theorem readLine?_textLine (hcls : IsClassName cls.toList) (i : Instr) :
    readLine? (textLine cls i) = some i := by
  cases i with
  | const n =>
      rw [readLine?_textLine_operand "ldc" (Decimal.text n.toInt) rfl rfl (by decide)]
      change readConst? _ = _
      rw [Decimal.text, String.toList_ofList, readConst?_ofInt]
  | text s =>
      rw [readLine?_textLine_operand "ldc" (quoteText s) rfl rfl (by decide)]
      exact readConst?_quoteText s
  | load slot =>
      rw [readLine?_textLine_operand "iload" (Decimal.natText slot) rfl rfl (by decide)]
      change (Decimal.readNat? _).map _ = _
      rw [readNat?_natText]
      rfl
  | store slot =>
      rw [readLine?_textLine_operand "istore" (Decimal.natText slot) rfl rfl (by decide)]
      change (Decimal.readNat? _).map _ = _
      rw [readNat?_natText]
      rfl
  | arith o =>
      have hword : ' ' ∉ (arithWord o).toList := by cases o <;> decide
      refine (readLine?_word hword).trans ?_
      cases o <;> rfl
  | branch b l =>
      rw [readLine?_textLine_operand (branchWord b) l.display rfl rfl (by cases b <;> decide)]
      have hread : readInstr? (branchWord b) l.display.toList
          = (Label.ofName? l.display.toList).map (.branch b) := by
        cases b <;> rfl
      rw [hread, Label.ofName?_display]
      rfl
  | goto l =>
      rw [readLine?_textLine_operand "goto" l.display rfl rfl (by decide)]
      change (Label.ofName? _).map _ = _
      rw [Label.ofName?_display]
      rfl
  | label l => exact readLine?_label l
  | readInt => exact readLine?_textLine_call hcls "read()I" rfl rfl
  | printInt => exact readLine?_textLine_call hcls "write(I)V" rfl rfl
  | printText => exact readLine?_textLine_call hcls "writes(Ljava/lang/String;)V" rfl rfl

theorem exists_head_line (cls : String) (i : Instr) :
    ∃ c cs, (line cls i).toList = c :: cs ∧ Text.isBlank c = false := by
  cases i with
  | arith o =>
      rw [line]
      cases o <;> exact ⟨_, _, rfl, by decide⟩
  | branch b l =>
      rw [line, String.toList_append, String.toList_append]
      cases b <;> exact ⟨_, _, rfl, by decide⟩
  | label l =>
      rw [line, String.toList_append, Label.toList_display]
      cases l.kind <;> exact ⟨_, _, rfl, by decide⟩
  | const | text | load | store | goto =>
      rw [line, String.toList_append]
      exact ⟨_, _, rfl, by decide⟩
  | readInt | printInt | printText =>
      rw [line, toList_call]
      exact ⟨_, _, rfl, by decide⟩

/-- The line of an instruction is not blank. -/
theorem textLine_not_blank (cls : String) (i : Instr) :
    (textLine cls i).all Text.isBlank = false := by
  rcases exists_head_line cls i with ⟨c, cs, hline, hc⟩
  rw [textLine]
  cases i.mark? <;> simp [hline, hc]

/-- A valid class name breaks no line, and nothing else in a line does. -/
theorem not_break_line (hcls : IsClassName cls.toList) (i : Instr) :
    '\n' ∉ (line cls i).toList := by
  have hname : '\n' ∉ cls.toList := not_mem_of_isClassName hcls (by decide)
  cases i with
  | const n => exact not_mem_toList_append (by decide) (not_break_text n.toInt)
  | text s => exact not_mem_toList_append (by decide) (not_break_quoteText s).1
  | load slot | store slot => exact not_mem_toList_append (by decide) (not_break_natText slot)
  | arith o =>
      rw [line]
      cases o <;> decide
  | branch b l =>
      refine not_mem_toList_append (not_mem_toList_append ?_ (by decide)) (not_break_display l)
      cases b <;> decide
  | goto l => exact not_mem_toList_append (by decide) (not_break_display l)
  | label l => exact not_mem_toList_append (not_break_display l) (by decide)
  | readInt | printInt | printText =>
      rw [line, toList_call]
      simp only [List.mem_append, List.mem_cons, not_or]
      exact ⟨by decide, by decide, hname, by decide, hname, by decide, by decide⟩

theorem not_break_textLine (hcls : IsClassName cls.toList) (i : Instr) :
    '\n' ∉ textLine cls i := by
  rw [textLine]
  cases i.mark? with
  | some l => exact not_break_line hcls i
  | none => exact List.mem_append.not.mpr (not_or.mpr ⟨by decide, not_break_line hcls i⟩)

theorem toList_renderInstr (cls : String) (i : Instr) :
    (renderInstr cls i).toList
      = (if i.mark?.isSome then ['\n'] else []) ++ textLine cls i ++ ['\n'] := by
  rw [renderInstr, textLine]
  cases i.mark? with
  | some l =>
      rw [String.toList_append, String.toList_append]
      rfl
  | none =>
      rw [String.toList_append, String.toList_append]
      rfl

/-- The lines before a line break and those behind it. -/
theorem linesOf_append_break (cs cs' : List Char) :
    linesOf (cs ++ '\n' :: cs') = linesOf cs ++ linesOf cs' := by
  rw [linesOf, List.splitOn_append_cons_self, List.filter_append]
  rfl

/-- A text without a line break is one line. -/
theorem linesOf_of_not_mem {cs : List Char} (h : '\n' ∉ cs) :
    linesOf cs = [cs].filter fun l => !l.all Text.isBlank := by
  rw [linesOf, List.splitOn_eq_singleton h]

/-- An instruction puts one line before what follows it. -/
theorem linesOf_renderInstr_append (hcls : IsClassName cls.toList) (i : Instr) (cs : List Char) :
    linesOf ((renderInstr cls i).toList ++ cs) = textLine cls i :: linesOf cs := by
  have hline : linesOf (textLine cls i) = [textLine cls i] := by
    rw [linesOf_of_not_mem (not_break_textLine hcls i), List.filter_singleton, textLine_not_blank]
    rfl
  have hafter : linesOf (textLine cls i ++ '\n' :: cs) = textLine cls i :: linesOf cs := by
    rw [linesOf_append_break, hline]
    rfl
  rw [toList_renderInstr, List.append_assoc, List.append_assoc]
  -- The line break before a label adds a line that is blank.
  cases i.mark?.isSome with
  | false => exact hafter
  | true => exact (linesOf_append_break [] _).trans hafter

/-- An instruction has one line that is not blank. -/
theorem linesOf_renderInstr (hcls : IsClassName cls.toList) (i : Instr) :
    linesOf (renderInstr cls i).toList = [textLine cls i] := by
  have h := linesOf_renderInstr_append hcls i []
  rwa [List.append_nil] at h

/-- The class name is written in calls of methods only, where nothing else is. -/
theorem renderInstr_congr (cls cls' : String) (h : i ∉ [.readInt, .printInt, .printText]) :
    renderInstr cls i = renderInstr cls' i := by
  cases i with
  | readInt | printInt | printText => exact absurd (by decide) h
  | _ => rfl

end Lines

end Assembly

end WhileLang
