import Mathlib.Data.List.Basic
import WhileLang.Assembly.Render

/-!
# Operands Read Back

The operands of instructions as an assembler reads them. Numbers are read by
the functions that read other numbers. A label is read by its kind and its
number, so labels that differ are written differently. A text is read up to
the first quote that has no backslash before it, and that is the quote which
was put at its end: whatever the text, and whatever stands behind it on the
line.

No operand breaks its line. Line breaks in a text are written with a
backslash and a letter, and nothing else that is written has any.

## Main definitions

* `Label.ofName?`: The label that a name belongs to.
* `Assembly.readQuoted?`: A text up to its closing quote.

## Theorems

* `Label.ofName?_display`, `Label.display_injective`: A label is read back.
* `Assembly.exists_quoted`: A quoted text is read back, and what stands
  behind it is left over.
* `Assembly.not_break_quoteText`: A quoted text breaks no line.
-/

namespace WhileLang

section Labels

/-- The kinds of labels. -/
def LabelKind.all : List LabelKind :=
  [.loopBegin, .loopEnd, .ifElse, .ifEnd]

namespace Label

/-- The label of that kind with that name, if there is one. -/
def ofKind? (name : List Char) (kind : LabelKind) : Option Label := do
  let digits ← name.dropPrefix? (kind.stem ++ "_").toList
  let id ← Decimal.readNat? digits
  return ⟨kind, id⟩

/-- The label that a name belongs to. -/
def ofName? (name : List Char) : Option Label :=
  LabelKind.all.findSome? (ofKind? name)

theorem toList_display (l : Label) :
    l.display.toList = (l.kind.stem ++ "_").toList ++ Nat.toDigits 10 l.id := by
  rw [display, String.toList_append, Decimal.natText, String.toList_ofList]

theorem ofKind?_display (l : Label) : ofKind? l.display.toList l.kind = some l := by
  rw [ofKind?, toList_display, List.dropPrefix?_append_of_beq _ (beq_self_eq_true _)]
  change (Decimal.readNat? (Nat.toDigits 10 l.id)).bind _ = _
  rw [Decimal.readNat?_toDigits]
  rfl

/-- The words for the kinds tell labels apart before their numbers begin. -/
theorem ofKind?_of_ne {kind kind' : LabelKind} (h : kind ≠ kind') (digits : List Char) :
    ofKind? ((kind'.stem ++ "_").toList ++ digits) kind = none := by
  cases kind <;> cases kind' <;> first | exact absurd rfl h | rfl

/-- A label is read back. -/
theorem ofName?_display (l : Label) : ofName? l.display.toList = some l := by
  have hself := ofKind?_display l
  have hother : ∀ kind, kind ≠ l.kind → ofKind? l.display.toList kind = none := by
    intro kind hkind
    rw [toList_display]
    exact ofKind?_of_ne hkind _
  rcases l with ⟨kind, id⟩
  cases kind <;> simp [ofName?, LabelKind.all, hself, hother]

/-- Labels that differ are written differently. -/
theorem display_injective : Function.Injective display := by
  intro l l' h
  have hl := ofName?_display l
  rw [h, ofName?_display] at hl
  exact (Option.some.inj hl).symm

end Label

end Labels

namespace Assembly

/-- The character that is meant behind a backslash. -/
def unescapeChar? : Char → Option Char
  | '\\' => some '\\'
  | '"' => some '"'
  | 'n' => some '\n'
  | 'r' => some '\r'
  | 't' => some '\t'
  | _ => none

/-- The text up to the closing quote, and what stands behind it. -/
def readQuoted? : List Char → Option (List Char × List Char)
  | [] => none
  | ['\\'] => none
  | '"' :: cs => some ([], cs)
  | '\\' :: c :: cs => do
    let d ← unescapeChar? c
    let (text, rest) ← readQuoted? cs
    return (d :: text, rest)
  | c :: cs => do
    let (text, rest) ← readQuoted? cs
    return (c :: text, rest)

/-- An escaped character is read as that character. -/
theorem readQuoted?_escapeChar (c : Char) (cs : List Char) :
    readQuoted? ((escapeChar c).toList ++ cs)
      = (readQuoted? cs).map fun p => (c :: p.1, p.2) := by
  fun_cases escapeChar c with
  | case1 | case2 | case3 | case4 | case5 =>
      change (readQuoted? cs).bind _ = _
      cases readQuoted? cs <;> rfl
  | case6 c hbackslash hquote =>
      rw [String.toList_singleton, List.singleton_append, readQuoted?]
      · cases readQuoted? cs <;> rfl
      · exact fun h _ => hbackslash h
      · exact hquote
      · exact fun _ _ h _ => hbackslash h

/-- An escaped text is read up to the quote behind it. -/
theorem readQuoted?_escaped (text rest : List Char) :
    readQuoted? ((text.flatMap fun c => (escapeChar c).toList) ++ '"' :: rest)
      = some (text, rest) := by
  induction text with
  | nil => rfl
  | cons c text ih =>
      rw [List.flatMap_cons, List.append_assoc, readQuoted?_escapeChar, ih]
      rfl

theorem toList_quoteText (s : String) :
    (quoteText s).toList = '"' :: ((s.toList.flatMap fun c => (escapeChar c).toList) ++ ['"']) := by
  rw [quoteText, String.toList_append, String.toList_append, String.toList_join,
    List.flatMap_map]
  rfl

/-- A quoted text is read back, and what stands behind it is left over. -/
theorem exists_quoted (s : String) :
    ∃ quoted, (quoteText s).toList = '"' :: quoted ∧
      ∀ rest, readQuoted? (quoted ++ rest) = some (s.toList, rest) := by
  refine ⟨_, toList_quoteText s, fun rest => ?_⟩
  rw [List.append_assoc]
  exact readQuoted?_escaped s.toList rest

theorem not_break_escapeChar (c : Char) :
    '\n' ∉ (escapeChar c).toList ∧ '\r' ∉ (escapeChar c).toList := by
  fun_cases escapeChar c with
  | case1 | case2 | case3 | case4 | case5 => decide
  | case6 c _ _ hfeed hreturn =>
      rw [String.toList_singleton, List.mem_singleton, List.mem_singleton]
      exact ⟨fun h => hfeed h.symm, fun h => hreturn h.symm⟩

/-- A quoted text breaks no line. -/
theorem not_break_quoteText (s : String) :
    '\n' ∉ (quoteText s).toList ∧ '\r' ∉ (quoteText s).toList := by
  have hescaped : ∀ d, (∀ c, d ∉ (escapeChar c).toList) → d ≠ '"' → d ∉ (quoteText s).toList := by
    intro d hchars hquote hd
    rw [toList_quoteText] at hd
    rcases List.mem_cons.mp hd with hd | hd
    · exact hquote hd
    rcases List.mem_append.mp hd with hd | hd
    · rcases List.mem_flatMap.mp hd with ⟨c, -, hc⟩
      exact hchars c hc
    · exact hquote (List.mem_singleton.mp hd)
  exact ⟨hescaped '\n' (fun c => (not_break_escapeChar c).1) (by decide),
    hescaped '\r' (fun c => (not_break_escapeChar c).2) (by decide)⟩

theorem not_break_natText (n : Nat) : '\n' ∉ (Decimal.natText n).toList := by
  rw [Decimal.natText, String.toList_ofList]
  intro h
  exact absurd (Nat.isDigit_of_mem_toDigits (by decide) (by decide) h) (by decide)

theorem not_break_text (n : Int) : '\n' ∉ (Decimal.text n).toList := by
  have hdigits : '\n' ∉ Nat.toDigits 10 n.natAbs := by
    have h := not_break_natText n.natAbs
    rwa [Decimal.natText, String.toList_ofList] at h
  rw [Decimal.text, String.toList_ofList, Decimal.ofInt]
  split
  · exact List.not_mem_cons_of_ne_of_not_mem (by decide) hdigits
  · exact hdigits

theorem not_mem_toList_append {c : Char} {s t : String} (hs : c ∉ s.toList) (ht : c ∉ t.toList) :
    c ∉ (s ++ t).toList := by
  rw [String.toList_append, List.mem_append]
  exact not_or.mpr ⟨hs, ht⟩

theorem not_break_display (l : Label) : '\n' ∉ l.display.toList := by
  refine not_mem_toList_append ?_ (not_break_natText l.id)
  cases l.kind <;> decide

end Assembly

end WhileLang
