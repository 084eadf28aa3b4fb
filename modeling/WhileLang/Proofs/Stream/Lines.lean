import WhileLang.Proofs.Text.Numeral
import WhileLang.Stream.Basic

/-!
# Reading Line by Line

Numbers are read one to a line. Each read looks at the next line, whatever the
reads before it came to: a line that holds no number is used up by the read
that fails on it. Behind the last line every read finds the end of the input.

A line feed ends a line. What stands behind the last line feed is a line only
if there is something. In the encoding of a text, the byte of the line feed
occurs nowhere else, so a line of the input is the encoding of a line of the
text.

What is written as a line is read as one, and a written number has no blanks in
it. So the numbers that were written are read back, all of them and no more.

## Main definitions

* `Text.lines`: The lines of a text.
* `Streams.readInts`: The results of reads one after the other.
* `Streams.Answers`: What a read of a line has to come to.

## Theorems

* `Utf8.encode_of_decode?`: Valid input is the encoding of a text.
* `Streams.attempt_line`: A read uses up a line.
* `Streams.getElem?_readInts`: Which line each of the reads looks at.
* `Streams.answers_answer`: What it comes to.
* `Streams.reads_lines`: All of this, and how written numbers are read back.
-/

namespace WhileLang

namespace Utf8

variable {c : Char} {cs : List Char} {bytes : List UInt8}

/-- The byte of a line feed encodes nothing else. -/
theorem lineFeed_not_mem_utf8EncodeChar (hc : c ≠ '\n') :
    (10 : UInt8) ∉ String.utf8EncodeChar c := by
  have hten : c.val.toNat ≠ 10 := fun h => hc (Char.ext (UInt32.toNat_inj.mp h))
  have hcons : ∀ {n bs}, n < 256 → n ≠ 10 → (10 : UInt8) ∉ bs → 10 ∉ UInt8.ofNat n :: bs := by
    intro n bs hn hne hbs hmem
    rcases List.mem_cons.mp hmem with heq | hmem
    · have hnat := congrArg UInt8.toNat heq
      rw [UInt8.toNat_ofNat_of_lt' hn] at hnat
      exact hne hnat.symm
    · exact hbs hmem
  have hnil : (10 : UInt8) ∉ [] := List.not_mem_nil
  rw [String.utf8EncodeChar]
  generalize c.val.toNat = v at hten
  -- A character of more than one byte has none below 128.
  split
  · exact hcons (by omega) hten hnil
  · split
    · exact hcons (by omega) (by omega) (hcons (by omega) (by omega) hnil)
    · split
      · exact hcons (by omega) (by omega)
          (hcons (by omega) (by omega) (hcons (by omega) (by omega) hnil))
      · exact hcons (by omega) (by omega) (hcons (by omega) (by omega)
          (hcons (by omega) (by omega) (hcons (by omega) (by omega) hnil)))

theorem lineFeed_not_mem_encode (hcs : '\n' ∉ cs) : (10 : UInt8) ∉ encode cs := by
  rw [encode, List.mem_flatMap]
  rintro ⟨c, hc, hmem⟩
  have hne : c ≠ '\n' := fun heq => hcs (heq ▸ hc)
  exact lineFeed_not_mem_utf8EncodeChar hne hmem

/-- Valid bytes are the encoding of their text. -/
theorem encode_of_decode? (h : decode? bytes = some cs) : encode cs = bytes := by
  rw [decode?, Option.map_eq_some_iff] at h
  rcases h with ⟨s, hs, rfl⟩
  rw [String.fromUTF8?] at hs
  split at hs
  · next hvalid =>
    rw [← Option.some.inj hs]
    have hbytes : (encode (String.fromUTF8 bytes.toByteArray hvalid).toList).toByteArray =
        (String.ofList (String.fromUTF8 bytes.toByteArray hvalid).toList).toByteArray := rfl
    rw [String.ofList_toList] at hbytes
    exact List.toByteArray_inj.mp hbytes
  · cases hs

theorem encode_ne_nil (hcs : cs ≠ []) : encode cs ≠ [] := by
  rcases List.exists_cons_of_ne_nil hcs with ⟨c, cs, rfl⟩
  rw [encode, List.flatMap_cons]
  exact List.append_ne_nil_of_left_ne_nil String.utf8EncodeChar_ne_nil _

end Utf8

namespace Text

/-- The lines of a text, without the line feeds that end them. What is behind the last line feed is
    a line unless it is empty. -/
def lines (cs : List Char) : List (List Char) :=
  let pieces := cs.splitOn '\n'
  if pieces.getLast? = some [] then pieces.dropLast else pieces

variable {l cs : List Char}

theorem lines_nil : lines [] = [] := rfl

/-- A line feed ends the first line. -/
theorem lines_append (hl : '\n' ∉ l) (cs : List Char) :
    lines (l ++ '\n' :: cs) = l :: lines cs := by
  have hne := List.splitOn_ne_nil '\n' cs
  have hpieces : (l ++ '\n' :: cs).splitOn '\n' = l :: cs.splitOn '\n' :=
    List.splitOn_append_cons_self_of_not_mem hl cs
  have hlast : (l :: cs.splitOn '\n').getLast? = (cs.splitOn '\n').getLast? := by
    rcases List.exists_cons_of_ne_nil hne with ⟨piece, pieces, hcs⟩
    rw [hcs, List.getLast?_cons_cons]
  simp only [lines]
  rw [hpieces, hlast]
  split
  · rw [List.dropLast_cons_of_ne_nil hne]
  · rfl

/-- A text without line feeds is one line. -/
theorem lines_of_not_mem (hl : '\n' ∉ l) (hne : l ≠ []) : lines l = [l] := by
  simp only [lines]
  rw [List.splitOn_eq_singleton hl, List.getLast?_singleton, if_neg]
  rw [Option.some.injEq]
  exact hne

end Text

namespace Streams

/-- One read: its result, and what it leaves. -/
def attempt (s : Streams) : Except StreamError Int32 × Streams :=
  match readInt s with
  | .ok v t => (.ok v, t)
  | .error e t => (.error e, t)

/-- The results of reads one after the other. The next one follows also on one that fails. -/
def readInts : Nat → Streams → List (Except StreamError Int32)
  | 0, _ => []
  | n + 1, s => s.attempt.1 :: readInts n s.attempt.2

/-- Writes numbers, each on a line of its own. -/
def writeInts (ns : List Int32) : EStateM StreamError Streams Unit :=
  ns.forM fun n => writeLine (Decimal.text n.toInt)

/-- What a read has to come to, for the line it looks at or without one. -/
def Answers : Option (List Char) → Except StreamError Int32 → Prop
  | none, result => result = .error .endOfInput
  | some line, result => ∃ core, Text.IsCore core line ∧
    (∀ v, result = .ok v ↔ Decimal.Denotes core v.toInt) ∧
    ((∀ v : Int32, ¬ Decimal.Denotes core v.toInt) →
      result = .error (.notAnInteger (String.ofList core)))

/-- What a read comes to. -/
def answer : Option (List Char) → Except StreamError Int32
  | none => .error .endOfInput
  | some line => lineValue (Utf8.encode line)

variable {bs : List UInt8} {l cs : List Char} {output : Array UInt8} {capacity : Option Nat}

section Lines

theorem takeLine_append_lineFeed (hbs : lineFeed ∉ bs) (rest : List UInt8) :
    takeLine (bs ++ lineFeed :: rest) = (bs ++ [lineFeed], rest) := by
  induction bs with
  | nil => rfl
  | cons b bs ih =>
      rw [List.mem_cons, not_or] at hbs
      rw [List.cons_append, takeLine, if_neg (Ne.symm hbs.1), ih hbs.2]
      rfl

theorem takeLine_of_not_mem (hbs : lineFeed ∉ bs) : takeLine bs = (bs, []) := by
  induction bs with
  | nil => rfl
  | cons b bs ih =>
      rw [List.mem_cons, not_or] at hbs
      rw [takeLine, if_neg (Ne.symm hbs.1), ih hbs.2]

theorem encode_line (l cs : List Char) :
    Utf8.encode (l ++ '\n' :: cs) = Utf8.encode l ++ lineFeed :: Utf8.encode cs := by
  rw [Utf8.encode_append]
  rfl

/-- The line feed makes no difference to what a line holds. -/
theorem lineValue_append (l : List Char) :
    lineValue (Utf8.encode (l ++ ['\n'])) = lineValue (Utf8.encode l) := by
  rw [lineValue, lineValue, Utf8.decode?_encode, Utf8.decode?_encode]
  dsimp only
  rw [Text.trim_append l (List.forall_mem_singleton.mpr (by decide))]

theorem attempt_of_takeLine {line rest input : List UInt8} (hline : takeLine input = (line, rest))
    (hne : line ≠ []) :
    attempt ⟨input, output, capacity⟩ = (lineValue line, ⟨rest, output, capacity⟩) := by
  rcases List.exists_cons_of_ne_nil hne with ⟨b, bs, rfl⟩
  simp only [attempt, readInt, hline]
  cases lineValue (b :: bs) <;> rfl

/-- A read uses up a line with its line feed. -/
theorem attempt_line (hl : '\n' ∉ l) (rest : List Char) :
    attempt ⟨Utf8.encode (l ++ '\n' :: rest), output, capacity⟩ =
      (answer (some l), ⟨Utf8.encode rest, output, capacity⟩) := by
  have hline : takeLine (Utf8.encode (l ++ '\n' :: rest)) =
      (Utf8.encode (l ++ ['\n']), Utf8.encode rest) := by
    rw [encode_line, encode_line, takeLine_append_lineFeed (Utf8.lineFeed_not_mem_encode hl)]
    rfl
  rw [attempt_of_takeLine hline (by rw [encode_line]; simp), lineValue_append]
  rfl

/-- The last line need not end with a line feed. -/
theorem attempt_last (hl : '\n' ∉ l) (hne : l ≠ []) :
    attempt ⟨Utf8.encode l, output, capacity⟩ = (answer (some l), ⟨[], output, capacity⟩) := by
  have hline : takeLine (Utf8.encode l) = (Utf8.encode l, []) :=
    takeLine_of_not_mem (Utf8.lineFeed_not_mem_encode hl)
  exact attempt_of_takeLine hline (Utf8.encode_ne_nil hne)

theorem attempt_end :
    attempt ⟨[], output, capacity⟩ = (answer none, ⟨[], output, capacity⟩) := rfl

/-- Each read looks at the next line. -/
theorem getElem?_readInts (cs : List Char) {n k : Nat} (hk : k < n) :
    (readInts n ⟨Utf8.encode cs, output, capacity⟩)[k]? = some (answer (Text.lines cs)[k]?) := by
  induction n generalizing cs k with
  | zero => cases hk
  | succ n ih =>
      rw [readInts]
      by_cases hcs : cs = []
      · subst hcs
        have hend : attempt ⟨Utf8.encode [], output, capacity⟩ =
            (answer none, ⟨Utf8.encode [], output, capacity⟩) := attempt_end
        rw [hend, Text.lines_nil]
        cases k with
        | zero => rfl
        | succ k => exact ih [] (Nat.lt_of_succ_lt_succ hk)
      · by_cases hl : '\n' ∈ cs
        · rcases List.eq_append_cons_of_mem hl with ⟨l, rest, rfl, hnone⟩
          rw [attempt_line hnone, Text.lines_append hnone]
          cases k with
          | zero => rfl
          | succ k => exact ih rest (Nat.lt_of_succ_lt_succ hk)
        · rw [attempt_last hl hcs, Text.lines_of_not_mem hl hcs]
          cases k with
          | zero => rfl
          | succ k => exact ih [] (Nat.lt_of_succ_lt_succ hk)

end Lines

/-- What a read comes to is what it has to come to. -/
theorem answers_answer (line : Option (List Char)) : Answers line (answer line) := by
  cases line with
  | none => rfl
  | some line =>
      refine ⟨Text.trim line, Text.isCore_trim line, ?_, ?_⟩
      · intro v
        rw [answer, lineValue, Utf8.decode?_encode, ← Decimal.readInt32?_eq_some_iff]
        dsimp only
        cases Decimal.readInt32? (Text.trim line) with
        | none => simp
        | some w => simp
      · intro hnone
        have hread : Decimal.readInt32? (Text.trim line) = none :=
          Option.eq_none_iff_forall_ne_some.mpr fun v hv =>
            hnone v (Decimal.readInt32?_eq_some_iff.mp hv)
        rw [answer, lineValue, Utf8.decode?_encode]
        dsimp only
        rw [hread]

section Written

/-- The numbers, each on a line of its own. -/
def written (ns : List Int32) : List Char :=
  ns.flatMap fun n => Decimal.ofInt n.toInt ++ ['\n']

theorem encode_written_cons (n : Int32) (ns : List Int32) :
    Utf8.encode (written (n :: ns)) =
      lineBytes (Decimal.text n.toInt) ++ Utf8.encode (written ns) := by
  rw [written, List.flatMap_cons, Utf8.encode_append, Utf8.encode_append, lineBytes, Decimal.text,
    String.toList_ofList]
  rfl

/-- Without a capacity all numbers are written. -/
theorem writeInts_of_none (ns : List Int32) (input : List UInt8) (output : Array UInt8) :
    writeInts ns ⟨input, output, none⟩ =
      .ok () ⟨input, output ++ Utf8.encode (written ns), none⟩ := by
  induction ns generalizing output with
  | nil =>
      have hnone : output ++ Utf8.encode (written []) = output := Array.appendList_nil
      rw [hnone]
      rfl
  | cons n ns ih =>
      have houtput : output ++ lineBytes (Decimal.text n.toInt) ++ Utf8.encode (written ns) =
          output ++ Utf8.encode (written (n :: ns)) := by
        rw [encode_written_cons, ← Array.toList_inj]
        simp only [Array.toList_appendList, List.append_assoc]
      change writeInts ns ⟨input, output ++ lineBytes (Decimal.text n.toInt), none⟩ = _
      rw [ih, houtput]

theorem isBlank_of_mem_ofInt {c : Char} {i : Int} (hc : c ∈ Decimal.ofInt i) :
    Text.isBlank c = false := by
  have hdigits : ∀ c ∈ Nat.toDigits 10 i.natAbs, Text.isBlank c = false := by
    intro c hc
    exact Text.isBlank_of_isDigit (Nat.isDigit_of_mem_toDigits (by decide) (by decide) hc)
  rw [Decimal.ofInt] at hc
  split at hc
  · rcases List.mem_cons.mp hc with rfl | hc
    · decide
    · exact hdigits c hc
  · exact hdigits c hc

theorem newline_not_mem_ofInt (i : Int) : '\n' ∉ Decimal.ofInt i := by
  intro hmem
  have hblank : Text.isBlank '\n' = true := by decide
  rw [isBlank_of_mem_ofInt hmem] at hblank
  cases hblank

theorem trim_ofInt (i : Int) : Text.trim (Decimal.ofInt i) = Decimal.ofInt i := by
  refine Text.isCore_iff.mp ⟨[], [], (List.append_nil _).symm, nofun, nofun, ?_, ?_⟩
  · exact fun c hc => isBlank_of_mem_ofInt (List.mem_of_head? hc)
  · exact fun c hc => isBlank_of_mem_ofInt (List.mem_of_getLast? hc)

/-- A written number is read back. -/
theorem answer_ofInt (n : Int32) : answer (some (Decimal.ofInt n.toInt)) = .ok n := by
  rw [answer, lineValue, Utf8.decode?_encode]
  dsimp only
  rw [trim_ofInt, Decimal.readInt32?_ofInt]

theorem readInts_nil (n : Nat) :
    readInts n ⟨[], output, capacity⟩ = List.replicate n (.error .endOfInput) := by
  induction n with
  | zero => rfl
  | succ n ih => rw [readInts, attempt_end, ih, List.replicate_succ, answer]

/-- Written numbers are read back, and then the end of the input. -/
theorem readInts_written (ns : List Int32) (n : Nat) :
    readInts (ns.length + n) ⟨Utf8.encode (written ns), output, capacity⟩ =
      ns.map Except.ok ++ List.replicate n (.error .endOfInput) := by
  induction ns with
  | nil =>
      rw [List.length_nil, Nat.zero_add]
      exact readInts_nil n
  | cons v ns ih =>
      have hline : written (v :: ns) = Decimal.ofInt v.toInt ++ '\n' :: written ns :=
        List.append_assoc _ _ _
      rw [List.length_cons, Nat.succ_add, readInts, hline,
        attempt_line (newline_not_mem_ofInt v.toInt), answer_ofInt, ih]
      rfl

end Written

/-- Each read answers for its line, whatever the reads before it came to; and reading what was
    written for some numbers gives these numbers, and then the end of the input. -/
theorem reads_lines :
    (∀ s : Streams, ∀ cs, Utf8.decode? s.input = some cs → ∀ n k, k < n →
      ∃ result, (readInts n s)[k]? = some result ∧ Answers (Text.lines cs)[k]? result) ∧
    (∀ ns input, ∃ t, writeInts ns (ofInput input) = .ok () t ∧ ∀ n,
      readInts (ns.length + n) (ofInput t.output.toList) =
        ns.map Except.ok ++ List.replicate n (.error .endOfInput)) := by
  constructor
  · intro s cs hdecode n k hk
    rcases s with ⟨input, output, capacity⟩
    have hinput : Utf8.encode cs = input := Utf8.encode_of_decode? hdecode
    rw [← hinput]
    exact ⟨_, getElem?_readInts cs hk, answers_answer _⟩
  · intro ns input
    refine ⟨_, writeInts_of_none ns input #[], fun n => ?_⟩
    rw [Array.toList_appendList]
    exact readInts_written ns n

/-- The read that fails uses up its line, and the last line has no line feed. -/
theorem reads_lines_of_mixed :
    ∃ result, (readInts 4 (ofInput (Utf8.encode " +7\r\nx y\n\n-2147483648".toList)))[3]? =
        some result ∧
      Answers (Text.lines " +7\r\nx y\n\n-2147483648".toList)[3]? result :=
  reads_lines.1 (ofInput _) _ (Utf8.decode?_encode _) 4 3 (by decide)

end Streams

end WhileLang
