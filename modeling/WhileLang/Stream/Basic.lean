import WhileLang.Text.Blank
import WhileLang.Text.Decimal
import WhileLang.Text.Utf8

/-!
# Input and Output

What a running program reads from and writes to. The input is a sequence of
bytes that is read line by line, and each line has to hold one number, with
blanks around it at most. The output is the bytes written so far; it may have
a capacity, and a line that does not fit is written as far as it does.

A failed read has used up its line, so that the next one looks at the line
behind it. At the end of the input there is no line to use up.

## Main definitions

* `Streams`: Unread input, written output and capacity.
* `StreamError`: What can go wrong.
* `Streams.takeLine`: The first line of some bytes, and the others.
* `Streams.readInt`: Reads one line as a number.
* `Streams.writeLine`: Writes one line.

## Theorems

* `Streams.takeLine_append`: A line and what is behind it make up the input.
* `Streams.writeLine_of_none`: Without a capacity every line is written.
-/

namespace WhileLang

/-- What a running program reads from and writes to. -/
structure Streams where
  input : List UInt8
  output : Array UInt8
  /-- The most bytes that the output can hold, if there is a limit. -/
  capacity : Option Nat
deriving DecidableEq

/-- What can go wrong with input and output. -/
inductive StreamError where
  | notAnInteger (line : String)
  | endOfInput
  | undecodable
  | outputFull
deriving DecidableEq, Repr

/-- The wording of an error. -/
def StreamError.message : StreamError → String
  | .notAnInteger line => "Expected an integer on input, got '" ++ line ++ "'"
  | .endOfInput => "Input ended while reading an integer"
  | .undecodable => "I/O error: stream did not contain valid UTF-8"
  | .outputFull => "I/O error: failed to write whole buffer"

namespace Streams

/-- Streams before anything is read or written. -/
def ofInput (input : List UInt8) : Streams :=
  { input := input, output := #[], capacity := none }

/-- A line feed. -/
def lineFeed : UInt8 := 10

/-- The bytes up to the first line feed, which is included, and those behind it. -/
def takeLine : List UInt8 → List UInt8 × List UInt8
  | [] => ([], [])
  | b :: bs =>
    if b = lineFeed then ([b], bs) else (b :: (takeLine bs).1, (takeLine bs).2)

/-- The number that a line holds. -/
def lineValue (line : List UInt8) : Except StreamError Int32 :=
  match Utf8.decode? line with
  | none => .error .undecodable
  | some cs =>
    let core := Text.trim cs
    match Decimal.readInt32? core with
    | none => .error (.notAnInteger (String.ofList core))
    | some n => .ok n

/-- Reads one line as a number. -/
def readInt : EStateM StreamError Streams Int32
  | ⟨input, output, capacity⟩ =>
    match takeLine input with
    | ([], _) => .error .endOfInput ⟨input, output, capacity⟩
    -- The line is used up, whether or not it holds a number.
    | (line, rest) =>
      match lineValue line with
      | .error e => .error e ⟨rest, output, capacity⟩
      | .ok n => .ok n ⟨rest, output, capacity⟩

/-- The bytes of a line. -/
def lineBytes (text : String) : List UInt8 :=
  Utf8.encode text.toList ++ [lineFeed]

/-- Writes one line, as far as it fits. -/
def writeLine (text : String) : EStateM StreamError Streams Unit
  | ⟨input, output, capacity⟩ =>
    let bytes := lineBytes text
    match capacity with
    | none => .ok () ⟨input, output ++ bytes, none⟩
    | some limit =>
      let room := limit - output.size
      -- Of a line that does not fit the beginning is written.
      if bytes.length ≤ room then .ok () ⟨input, output ++ bytes, some limit⟩
      else .error .outputFull ⟨input, output ++ bytes.take room, some limit⟩

/-- A line and what is behind it make up the input. -/
theorem takeLine_append (bs : List UInt8) : (takeLine bs).1 ++ (takeLine bs).2 = bs := by
  induction bs with
  | nil => rfl
  | cons b bs ih =>
    rw [takeLine]
    split
    · rfl
    · exact congrArg (b :: ·) ih

/-- Only the end of the input has no line. -/
theorem takeLine_fst_eq_nil {bs : List UInt8} : (takeLine bs).1 = [] ↔ bs = [] := by
  cases bs with
  | nil => exact iff_of_true rfl rfl
  | cons b bs =>
    rw [takeLine]
    split <;> exact iff_of_false (List.cons_ne_nil _ _) (List.cons_ne_nil _ _)

/-- Without a capacity every line is written. -/
theorem writeLine_of_none (text : String) (input : List UInt8) (output : Array UInt8) :
    writeLine text ⟨input, output, none⟩ = .ok () ⟨input, output ++ lineBytes text, none⟩ := rfl

end Streams

end WhileLang
