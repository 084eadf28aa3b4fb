/-!
# Decimal Numerals

Numbers as they are written and read. A written number has no leading zeros
and no plus sign; a read one may have both. Digits are those of ASCII only.

A machine integer has 32 bits. `readInt32?` reads a numeral as one, and fails
if there is no digit, if anything but a sign and digits is there, or if the
number is out of range.

## Main definitions

* `ofInt`: The numeral of an integer.
* `readNat?`: The number that a non-empty run of digits denotes.
* `readInt?`: The number that a numeral with an optional sign denotes.
* `readInt32?`: The same, if it fits into 32 bits.

## Theorems

* `readNat?_toDigits`: A written natural number is read back.
* `readInt?_ofInt`: A written integer is read back.
* `readInt32?_of_digits`: Digits are read unless their number is too large.
* `readInt32?_ofInt`: A written machine integer is read back.
-/

namespace WhileLang

namespace Decimal

/-- The numeral of an integer: digits, after a minus sign if it is negative. -/
def ofInt (i : Int) : List Char :=
  if i < 0 then '-' :: Nat.toDigits 10 i.natAbs else Nat.toDigits 10 i.natAbs

/-- The numeral of an integer, as a string. -/
def text (i : Int) : String :=
  String.ofList (ofInt i)

/-- The numeral of a natural number, as a string. -/
def natText (n : Nat) : String :=
  String.ofList (Nat.toDigits 10 n)

/-- The number that a non-empty run of digits denotes. -/
def readNat? (cs : List Char) : Option Nat :=
  if cs ≠ [] ∧ cs.all Char.isDigit then some (Nat.ofDigitChars 10 cs 0) else none

/-- The number that digits after an optional sign denote. -/
def readInt? : List Char → Option Int
  | '-' :: cs => (readNat? cs).map fun n : Nat => -(n : Int)
  | '+' :: cs => (readNat? cs).map fun n : Nat => (n : Int)
  | cs => (readNat? cs).map fun n : Nat => (n : Int)

/-- The integer has 32 bits. -/
def Fits32 (i : Int) : Prop :=
  -2147483648 ≤ i ∧ i ≤ 2147483647

instance (i : Int) : Decidable (Fits32 i) :=
  inferInstanceAs (Decidable (_ ∧ _))

/-- The machine integer that a numeral denotes, if it has one. -/
def readInt32? (cs : List Char) : Option Int32 :=
  (readInt? cs).bind fun i => if Fits32 i then some (Int32.ofInt i) else none

theorem toDigits_ne_nil (n : Nat) : Nat.toDigits 10 n ≠ [] := by
  intro h
  have := @Nat.length_toDigits_pos 10 n
  simp [h] at this

/-- A written natural number is read back. -/
theorem readNat?_toDigits (n : Nat) : readNat? (Nat.toDigits 10 n) = some n := by
  have hall : (Nat.toDigits 10 n).all Char.isDigit := by
    rw [List.all_eq_true]
    exact fun c hc => Nat.isDigit_of_mem_toDigits (by decide) (by decide) hc
  rw [readNat?, if_pos ⟨toDigits_ne_nil n, hall⟩, Nat.ofDigitChars_toDigits (by decide) (by decide)]

/-- Without a sign in front, reading an integer reads a natural number. -/
theorem readInt?_of_isDigit {c : Char} (hc : c.isDigit) (cs : List Char) :
    readInt? (c :: cs) = (readNat? (c :: cs)).map fun n : Nat => (n : Int) := by
  rw [readInt?]
  · intro ds h
    rw [(List.cons.inj h).1] at hc
    exact absurd hc (by decide)
  · intro ds h
    rw [(List.cons.inj h).1] at hc
    exact absurd hc (by decide)

/-- A written integer is read back. -/
theorem readInt?_ofInt (i : Int) : readInt? (ofInt i) = some i := by
  rw [ofInt]
  split
  · rw [readInt?, readNat?_toDigits, Option.map_some]
    exact congrArg some (by omega)
  -- The numeral begins with a digit, so it is not mistaken for a signed one.
  · obtain ⟨c, cs, h⟩ := List.exists_cons_of_ne_nil (toDigits_ne_nil i.natAbs)
    have hc : c.isDigit :=
      Nat.isDigit_of_mem_toDigits (b := 10) (n := i.natAbs) (by decide) (by decide) (by simp [h])
    rw [h, readInt?_of_isDigit hc, ← h, readNat?_toDigits, Option.map_some]
    exact congrArg some (by omega)

/-- Digits alone denote a machine integer unless their number is above the greatest one. -/
theorem readInt32?_of_digits {cs : List Char} (hne : cs ≠ []) (hcs : ∀ c ∈ cs, c.isDigit = true) :
    readInt32? cs = if Nat.ofDigitChars 10 cs 0 ≤ 2147483647
      then some (Int32.ofInt (Nat.ofDigitChars 10 cs 0)) else none := by
  obtain ⟨c, ds, rfl⟩ := List.exists_cons_of_ne_nil hne
  have hread : readNat? (c :: ds) = some (Nat.ofDigitChars 10 (c :: ds) 0) := by
    rw [readNat?, if_pos ⟨hne, List.all_eq_true.mpr hcs⟩]
  rw [readInt32?, readInt?_of_isDigit (hcs c List.mem_cons_self), hread, Option.map_some,
    Option.bind_some]
  by_cases hfits : Nat.ofDigitChars 10 (c :: ds) 0 ≤ 2147483647
  · rw [if_pos hfits, if_pos ⟨by omega, by omega⟩]
  · rw [if_neg hfits, if_neg (fun h : Fits32 _ => hfits (by have := h.2; omega))]

theorem fits32_toInt (n : Int32) : Fits32 n.toInt := by
  have hlow := n.le_toInt
  have hhigh := n.toInt_lt
  exact ⟨by omega, by omega⟩

/-- A written machine integer is read back. -/
theorem readInt32?_ofInt (n : Int32) : readInt32? (ofInt n.toInt) = some n := by
  rw [readInt32?, readInt?_ofInt, Option.bind_some, if_pos (fits32_toInt n), Int32.ofInt_toInt]

end Decimal

end WhileLang
