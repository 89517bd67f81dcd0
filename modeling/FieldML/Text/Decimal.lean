/-!
# Decimal numerals

Reading a signed numeral into a 64-bit integer. A numeral out of range is no numeral.
-/

namespace FieldML.Text

/-- The number that a row of decimal digits stands for. -/
def natOfDigits (digits : List Char) : Nat :=
  digits.foldl (fun n c => 10 * n + (c.toNat - '0'.toNat)) 0

/-- The number that a non-empty row of characters stands for, if all of them are digits. -/
def natOfDecimal? (cs : List Char) : Option Nat :=
  if cs ≠ [] ∧ cs.all Char.isDigit then some (natOfDigits cs) else none

/-- The integer that an optional sign and a row of digits stand for. -/
def intOfDecimal? : List Char → Option Int
  | '-' :: cs => (natOfDecimal? cs).map fun n => -(n : Int)
  | '+' :: cs => (natOfDecimal? cs).map fun n => (n : Int)
  | cs => (natOfDecimal? cs).map fun n => (n : Int)

/-- The 64-bit integer of this value, if there is one. -/
def int64OfInt? (n : Int) : Option Int64 :=
  if Int64.minValue.toInt ≤ n ∧ n ≤ Int64.maxValue.toInt then some (Int64.ofInt n) else none

/-- The 64-bit integer that a signed numeral stands for. -/
def int64OfDecimal? (text : String) : Option Int64 :=
  (intOfDecimal? text.toList).bind int64OfInt?

theorem intOfDecimal?_of_digits {cs : List Char} (hall : ∀ d ∈ cs, d.isDigit = true) :
    intOfDecimal? cs = (natOfDecimal? cs).map fun n : Nat => (n : Int) := by
  unfold intOfDecimal?
  split
  · next cs => exact absurd (hall '-' (by simp)) (by decide)
  · next cs => exact absurd (hall '+' (by simp)) (by decide)
  · cases natOfDecimal? cs <;> rfl

theorem intOfDecimal?_minus (cs : List Char) :
    intOfDecimal? ('-' :: cs) = (natOfDecimal? cs).map fun n : Nat => -(n : Int) := by
  rw [intOfDecimal?]
  cases natOfDecimal? cs <;> rfl

end FieldML.Text
