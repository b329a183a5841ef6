import TensorLoom.Checked

/-!
# Numerals

A size is read from decimal digits, of which there is at least one, behind an optional plus sign. A
value that a machine word cannot hold is no size.
-/

namespace TensorLoom.Text

/-- The value of a list of decimal digits read behind a number, if there is nothing else in it. -/
def digits? (value : Nat) : List Char → Option Nat
  | [] => some value
  | c :: rest => if c.isDigit then digits? (10 * value + (c.toNat - '0'.toNat)) rest else none

/-- The size that a numeral stands for. -/
def size? (text : String) : Option Nat :=
  let digits := match text.toList with
    | '+' :: rest => rest
    | all => all
  if digits.isEmpty then none
  else (digits? 0 digits).filter (· < Word.bound)

end TensorLoom.Text
