/-!
# Occurrences of a pattern

Occurrences are counted from the left, and one starts only behind the end of the one before. The
empty pattern occurs in front of every character and once more at the end.
-/

namespace TensorLoom.Text

/-- Count on through a text of which the first `skip` characters belong to the last occurrence. -/
def countFrom (pattern : List Char) (skip count : Nat) : List Char → Nat
  | [] => if pattern.isEmpty then count + 1 else count
  | c :: rest =>
    if skip ≠ 0 then countFrom pattern (skip - 1) count rest
    else if pattern.isPrefixOf (c :: rest) then
      countFrom pattern (pattern.length - 1) (count + 1) rest
    else countFrom pattern 0 count rest

/-- The number of occurrences of a pattern that do not overlap. -/
def occurrences (pattern text : String) : Nat :=
  countFrom pattern.toList 0 0 text.toList

/-- Whether a pattern occurs in a text. -/
def occurs (pattern text : String) : Bool :=
  occurrences pattern text ≠ 0

end TensorLoom.Text
