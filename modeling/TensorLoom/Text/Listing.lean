/-!
# Lists in messages

A list is written between square brackets with its items divided by a comma and a blank, a pair
between round ones.
-/

namespace TensorLoom.Text

/-- Items between square brackets. -/
def listing (items : List String) : String :=
  "[" ++ ", ".intercalate items ++ "]"

/-- A list of sizes, such as `[2, 3]`. -/
def sizes (xs : List Nat) : String :=
  listing (xs.map toString)

/-- A list of signed numbers, such as `[-1, 2]`. -/
def signed (xs : List Int) : String :=
  listing (xs.map toString)

/-- A list of pairs of sizes, such as `[(1, 0), (0, 2)]`. -/
def pairs (xs : List (Nat × Nat)) : String :=
  listing (xs.map fun (a, b) => s!"({a}, {b})")

end TensorLoom.Text
