/-!
# Measures of lists

A loop that works off a list ends if what is left on the list loses weight with each step. The
weight of a list is the sum of the weights of its items.
-/

namespace TensorLoom

/-- The sum of the weights of the items of a list. -/
def totalWeight {α : Type} (weight : α → Nat) : List α → Nat
  | [] => 0
  | x :: xs => weight x + totalWeight weight xs

theorem totalWeight_append {α : Type} (weight : α → Nat) (xs ys : List α) :
    totalWeight weight (xs ++ ys) = totalWeight weight xs + totalWeight weight ys := by
  induction xs with
  | nil => rw [List.nil_append, totalWeight, Nat.zero_add]
  | cons x xs ih => rw [List.cons_append, totalWeight, totalWeight, ih, Nat.add_assoc]

theorem totalWeight_map {α β : Type} (weight : β → Nat) (f : α → β) (xs : List α) :
    totalWeight weight (xs.map f) = totalWeight (fun x => weight (f x)) xs := by
  induction xs with
  | nil => rfl
  | cons x xs ih => rw [List.map_cons, totalWeight, totalWeight, ih]

end TensorLoom
