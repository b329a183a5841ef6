import TensorLoom.Layout.Movement
import TensorLoom.Proofs.Layout.RowMajor

/-!
# Movements in textbook terms

What a movement means has nothing to do with views: it is valid for some shapes (`Movement.Valid`),
makes a shape of another (`Movement.resultShape`), and takes each element of its result from an
index of its operand, or from none where it puts a zero (`Movement.source`). A tensor written out
cell by cell is moved by gathering its cells one at a time (`Dense.gather`).

The movements that treat each axis by itself have a rule for one axis, and `Movement.axiswise`
applies it along an index.
-/

namespace TensorLoom

open Shape (InRange position indexAt indices)

namespace Movement

variable {β : Type}

/-- The source of an index whose entries are treated axis by axis. It has none if an entry has
none. -/
def axiswise (rule : (size : Nat) → β → Nat → Option Nat) :
    (shape : List Nat) → (args : List β) → (idx : List Nat) → Option (List Nat)
  | size :: shape, b :: args, i :: idx => do
    let j ← rule size b i
    let rest ← axiswise rule shape args idx
    return j :: rest
  | _, _, _ => some []

/-- A unit axis repeats its one position. -/
def expandRule (size _target i : Nat) : Option Nat :=
  some (if size = 1 then 0 else i)

/-- The positions in front of the first element and behind the last hold zeros. -/
def padRule (size : Nat) (amounts : Nat × Nat) (i : Nat) : Option Nat :=
  if amounts.1 ≤ i ∧ i - amounts.1 < size then some (i - amounts.1) else none

/-- The first position kept is position 0. -/
def shrinkRule (_size : Nat) (range : Nat × Nat) (i : Nat) : Option Nat :=
  some (range.1 + i)

/-- Every so many elements, from the last one if the step is negative. -/
def strideRule (size : Nat) (step : Int) (i : Nat) : Option Nat :=
  some (if 0 < step then i * step.natAbs else size - 1 - i * step.natAbs)

/-- Whether a movement can be applied to a shape. -/
def Valid (shape : List Nat) : Movement → Prop
  | .reshape target => (∀ d ∈ target, 0 < d) ∧ shape.prod = target.prod
  | .permute axes => axes.Perm (List.range shape.length)
  | .expand target =>
    (∀ d ∈ target, 0 < d) ∧ List.Forall₂ (fun size d => size = d ∨ size = 1) shape target
  | .pad amounts => amounts.length = shape.length
  | .shrink ranges => List.Forall₂ (fun size r => r.1 < r.2 ∧ r.2 ≤ size) shape ranges
  | .stride steps => steps.length = shape.length ∧ ∀ s ∈ steps, s ≠ 0

instance (shape : List Nat) : DecidablePred (Valid shape)
  | .reshape target =>
    inferInstanceAs (Decidable ((∀ d ∈ target, 0 < d) ∧ shape.prod = target.prod))
  | .permute axes => inferInstanceAs (Decidable (axes.Perm (List.range shape.length)))
  | .expand target =>
    inferInstanceAs (Decidable ((∀ d ∈ target, 0 < d) ∧
      List.Forall₂ (fun size d => size = d ∨ size = 1) shape target))
  | .pad amounts => inferInstanceAs (Decidable (amounts.length = shape.length))
  | .shrink ranges =>
    inferInstanceAs
      (Decidable (List.Forall₂ (fun size r => r.1 < r.2 ∧ r.2 ≤ size) shape ranges))
  | .stride steps =>
    inferInstanceAs (Decidable (steps.length = shape.length ∧ ∀ s ∈ steps, s ≠ 0))

/-- The shape of the result. -/
def resultShape (shape : List Nat) : Movement → List Nat
  | .reshape target => target
  | .permute axes => axes.map (shape.getD · 0)
  | .expand target => target
  | .pad amounts => List.zipWith (fun size r => size + (r.1 + r.2)) shape amounts
  | .shrink ranges => ranges.map fun r => r.2 - r.1
  | .stride steps =>
    List.zipWith (fun size s => (size + s.natAbs - 1) / s.natAbs) shape steps

/-- The index of the operand that an index of the result is taken from, or `none` where the result
holds a zero. -/
def source (shape : List Nat) : Movement → List Nat → Option (List Nat)
  | .reshape target, idx => some (indexAt (position target idx) shape)
  | .permute axes, idx =>
    some ((List.range shape.length).map fun axis => idx.getD (axes.idxOf axis) 0)
  | .expand target, idx => axiswise expandRule shape target idx
  | .pad amounts, idx => axiswise padRule shape amounts idx
  | .shrink ranges, idx => axiswise shrinkRule shape ranges idx
  | .stride steps, idx => axiswise strideRule shape steps idx

/-- Whether each of some movements is valid for the shape that those before it lead to. -/
def AllValid : (shape : List Nat) → List Movement → Prop
  | _, [] => True
  | shape, m :: ms => m.Valid shape ∧ AllValid (m.resultShape shape) ms

/-- The shape that some movements lead to. -/
def finalShape (shape : List Nat) (ms : List Movement) : List Nat :=
  ms.foldl resultShape shape

/-- Whether the dimensions of every shape on the way of some movements can be read as signed
words. What comes after a movement that is not valid does not matter. -/
def AllFit : (shape : List Nat) → List Movement → Prop
  | shape, [] => ∀ d ∈ shape, d < Word.half
  | shape, m :: ms =>
    (∀ d ∈ shape, d < Word.half) ∧ (m.Valid shape → AllFit (m.resultShape shape) ms)

instance decidableAllFit : (shape : List Nat) → (ms : List Movement) → Decidable (AllFit shape ms)
  | shape, [] => inferInstanceAs (Decidable (∀ d ∈ shape, d < Word.half))
  | shape, m :: ms =>
    have := decidableAllFit (m.resultShape shape) ms
    inferInstanceAs (Decidable ((∀ d ∈ shape, d < Word.half) ∧
      (m.Valid shape → AllFit (m.resultShape shape) ms)))

theorem AllFit.head {shape : List Nat} {ms : List Movement} (h : AllFit shape ms) :
    ∀ d ∈ shape, d < Word.half := by
  cases ms with
  | nil => exact h
  | cons m ms => exact h.1

end Movement

/-- A tensor written out, with its cells in row-major order. -/
structure Dense (α : Type) where
  shape : List Nat
  cells : List α
deriving DecidableEq

namespace Dense

variable {α : Type}

/-- The cell at an index. -/
def get (d : Dense α) (zero : α) (idx : List Nat) : α :=
  d.cells.getD (position d.shape idx) zero

/-- The tensor of a shape whose cells are given by their indices. -/
def tabulate (shape : List Nat) (f : List Nat → α) : Dense α :=
  ⟨shape, (indices shape).map f⟩

/-- The elements of a buffer, each named by its position. -/
def positions (shape : List Nat) : Dense (Option Nat) :=
  ⟨shape, (List.range shape.prod).map some⟩

/-- Apply a movement by gathering every cell of the result. -/
def gather (zero : α) (d : Dense α) (m : Movement) : Dense α :=
  tabulate (m.resultShape d.shape) fun idx =>
    match m.source d.shape idx with
    | some i => d.get zero i
    | none => zero

/-- Apply movements in order. -/
def gatherAll (zero : α) (d : Dense α) (ms : List Movement) : Dense α :=
  ms.foldl (gather zero) d

theorem get_tabulate {shape idx : List Nat} (h : InRange idx shape) (zero : α)
    (f : List Nat → α) : (tabulate shape f).get zero idx = f idx := by
  rw [get, tabulate, List.getD_eq_getElem?_getD, List.getElem?_map,
    Shape.getElem?_indices_position h]
  rfl

theorem get_positions {shape idx : List Nat} (h : InRange idx shape) :
    (positions shape).get none idx = some (position shape idx) := by
  rw [get, positions, List.getD_eq_getElem?_getD, List.getElem?_map,
    List.getElem?_range (Shape.position_lt h)]
  rfl

theorem shape_gatherAll (zero : α) (d : Dense α) (ms : List Movement) :
    (d.gatherAll zero ms).shape = Movement.finalShape d.shape ms := by
  induction ms generalizing d with
  | nil => rfl
  | cons m ms ih => exact ih (d.gather zero m)

end Dense

end TensorLoom
