import TensorLoom.Checked

/-!
# Shapes

A shape is a list of dimension sizes, outermost first. Its indices are ordered row-major: the last
position runs fastest. This module counts the elements of a shape, gives the strides of its
row-major layout, splits a flat position into an index, and steps from one index to the next.

* `Shape.strides` and `Shape.unravel` both work from the innermost dimension outwards, and carry
  the number of elements spanned so far, or the part of the position still to be split.
* `Shape.advance` carries from the innermost position outwards, as an odometer does.
* `Shape.indices` lists every index of a shape in the order in which `Shape.advance` meets them.
-/

namespace TensorLoom.Shape

/-- The number of elements of a shape, multiplied up from the outermost dimension. -/
def size (shape : List Nat) : Checked Nat :=
  shape.foldlM Word.mul 1

/-- Whether every dimension has at least one element. -/
def isPositive (shape : List Nat) : Bool :=
  shape.all (0 < ·)

/-- The row-major strides of a shape, with the number of elements they span. A dimension of size 1
has stride 0, since no step is ever taken along it. -/
def stridesAndSpan : List Nat → Checked (List Int × Int)
  | [] => .ok ([], 1)
  | dim :: inner => do
    let (strides, span) ← stridesAndSpan inner
    let whole ← Signed.mul span (Signed.ofSize dim)
    pure ((if dim = 1 then 0 else span) :: strides, whole)

/-- The row-major strides of a shape. -/
def strides (shape : List Nat) : Checked (List Int) :=
  Prod.fst <$> stridesAndSpan shape

/-- Split a flat position along the dimensions of a shape; what is left over counts whole
repetitions of the shape. -/
def splitPosition (position : Nat) : List Nat → Checked (List Nat × Nat)
  | [] => .ok ([], position)
  | dim :: inner => do
    let (index, rest) ← splitPosition position inner
    let outer ← Word.div rest dim
    pure (rest % dim :: index, outer)

/-- The index at a flat row-major position. A position past the end wraps around. -/
def unravel (position : Nat) (shape : List Nat) : Checked (List Nat) :=
  Prod.fst <$> splitPosition position shape

/-- Step to the next index of a shape. The flag tells whether there was one; the index after the
last is the first again. Entries beyond the rank of the shape are left alone, and an index with
fewer entries than the shape has dimensions is a fault. -/
def advance : (shape index : List Nat) → Checked (Bool × List Nat)
  | [], rest => .ok (false, rest)
  | _ :: _, [] => .error .outOfBounds
  | dim :: shape, i :: index => do
    let (more, index) ← advance shape index
    if more then
      pure (true, i :: index)
    else
      let next ← Word.add i 1
      if next < dim then pure (true, next :: index) else pure (false, 0 :: index)

/-- Every index of a shape in row-major order. The shape without dimensions has one index, the
empty one. -/
def indices : List Nat → List (List Nat)
  | [] => [[]]
  | dim :: inner =>
    let tails := indices inner
    (List.range dim).flatMap fun i => tails.map (i :: ·)

/-- Dimension by dimension, the larger of two shapes of one rank. -/
def widen (a b : List Nat) : List Nat :=
  List.zipWith max a b

end TensorLoom.Shape
