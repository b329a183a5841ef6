import TensorLoom.Shape
import TensorLoom.Layout.Error

/-!
# Strided views

A view lays an index space over a flat buffer: an index is sent to an offset plus one stride for
each step along each axis. An axis may bound the positions that exist, and an index outside those
bounds reads as zero instead of touching the buffer, which is how padding works without copying.

An axis carries its size, stride and bounds together, so a view cannot have more strides than
dimensions. Whether a view is masked is not stored: it is masked when the bounds of some axis leave
out a position. `View.normalize` keeps the one form in which equal layouts are equal views: a unit
axis has stride 0, and in a view that is not masked the bounds of each axis are its full range.
-/

namespace TensorLoom

/-- One dimension of a view. The positions from `low` up to but not including `high` exist. -/
structure Axis where
  size : Nat
  stride : Int
  low : Nat
  high : Nat
deriving DecidableEq, Repr

namespace Axis

/-- An axis on which every position exists. -/
def full (size : Nat) (stride : Int) : Axis :=
  ⟨size, stride, 0, size⟩

/-- Whether the bounds leave out no position. -/
def isCovered (a : Axis) : Bool :=
  a.low == 0 && a.size ≤ a.high

/-- Whether a position exists. -/
def admits (a : Axis) (i : Nat) : Bool :=
  a.low ≤ i && i < a.high

/-- No step is taken along a unit axis, so its stride is 0. -/
def settle (a : Axis) : Axis :=
  if a.size = 1 then { a with stride := 0 } else a

/-- The axis with its bounds opened to the full range. -/
def unbounded (a : Axis) : Axis :=
  { a with low := 0, high := a.size }

end Axis

/-- A flat offset for each index, less those that the bounds leave out. -/
structure View where
  offset : Int
  axes : List Axis
deriving DecidableEq, Repr

namespace View

/-- The sizes of the axes. -/
def shape (v : View) : List Nat := v.axes.map (·.size)

/-- The strides of the axes. -/
def strides (v : View) : List Int := v.axes.map (·.stride)

/-- Whether some axis leaves out a position. -/
def isMasked (v : View) : Bool :=
  !v.axes.all Axis.isCovered

/-- The bounds of every axis, for a view that is masked. -/
def mask (v : View) : Option (List (Nat × Nat)) :=
  if v.isMasked then some (v.axes.map fun a => (a.low, a.high)) else none

/-- The number of indices. -/
def size (v : View) : Checked Nat := Shape.size v.shape

/-- The normal form of a view: unit axes have stride 0, and bounds that leave out nothing are the
full ranges. -/
def normalize (v : View) : View :=
  let axes := v.axes.map Axis.settle
  { v with axes := if axes.all Axis.isCovered then axes.map Axis.unbounded else axes }

/-- Refuse a shape with an empty dimension. -/
def checkShape (shape : List Nat) : Attempt LayoutError Unit :=
  if Shape.isPositive shape then pure () else refuse (.zeroDimension shape)

/-- A view without a mask. -/
def ofStrides (shape : List Nat) (strides : List Int) (offset : Int) :
    Attempt LayoutError View := do
  checkShape shape
  if shape.length = strides.length then
    pure (normalize ⟨offset, List.zipWith Axis.full shape strides⟩)
  else
    refuse (.strideRankMismatch shape.length strides.length)

/-- The view with the bounds of its axes replaced. -/
def withBounds (v : View) (bounds : List (Nat × Nat)) : View :=
  { v with axes := List.zipWith (fun a (low, high) => { a with low, high }) v.axes bounds }

/-- A view whose axes have the bounds given. -/
def masked (shape : List Nat) (strides : List Int) (offset : Int) (bounds : List (Nat × Nat)) :
    Attempt LayoutError View := do
  let v ← ofStrides shape strides offset
  if bounds.length = v.axes.length then
    pure (v.withBounds bounds).normalize
  else
    refuse (.dimensionMismatch .mask v.axes.length bounds.length)

/-- The row-major view of a shape. -/
def contiguous (shape : List Nat) : Attempt LayoutError View := do
  checkShape shape
  let strides ← Shape.strides shape
  pure ⟨0, List.zipWith Axis.full shape strides⟩

/-- Whether a view is the row-major view of its shape. -/
def isContiguous (v : View) : Checked Bool :=
  if v.offset = 0 ∧ v.isMasked = false then
    return v.strides = (← Shape.strides v.shape)
  else
    pure false

/-- The flat offset of an index, or `none` where it falls outside the bounds of a masked view. Of an
index and a view of different ranks the surplus entries are not looked at. -/
def index (v : View) (idx : List Nat) : Checked (Option Int) :=
  if v.isMasked && !(idx.zip v.axes).all (fun (i, a) => a.admits i) then
    pure none
  else do
    let steps ← (idx.zip v.axes).foldlM
      (fun sum (i, a) => do Signed.add sum (← Signed.mul (Signed.ofSize i) a.stride)) 0
    some <$> Signed.add v.offset steps

end View

end TensorLoom
