import TensorLoom.Layout.View

/-!
# Stacks of views

One view cannot hold every layout: reshaping a transposed buffer, say, is not a matter of strides.
A tracker is a stack of views. The lowest one addresses the buffer, and each other one addresses
the row-major layout of the shape below it, so an index is sent down the stack by turning the flat
offset of one view into an index of the next. The stack is never empty: it is a top view with the
views below it, the nearest first.
-/

namespace TensorLoom

/-- A stack of views over a flat buffer. -/
structure Tracker where
  top : View
  /-- The views under the top, the nearest first and the one that addresses the buffer last. -/
  below : List View
deriving DecidableEq, Repr

namespace Tracker

/-- The tracker of a row-major buffer. -/
def ofShape (shape : List Nat) : Attempt LayoutError Tracker := do
  return ⟨← View.contiguous shape, []⟩

/-- The tracker of a list of views, the one that addresses the buffer first. -/
def ofViews (views : List View) : Attempt LayoutError Tracker :=
  match views.reverse with
  | [] => refuse (.zeroDimension [])
  | top :: below => pure ⟨top, below⟩

/-- The views of the stack, the one that addresses the buffer first. -/
def views (t : Tracker) : List View := (t.top :: t.below).reverse

/-- The shape seen from outside is that of the top view. -/
def shape (t : Tracker) : List Nat := t.top.shape

/-- The number of indices. -/
def size (t : Tracker) : Checked Nat := Shape.size t.shape

/-- Whether the tracker is a single row-major view. -/
def isContiguous (t : Tracker) : Checked Bool :=
  match t.below with
  | [] => t.top.isContiguous
  | _ :: _ => pure false

/-- Whether the tracker leaves a buffer of the given shape as it is. -/
def isIdentity (t : Tracker) (shape : List Nat) : Checked Bool := do
  return (← t.isContiguous) && t.shape = shape

/-- The position in a buffer for an offset, if it is not before its start. -/
def position (offset : Int) : Option Nat :=
  if 0 ≤ offset then some offset.toNat else none

/-- Send an index down a stack. It is lost where a mask leaves it out, or where the offset falls
outside the shape below. -/
def indexFrom (idx : List Nat) (top : View) : List View → Checked (Option Nat)
  | [] => do
    let some offset ← top.index idx | return none
    return position offset
  | next :: below => do
    let some offset ← top.index idx | return none
    let some flat := position offset | return none
    if flat < (← next.size) then
      indexFrom (← Shape.unravel flat next.shape) next below
    else
      return none

/-- The position in the buffer of an index, or `none` where it reads as zero. -/
def index (t : Tracker) (idx : List Nat) : Checked (Option Nat) :=
  indexFrom idx t.top t.below

/-- Drop views that change nothing: one that is row-major under another view, or a row-major top of
the same shape as the view below. -/
def collapseFrom (top : View) : List View → Checked Tracker
  | [] => pure ⟨top, []⟩
  | next :: below => do
    if ← next.isContiguous then
      collapseFrom top below
    else if (← top.isContiguous) && top.shape = next.shape then
      collapseFrom next below
    else
      pure ⟨top, next :: below⟩

/-- The tracker without the views that change nothing. -/
def collapse (t : Tracker) : Checked Tracker :=
  collapseFrom t.top t.below

end Tracker

end TensorLoom
