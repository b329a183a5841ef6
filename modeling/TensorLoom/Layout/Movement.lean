import TensorLoom.Layout.Tracker

/-!
# Movements

A movement relabels the elements of a buffer without copying any: reshape, permute, expand, pad,
shrink and stride. Each one edits the top view of a tracker, axis by axis, where one strided and
bounded view can express the result, and puts a row-major view on top otherwise.

`Tracker.move` applies a movement. It is refused with a `LayoutError` before anything is changed,
and the views that a movement makes redundant are dropped afterwards.
-/

namespace TensorLoom

/-- A relabelling of elements, with its argument. -/
inductive Movement where
  /-- Read the elements in row-major order as another shape. -/
  | reshape (shape : List Nat)
  /-- Reorder the axes. -/
  | permute (axes : List Nat)
  /-- Repeat unit axes. -/
  | expand (shape : List Nat)
  /-- Put zeros before and after each axis. -/
  | pad (amounts : List (Nat × Nat))
  /-- Keep the positions of each axis from a first one up to a stop. -/
  | shrink (ranges : List (Nat × Nat))
  /-- Take every so many elements of each axis, backwards for a negative step. -/
  | stride (steps : List Int)
deriving DecidableEq, Hashable, Repr

namespace Movement

/-- The name of the kind of movement. -/
def name : Movement → String
  | .reshape _ => "reshape"
  | .permute _ => "permute"
  | .expand _ => "expand"
  | .pad _ => "pad"
  | .shrink _ => "shrink"
  | .stride _ => "stride"

/-- A movement with its argument, such as `Pad([(1, 0)])`. -/
def text : Movement → String
  | .reshape shape => s!"Reshape({Text.sizes shape})"
  | .permute axes => s!"Permute({Text.sizes axes})"
  | .expand shape => s!"Expand({Text.sizes shape})"
  | .pad amounts => s!"Pad({Text.pairs amounts})"
  | .shrink ranges => s!"Shrink({Text.pairs ranges})"
  | .stride steps => s!"Stride({Text.signed steps})"

end Movement

/-! ## Edits of a single axis -/

namespace Axis

/-- A unit axis. -/
def unit : Axis := full 1 0

/-- An axis of another size has to be a unit axis and is repeated: every position of it reads the
one element there is. -/
def expand (a : Axis) (size : Nat) : Axis :=
  if a.size = size then a
  else if (a.low, a.high) = (0, 1) then ⟨size, 0, 0, size⟩
  else { a with size, stride := 0 }

/-- Positions in front push the bounds back, positions on either side are left out by them. -/
def pad (a : Axis) (before after : Nat) : Checked Axis := do
  let low ← Word.add a.low before
  let high ← Word.add a.high before
  let size ← Word.add a.size (← Word.add before after)
  pure { a with size, low, high }

/-- Bounds relative to the first position kept and cut at the last; bounds that keep nothing are
written as the empty range at 0. -/
def shrink (a : Axis) (first stop : Nat) : Axis :=
  let size := stop - first
  let low := min (a.low - first) size
  let high := min (a.high - first) size
  if low < high then { a with size, low, high } else { a with size, low := 0, high := 0 }

/-- One position for each step taken inside the axis. -/
def step (a : Axis) (pace : Int) : Checked Axis := do
  let stride ← Signed.mul a.stride pace
  pure (full ((a.size + pace.natAbs - 1) / pace.natAbs) stride)

end Axis

/-! ## Edits of a view -/

namespace View

/-- The axes of a shape in which only unit axes come and go: the others are kept in their order. -/
def respace : List Nat → List Axis → List Axis
  | [], _ => []
  | dim :: shape, axes =>
    if dim = 1 then Axis.unit :: respace shape axes
    else match axes with
      | [] => []
      | a :: axes => a :: respace shape axes

/-- The view read as another shape, if the two differ in unit axes alone. A unit axis whose bounds
leave out its position cannot be dropped, since it makes everything read as zero. -/
def reshape? (v : View) (shape : List Nat) : Option View :=
  let wide := v.axes.filter (·.size ≠ 1)
  if wide.map (·.size) ≠ shape.filter (· ≠ 1) then none
  else if v.isMasked && v.axes.any (fun a => a.size = 1 && (a.low, a.high) ≠ (0, 1)) then none
  else some (normalize { v with axes := respace shape wide })

/-- Reorder the axes. -/
def permute (v : View) (axes : List Nat) : View :=
  { v with axes := axes.filterMap (v.axes[·]?) }

/-- Repeat unit axes up to the sizes of a shape. -/
def expand (v : View) (shape : List Nat) : View :=
  normalize { v with axes := List.zipWith Axis.expand v.axes shape }

/-- Put positions that read as zero around each axis. Index 0 moves in front of the first element,
so the offset goes back by the steps that lead there. -/
def pad (v : View) (amounts : List (Nat × Nat)) : Checked View := do
  let offset ← (v.axes.zip amounts).foldlM
    (fun o (a, before, _) => do Signed.sub o (← Signed.mul (Signed.ofSize before) a.stride))
    v.offset
  let axes ← (v.axes.zip amounts).mapM fun (a, before, after) => a.pad before after
  pure (normalize ⟨offset, axes⟩)

/-- Keep a range of each axis. The offset goes forward to the first element kept. -/
def shrink (v : View) (ranges : List (Nat × Nat)) : Checked View := do
  let offset ← (v.axes.zip ranges).foldlM
    (fun o (a, first, _) => do Signed.add o (← Signed.mul (Signed.ofSize first) a.stride))
    v.offset
  pure (normalize ⟨offset, (v.axes.zip ranges).map fun (a, first, stop) => a.shrink first stop⟩)

/-- Step along each axis of a view without a mask. A negative step starts from the last element. -/
def stepBy (v : View) (steps : List Int) : Checked View := do
  let offset ← (v.axes.zip steps).foldlM
    (fun o (a, pace) => do
      if pace < 0 then
        Signed.add o (← Signed.mul (← Signed.sub (Signed.ofSize a.size) 1) a.stride)
      else pure o) v.offset
  let axes ← (v.axes.zip steps).mapM fun (a, pace) => a.step pace
  pure (normalize ⟨offset, axes⟩)

end View

/-! ## Movements of a tracker -/

namespace Tracker

/-- An argument with one entry for each axis. -/
def checkRank (t : Tracker) (argument : Ranked) (entries : Nat) : Attempt LayoutError Unit :=
  let rank := t.shape.length
  if entries = rank then pure () else refuse (.dimensionMismatch argument rank entries)

/-- Replace the top view. -/
def withTop (t : Tracker) (top : View) : Tracker := { t with top }

/-- Put a view on top. -/
def push (t : Tracker) (top : View) : Tracker := ⟨top, t.top :: t.below⟩

/-- Read the elements in row-major order as another shape. -/
def reshape (t : Tracker) (shape : List Nat) : Attempt LayoutError Tracker := do
  View.checkShape shape
  let sourceSize ← Shape.size t.shape
  let targetSize ← Shape.size shape
  if sourceSize ≠ targetSize then
    refuse (.shapeMismatch t.shape shape sourceSize targetSize)
  else if t.shape = shape then
    pure t
  else if ← t.top.isContiguous then
    return t.withTop (← View.contiguous shape)
  else match t.top.reshape? shape with
    | some top => pure (t.withTop top)
    | none => return t.push (← View.contiguous shape)

/-- Whether the axes are those of a shape of the given rank, each once. -/
def isPermutation (axes : List Nat) (rank : Nat) : Bool :=
  axes.length = rank && axes.all (· < rank) && decide axes.Nodup

/-- Reorder the axes. -/
def permute (t : Tracker) (axes : List Nat) : Attempt LayoutError Tracker :=
  let rank := t.shape.length
  if isPermutation axes rank then pure (t.withTop (t.top.permute axes))
  else refuse (.invalidPermutation axes rank)

/-- Repeat unit axes up to the sizes of a shape. -/
def expand (t : Tracker) (shape : List Nat) : Attempt LayoutError Tracker := do
  t.checkRank .expand shape.length
  View.checkShape shape
  match (t.shape.zip shape).findIdx? (fun (input, output) => input ≠ output ∧ input ≠ 1) with
  | some axis =>
    refuse (.expandInvalidDimension axis (← entry t.shape axis) (← entry shape axis))
  | none => pure (t.withTop (t.top.expand shape))

/-- Put zeros around each axis. -/
def pad (t : Tracker) (amounts : List (Nat × Nat)) : Attempt LayoutError Tracker := do
  t.checkRank .pad amounts.length
  if amounts.all (· = (0, 0)) then pure t
  else return t.withTop (← t.top.pad amounts)

/-- Keep a range of each axis. -/
def shrink (t : Tracker) (ranges : List (Nat × Nat)) : Attempt LayoutError Tracker := do
  t.checkRank .shrink ranges.length
  match (t.shape.zip ranges).findIdx?
      (fun (size, first, stop) => ¬ (first < stop ∧ stop ≤ size)) with
  | some axis =>
    let (first, stop) ← entry ranges axis
    refuse (.shrinkOutOfBounds axis first stop (← entry t.shape axis))
  | none => return t.withTop (← t.top.shrink ranges)

/-- Take every so many elements. Stepping over bounds would need bounds with gaps, so a masked top
gets a row-major view on it first. -/
def stride (t : Tracker) (steps : List Int) : Attempt LayoutError Tracker := do
  t.checkRank .stride steps.length
  match steps.findIdx? (· = 0) with
  | some axis => refuse (.zeroStride axis)
  | none =>
    let t ← if t.top.isMasked then do pure (t.push (← View.contiguous t.shape)) else pure t
    return t.withTop (← t.top.stepBy steps)

/-- Apply a movement to the shape seen from outside. -/
def move (t : Tracker) (m : Movement) : Attempt LayoutError Tracker := do
  let moved ← match m with
    | .reshape shape => t.reshape shape
    | .permute axes => t.permute axes
    | .expand shape => t.expand shape
    | .pad amounts => t.pad amounts
    | .shrink ranges => t.shrink ranges
    | .stride steps => t.stride steps
  moved.collapse

/-- Apply movements in order; the first one refused ends the attempt. -/
def moveAll (t : Tracker) (ms : List Movement) : Attempt LayoutError Tracker :=
  ms.foldlM move t

end Tracker

end TensorLoom
