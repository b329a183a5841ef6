import TensorLoom.Kernel.Basic

/-!
# Interventions

An intervention is one change of a kernel's layout: exchange two axes, or split an axis and unroll
its inner part. Exchanges are offered between two axes that the output spans or two that it does
not; a split is offered where every size of the axis is 1 or a multiple of the amount and some size
is not 1.
-/

namespace TensorLoom

/-- One change of a kernel's layout. -/
inductive Intervention where
  /-- Exchange two axes that are not unrolled. -/
  | swap (a b : Nat)
  /-- Split an axis by an amount and unroll the inner part. -/
  | unroll (axis amount : Nat)
deriving DecidableEq, Repr

namespace Intervention

/-- An intervention in descriptions, such as `SWAP(0, 1)`. -/
def text : Intervention → String
  | swap a b => s!"SWAP({a}, {b})"
  | unroll axis amount => s!"UPCAST({axis}, {amount})"

/-- The amounts that splits are offered for. -/
def amounts : List Nat := [2, 4, 8]

/-- Every exchange of two axes from `first` on and below `stop`. -/
def swapsBetween (first stop : Nat) : List Intervention :=
  (List.range' first (stop - first)).flatMap fun a =>
    (List.range' (a + 1) (stop - (a + 1))).map fun b => swap a b

/-- Whether an axis of these sizes can be split by an amount, and is worth it. -/
def isSplit (sizes : List Nat) (amount : Nat) : Bool :=
  !sizes.all (· = 1) && sizes.all fun d => d = 1 || d % amount = 0

/-- Split one axis of a shape; a unit axis becomes two of them. -/
def split (axis amount : Nat) (shape : List Nat) : Checked (List Nat) := do
  let size ← entry shape axis
  let inner ← if 1 < size then do pure [← Word.div size amount, amount] else pure [1, 1]
  return shape.take axis ++ inner ++ shape.drop (axis + 1)

/-- Exchange two positions of a list. -/
def exchange (a b : Nat) (xs : List Nat) : List Nat :=
  xs.map fun i => if i = a then b else if i = b then a else i

end Intervention

namespace Kernel

/-- The interventions to be tried on a kernel: exchanges, then splits, each in the order of the
axes. -/
def interventions (k : Kernel) : Checked (List Intervention) := do
  let spanned ← k.spanned
  let loops ← k.loops
  let splits ← (List.range loops).mapM fun axis => do
    let sizes ← k.trackers.mapM fun t => entry t.shape axis
    return (Intervention.amounts.filter (Intervention.isSplit sizes)).map (.unroll axis)
  return Intervention.swapsBetween 0 spanned ++ Intervention.swapsBetween spanned loops ++
    splits.flatten

/-- Refuse an axis that is none of those not unrolled. -/
def checkAxis (k : Kernel) (axis : Nat) : Attempt KernelError Unit := do
  let loops ← k.loops
  if axis < loops then pure () else refuse (.axisOutOfBounds axis loops)

/-- Apply an intervention. The inner part of a split becomes the last axis that is not unrolled, and
is unrolled then. -/
def intervene (i : Intervention) : KernelM Unit := do
  let k ← get
  let loops ← k.loops
  match i with
  | .swap a b =>
    k.checkAxis a
    k.checkAxis b
    edit (·.relayout none (Intervention.exchange a b (List.range loops)))
  | .unroll axis amount =>
    k.checkAxis axis
    let order := (List.range (loops + 1)).filter (· ≠ axis + 1) ++ [axis + 1]
    edit (·.relayout (some (Intervention.split axis amount)) order)
    edit unroll

end Kernel

end TensorLoom
