import TensorLoom.Device.Simulated
import TensorLoom.Text.Occurrence

/-!
# Linear cost models

A linear cost is a sum of contributions: a constant, one for each work item, one for each byte of
the source, one for each unit of a dimension of the grid, and one for each occurrence of a mark in
the source. A source that holds the failing mark cannot be launched.
-/

namespace TensorLoom

/-- The rates of a linear cost model. -/
structure LinearCost where
  base : Nat
  perItem : Nat
  perByte : Nat
  perDimension : Extent
  /-- Texts with the ticks that each occurrence costs. -/
  marks : List (String × Nat)
  failing : Option String
deriving DecidableEq, Repr

namespace LinearCost

/-- The contributions to the cost of a launch. -/
def contributions (c : LinearCost) (source : String) (shape : LaunchShape) :
    Checked (List (Nat × Nat)) := do
  let items ← shape.workItems
  pure ((c.base, 1) :: (c.perItem, items) :: (c.perByte, source.utf8ByteSize) ::
    c.perDimension.toList.zip shape.globalSize.toList ++
    c.marks.map fun (mark, ticks) => (ticks, Text.occurrences mark source))

/-- The ticks of a launch, unless it fails. -/
def model (c : LinearCost) : CostModel := fun source shape => do
  if c.failing.any (Text.occurs · source) then pure none
  else
    let parts ← c.contributions source shape
    some <$> parts.foldlM (fun sum (rate, amount) => do Word.add sum (← Word.mul rate amount)) 0

end LinearCost

end TensorLoom
