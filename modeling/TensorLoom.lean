import TensorLoom.Layout.Movement
import TensorLoom.Layout.Address
import TensorLoom.OpTree.Text
import TensorLoom.OpTree.MapLeaves
import TensorLoom.Device.LinearCost
import TensorLoom.Tuning.Settings
import TensorLoom.Session.Fusion
import TensorLoom.Session.Realization
import TensorLoom.Kernel.Lowering
import TensorLoom.Kernel.Evaluate
import TensorLoom.Kernel.Compile
import TensorLoom.Tuning.Search
import TensorLoom.Proofs.Checked
import TensorLoom.Proofs.Layout.RowMajor
import TensorLoom.Proofs.Layout.Reading
import TensorLoom.Proofs.Layout.Gather
import TensorLoom.Proofs.Layout.Edits
import TensorLoom.Proofs.Layout.Rearrangements
import TensorLoom.Proofs.Layout.Folding
import TensorLoom.Proofs.Kernel.Space
import TensorLoom.Proofs.Layout.Relabelling
import TensorLoom.Proofs.Kernel.Rearrangement
import TensorLoom.Proofs.Kernel.Relayout
import TensorLoom.Proofs.Tuning.Intervention
import TensorLoom.Proofs.OpTree.Walk
import TensorLoom.Proofs.OpTree.MapLeaves
import TensorLoom.Proofs.Kernel.Lowering
import TensorLoom.Proofs.Kernel.Axes
import TensorLoom.Proofs.Kernel.Direct
import TensorLoom.Proofs.Tuning.Kinds
import TensorLoom.Proofs.Cells
import TensorLoom.Proofs.Kernel.Evaluate
import TensorLoom.Proofs.Tuning.Preservation
import TensorLoom.Proofs.Source.Execution
import TensorLoom.Proofs.Source.Address
import TensorLoom.Proofs.Source.Grid
import TensorLoom.Proofs.Kernel.Arrangement
import TensorLoom.Proofs.Source.Plan
import TensorLoom.Proofs.Source.Generation
import TensorLoom.Proofs.Source.Existence
import TensorLoom.Proofs.Source.Correctness
import TensorLoom.Proofs.Source.Grammar
import TensorLoom.Proofs.Source.Printing
import TensorLoom.Proofs.Source.Rendering
import TensorLoom.Proofs.OpTree.Correspondence
import TensorLoom.Proofs.Session.Value
import TensorLoom.Proofs.Session.Provenance
import TensorLoom.Proofs.Session.Growth
import TensorLoom.Proofs.Session.Construction
import TensorLoom.Proofs.Session.Realization
import TensorLoom.Proofs.Session.Program
import TensorLoom.Proofs.Session.Fusion
import TensorLoom.Proofs.Session.History
import TensorLoom.Proofs.Session.WellFormed
import TensorLoom.Proofs.Layout.Counted
import TensorLoom.Proofs.Layout.Odometer
import TensorLoom.Proofs.Layout.Stacks
import TensorLoom.Proofs.Kernel.Counted
import TensorLoom.Proofs.Kernel.NormalForm
import TensorLoom.Proofs.Layout.Forward
import TensorLoom.Proofs.Device.Requests
import TensorLoom.Proofs.Device.History
import TensorLoom.Proofs.Source.Launch
import TensorLoom.Proofs.Tuning.Offers
import TensorLoom.Proofs.Source.Placement
import TensorLoom.Proofs.Tuning.Timing
import TensorLoom.Proofs.Tuning.Search
import TensorLoom.Proofs.Single
import TensorLoom.Proofs.Tuning.Comparison
import TensorLoom.Proofs.Layout.Wrapping
import TensorLoom.Proofs.Layout.Accepted
import TensorLoom.Proofs.Layout.Bounds
import TensorLoom.Proofs.Layout.Collapsing
import TensorLoom.Proofs.Layout.Identity
import TensorLoom.Proofs.Session.Additions
import TensorLoom.Proofs.Session.Movement
import TensorLoom.Proofs.Session.Convolution
import TensorLoom.Proofs.Tuning.LayoutEdits
import TensorLoom.Proofs.Layout.Confinement
import TensorLoom.Proofs.Tuning.Applied
import TensorLoom.Proofs.Tuning.Assignment
import TensorLoom.Proofs.Tuning.Refusals
import TensorLoom.Proofs.Tuning.Transactions
import TensorLoom.Proofs.Tuning.Reads
import TensorLoom.Proofs.Tuning.Clock
import TensorLoom.Proofs.Tuning.Rounds
import TensorLoom.Proofs.OpTree.BackReferences
import TensorLoom.Proofs.OpTree.Copy
import TensorLoom.Proofs.Session.Moves
import TensorLoom.Proofs.Session.Memo
import TensorLoom.Proofs.Session.Flattening
import TensorLoom.Proofs.OpTree.Preorder
import TensorLoom.Proofs.Source.Decoding
import TensorLoom.Proofs.Source.Values
import TensorLoom.Proofs.Source.Program
