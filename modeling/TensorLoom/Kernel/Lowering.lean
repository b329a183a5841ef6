import TensorLoom.Kernel.Basic
import TensorLoom.OpTree.MapLeaves

/-!
# Lowering trees to kernels

A tree can be lowered if it is built of pointwise operations and at most one reduction, and if its
leaves agree on each axis up to broadcasting. A reshape at the root only relabels the output, so it
is left away, provided that it keeps the number of elements.

The kernel of a tree reads each distinct leaf through one input, has no axis on which every size is
1 unless that is all there is, and has the reduced axes behind the others.
-/

namespace TensorLoom

namespace Ast

/-- The tree below a reshape at the root, and the shape that it reshapes to. -/
def belowReshape : Ast → Ast × Option (List Nat)
  | .node id (.movement (.reshape shape)) [source] =>
    match source with
    | .leaf x => (.node id (.unary .noop) [.leaf x], some shape)
    | root => (root, some shape)
  | root => (root, none)

/-- Whether an operation can be lowered. -/
def isLowered : Op → Bool
  | .unary _ => true
  | .binary _ => true
  | .reduce _ _ => true
  | _ => false

/-- Refuse a tree with operations that are not lowered, or with several reductions. -/
def checkOps (root : Ast) : Attempt KernelError Unit :=
  match root.ops.find? fun op => !isLowered op with
  | some op => refuse (.unsupportedOp op)
  | none =>
    let reduces := root.ops.countP Op.isReduce
    if reduces ≤ 1 then pure () else refuse (.multipleReduce reduces)

/-- Refuse a shape that is not that of the iteration space up to unit dimensions. -/
def requireBroadcast (full shape : List Nat) : Attempt KernelError Unit := do
  if shape.length ≠ full.length then
    refuse (.layout (.dimensionMismatch .kernelOutput full.length shape.length))
  else match (shape.zip full).findIdx? (fun (d, f) => d ≠ f ∧ d ≠ 1) with
    | some axis =>
      refuse (.layout (.expandInvalidDimension axis (← entry shape axis) (← entry full axis)))
    | none => pure ()

/-- The iteration space of some leaves: on each axis the largest of their sizes, which all the
others have to broadcast to. -/
def spaceOf (leaves : List Operand) : Attempt KernelError (List Nat) :=
  match leaves with
  | [] => refuse .emptyAst
  | first :: _ => do
    let rank := first.shape.length
    match leaves.find? (·.shape.length ≠ rank) with
    | some leaf => refuse (.layout (.dimensionMismatch .kernelLeaf rank leaf.shape.length))
    | none =>
      let unit := List.replicate rank 1
      let full := leaves.foldl (fun full leaf => Shape.widen full leaf.shape) unit
      leaves.forM fun leaf => requireBroadcast full leaf.shape
      pure full

/-- The shape of the output in the iteration space: that of the reduction, or else all of it. -/
def resultShape (root : Ast) (full : List Nat) : List Nat :=
  match root.find? Op.isReduce with
  | some ⟨_, .reduce _ shape, _⟩ => shape
  | _ => full

/-- The number of elements that the kernel of a tree writes. -/
def resultSize (ast : Ast) : Attempt KernelError Nat := do
  let (root, reshape) := belowReshape ast
  checkOps root
  let full ← spaceOf root.leaves
  let out := resultShape root full
  requireBroadcast full out
  match reshape with
  | none => Shape.size out
  | some shape =>
    let targetSize ← Shape.size shape
    let size ← Shape.size out
    if targetSize ≠ size then refuse (.layout (.shapeMismatch out shape size targetSize))
    else pure size

end Ast

namespace Kernel

/-- Drop the axes on which every size is 1, but keep one axis. -/
def dropUnitAxes (k : Kernel) : Attempt KernelError Kernel :=
  let full := k.space
  let kept := (List.range full.length).filter fun i => full[i]? ≠ some 1
  if kept.length = full.length then pure k
  else
    let squeeze (shape : List Nat) : Checked (List Nat) := do
      let sizes ← kept.mapM (entry shape)
      return if sizes.isEmpty then [1] else sizes
    k.relayout (some squeeze) (List.range (max kept.length 1))

/-- Move the reduced axes behind the others. -/
def putReducedLast (k : Kernel) : Attempt KernelError Kernel :=
  let full := k.space
  let isReduced (i : Nat) : Bool := k.output.shape[i]? = some 1 && full[i]? ≠ some 1
  let (reduced, kept) := (List.range full.length).partition isReduced
  if reduced.isEmpty then pure k else k.relayout none (kept ++ reduced)

/-- The kernel of a tree that writes to the given buffer. -/
def ofAst (ast : Ast) (output : Buffer) : Attempt KernelError Kernel := do
  let len ← Ast.resultSize ast
  if output.len ≠ len then
    refuse (.device (.sizeMismatch len output.len))
  else
    let root := (Ast.belowReshape ast).1
    let out := Ast.resultShape root (← Ast.spaceOf root.leaves)
    let inputs := root.leaves.eraseDups
    let numbered : OpTree Nat :=
      Id.run (root.mapLeaves pure fun leaf => pure (1 + inputs.findIdx (· = leaf)))
    let tracker ← KernelError.ofLayout (Tracker.ofShape out)
    let k ← dropUnitAxes ⟨numbered, ⟨output, tracker⟩, inputs, 0⟩
    k.putReducedLast

end Kernel

end TensorLoom
