import TensorLoom.Kernel.Basic
import TensorLoom.Kernel.Source

/-!
# From kernels to source

The axes that the output spans come from the identity of the work item, the reduced axes are looped
over, and the unrolled axes are written out, one statement for each index of theirs.

There are only three dimensions of work items. If the output spans more axes, the leading ones share
the first dimension, `Grid.ofSizes`, and are recovered from it by division.

A kernel that reduces has one accumulator for each index of the unrolled axes that the output spans,
so the unrolled updates of one output element all go to the same accumulator.
-/

namespace TensorLoom

/-- The indices of some axes as they come from the identity of the work item. -/
structure Grid where
  globalSize : List Nat
  definitions : List IndexDefinition
  /-- One name for each axis. -/
  names : List IndexExpr

namespace Grid

/-- Axes with a dimension each. -/
def separate (sizes : List Nat) : Grid :=
  let axes := List.range sizes.length
  { globalSize := sizes
    definitions := axes.map .ofGlobal
    names := axes.map fun i => .name (globalName i) }

/-- Axis `i` of those that share the first dimension: the part of the identity above the elements
that the axes behind it span, less whole repetitions of its own size. -/
def mergedAxis (sizes : List Nat) (i size : Nat) : Checked IndexDefinition := do
  let span ← Shape.size (sizes.drop (i + 1))
  let identity := IndexExpr.name (globalName 0)
  let part := if span = 1 then identity else .quotient identity span
  return .ofMerged i (if i = 0 then part else .remainder part size)

/-- Axes of which the leading ones share the first dimension. -/
def merged (leading : List Nat) (y z : Nat) : Checked Grid := do
  let parts ← leading.zipIdx.mapM fun (size, i) => mergedAxis leading i size
  let total ← Shape.size leading
  return {
    globalSize := [total, y, z]
    definitions := .ofGlobal 0 :: parts ++ [.ofGlobal 1, .ofGlobal 2]
    names := (List.range leading.length).map (fun i => .name (mergedName i)) ++
      [.name (globalName 1), .name (globalName 2)] }

/-- The indices of axes of the given sizes. -/
def ofSizes (sizes : List Nat) : Checked Grid :=
  if sizes.isEmpty then pure ⟨[1], [], []⟩
  else if sizes.length ≤ 3 then pure (separate sizes)
  else
    match sizes.drop (sizes.length - 2) with
    | [y, z] => merged (sizes.take (sizes.length - 2)) y z
    | _ => throw .outOfBounds

end Grid

/-- What becomes of the axes of a kernel: some are work items, some loops and some written out. -/
structure Plan where
  /-- The axes that the output spans. -/
  grid : Grid
  /-- The reduced axes. -/
  loops : List Loop
  /-- For each unrolled axis, whether the output spans it. -/
  marks : List Bool
  /-- For each accumulator, the index on the unrolled axes that the output spans. -/
  accumulators : List (List Nat)
  /-- The indices of the unrolled axes. -/
  unrolled : List (List Nat)

namespace Plan

/-- The entries of an index on the axes that are marked. -/
def restrict (marks : List Bool) (idx : List Nat) : List Nat :=
  (marks.zip idx).filterMap fun (mark, i) => if mark then some i else none

/-- An index with the given entries on the axes that are marked and 0 on the others. -/
def extend : List Bool → List Nat → List Nat
  | [], _ => []
  | true :: marks, i :: idx => i :: extend marks idx
  | _ :: marks, idx => 0 :: extend marks idx

/-- Numbers as symbolic indices. -/
def literals (idx : List Nat) : List IndexExpr := idx.map fun i => .literal (i : Nat)

/-- The accumulator of the output element that an index of the unrolled axes belongs to. -/
def accumulatorOf (p : Plan) (idx : List Nat) : Nat :=
  p.accumulators.findIdx (· = restrict p.marks idx)

/-- Symbolic indices inside the loops, for an index of the unrolled axes. -/
def inside (p : Plan) (idx : List Nat) : List IndexExpr :=
  p.grid.names ++ p.loops.map (fun l => .name (loopName l.axis)) ++ literals idx

/-- Symbolic indices behind the loops, where the reduced axes have index 0. -/
def behind (p : Plan) (idx : List Nat) : List IndexExpr :=
  p.grid.names ++ p.loops.map (fun _ => .literal 0) ++ literals idx

end Plan

namespace Kernel

/-- The element of an operand at symbolic indices. A mask that admits nothing makes it zero. -/
def loadValue (k : Kernel) (idx : List IndexExpr) (number : Nat) : Checked Value := do
  let o ← entry k.operands number
  let address ← o.tracker.address idx
  return if address.conditions.contains .never then .zero else .load number address

/-- The value of a tree at symbolic indices, given that of the reduction. -/
def symbolicValue (k : Kernel) (idx : List IndexExpr) (reduced : Value) :
    OpTree Nat → Checked Value
  | .leaf number => k.loadValue idx number
  | .node _ (.unary op) [x] => do
    return .unary op (← symbolicValue k idx reduced x)
  | .node _ (.binary op) [a, b] => do
    let x ← symbolicValue k idx reduced a
    let y ← symbolicValue k idx reduced b
    return .binary op x y
  | .node _ (.reduce _ _) _ => pure reduced
  | _ => pure .zero

/-- The store of the root at symbolic indices. -/
def storeAt (k : Kernel) (idx : List IndexExpr) (reduced : Value) : Checked Store := do
  let value ← k.symbolicValue idx reduced k.ast
  let address ← k.output.tracker.address idx
  return ⟨address.position, value⟩

/-- The indices of unrolled axes. Each is a row of a table that has to be addressable. -/
def unrolledIndices (sizes : List Nat) : Checked (List (List Nat)) := do
  let count ← Shape.size sizes
  Word.table count 24
  return Shape.indices sizes

/-- The axes of a kernel as its source treats them. -/
def plan (k : Kernel) : Checked Plan := do
  let loops ← k.loops
  let spanned ← k.spanned
  let grid ← Grid.ofSizes (k.space.take spanned)
  let reduced := (List.range' spanned (loops - spanned)).zip (k.space.drop spanned)
  let marks := (k.output.shape.drop loops).map fun size => decide (1 < size)
  let sizes := k.space.drop loops
  let accumulators ← unrolledIndices (Plan.restrict marks sizes)
  let unrolled ← unrolledIndices sizes
  return ⟨grid, reduced.map fun (axis, bound) => ⟨axis, bound⟩, marks, accumulators, unrolled⟩

/-- Fold the operand of the reduction over the reduced axes and the unrolled ones. -/
def accumulation (k : Kernel) (p : Plan) (op : Reduction) (operand : OpTree Nat) :
    Checked Accumulation := do
  let updates ← p.unrolled.mapM fun i => do
    let value ← k.symbolicValue (p.inside i) .zero operand
    return (⟨p.accumulatorOf i, value⟩ : Update)
  return ⟨op, p.accumulators.length, p.loops, updates⟩

/-- The source of a kernel. Only the tables of unrolled indices are checked to be addressable; the
memory that is needed to write the lines of the source is not counted. -/
def source (k : Kernel) : Checked KernelSource := do
  let name ← k.name
  let p ← k.plan
  let (accumulation, stores) ← match k.reduced? with
    | some (op, operand) => do
      let accumulation ← k.accumulation p op operand
      let stores ← p.accumulators.zipIdx.mapM fun (i, acc) =>
        k.storeAt (p.behind (Plan.extend p.marks i)) (.accumulator acc)
      pure (some accumulation, stores)
    | none => do
      let stores ← p.unrolled.mapM fun i => k.storeAt (p.inside i) .zero
      pure (none, stores)
  return ⟨name, k.operands.length, p.grid.globalSize, p.grid.definitions, accumulation, stores⟩

end Kernel

end TensorLoom
