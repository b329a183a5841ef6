import TensorLoom.OpTree.Basic
import TensorLoom.Device.Simulated

/-!
# Kernels

A kernel computes one output buffer from some input buffers in a common iteration space. Every
buffer is seen through a tracker of its own, and on each axis a tracker spans the whole space or has
size 1. An axis on which the output has size 1 but the space has not is reduced.

The axes come in three runs: those that the output spans, the reduced ones, and the axes that are
unrolled, which a kernel has none of until it is tuned. `Kernel.spanned` and `Kernel.loops` say
where the first two runs end.

Tuning changes trackers only. `Kernel.relayout` reshapes and permutes all of them together, or none
of them, and `Kernel.edit` makes such a change one of several in sequence.
-/

namespace TensorLoom

/-- Why a kernel cannot be built, changed or run as asked. -/
inductive KernelError where
  | layout (cause : LayoutError)
  | device (cause : DeviceError)
  /-- The tree reads no buffer. -/
  | emptyAst
  | multipleReduce (count : Nat)
  /-- Only pointwise operations and reductions are lowered. -/
  | unsupportedOp (op : Op)
  | axisOutOfBounds (axis loops : Nat)
  | invalidAxisOrder (order : List Nat) (rank : Nat)
deriving DecidableEq, Repr

/-- The wording of a kernel error. -/
def KernelError.message : KernelError → String
  | .layout _ => "shape tracker error"
  | .device _ => "device error"
  | .emptyAst => "kernel AST reads no buffers"
  | .multipleReduce count => s!"kernel AST has {count} reduce nodes, at most one is supported"
  | .unsupportedOp op => s!"{op.text} cannot appear inside a kernel AST"
  | .axisOutOfBounds axis loops => s!"axis {axis} out of bounds for {loops} loop axes"
  | .invalidAxisOrder order rank => s!"{Text.sizes order} is not a permutation of {rank} axes"

/-- A layout question about a kernel. -/
def KernelError.ofLayout {α : Type} (x : Attempt LayoutError α) : Attempt KernelError α :=
  x.mapError (Stop.mapRefusal .layout)

/-- A device buffer and the tracker it is seen through. -/
structure Operand where
  buffer : Buffer
  tracker : Tracker
deriving DecidableEq, Repr

namespace Operand

/-- The shape of the tracker. -/
def shape (o : Operand) : List Nat := o.tracker.shape

/-- An operand in the text of a tree, such as `buf0[4, 8]`. -/
def text (o : Operand) : String := bufferName o.buffer.id ++ Text.sizes o.shape

end Operand

/-- An operation tree to be lowered. -/
abbrev Ast := OpTree Operand

/-- A lowered operation tree in its current layout. -/
structure Kernel where
  /-- The tree, whose leaves are the numbers of the inputs, counted from 1. -/
  ast : OpTree Nat
  output : Operand
  inputs : List Operand
  /-- The number of axes at the end that are unrolled. -/
  unrolled : Nat

/-- Whether an operation is a reduction. -/
def Op.isReduce : Op → Bool
  | .reduce _ _ => true
  | _ => false

namespace Kernel

/-- The output, which has number 0, and the inputs. -/
def operands (k : Kernel) : List Operand := k.output :: k.inputs

/-- The buffers to launch the kernel over, the output first. -/
def buffers (k : Kernel) : List Buffer := k.operands.map (·.buffer)

/-- The trackers, that of the output first. -/
def trackers (k : Kernel) : List Tracker := k.operands.map (·.tracker)

/-- The number of axes. -/
def rank (k : Kernel) : Nat := k.output.shape.length

/-- The number of axes that are not unrolled. -/
def loops (k : Kernel) : Checked Nat := Word.sub k.rank k.unrolled

/-- The iteration space: on each axis the largest size that a tracker has. -/
def space (k : Kernel) : List Nat :=
  k.inputs.foldl (fun full o => Shape.widen full o.shape) k.output.shape

/-- The number of leading axes that the output spans. Unrolled axes are not counted. -/
def spanned (k : Kernel) : Checked Nat := do
  let loops ← k.loops
  let axes := (k.output.shape.zip k.space).take loops
  return (axes.findIdx? fun (out, full) => out ≠ full).getD loops

/-- The reduction in the tree. -/
def reduction? (k : Kernel) : Option Reduction :=
  match k.ast.find? Op.isReduce with
  | some ⟨_, .reduce op _, _⟩ => some op
  | _ => none

/-- The reduction in the tree with its operand, if it has a single one. -/
def reduced? (k : Kernel) : Option (Reduction × OpTree Nat) :=
  match k.ast.find? Op.isReduce with
  | some ⟨_, .reduce op _, [operand]⟩ => some (op, operand)
  | _ => none

/-- The name of the generated function: `r` for a kernel that reduces and `E` for another, then the
sizes of the axes that are not unrolled. -/
def name (k : Kernel) : Checked String := do
  let loops ← k.loops
  let kind := if k.reduction?.isSome then "r" else "E"
  return (k.space.take loops).foldl (fun text size => s!"{text}_{size}") kind

/-- Apply a movement that may depend on the shape to every tracker. -/
def moveOperands (k : Kernel) (movement : List Nat → Checked Movement) :
    Attempt KernelError Kernel := do
  let move (o : Operand) : Attempt KernelError Operand := do
    let m ← movement o.shape
    return { o with tracker := ← KernelError.ofLayout (o.tracker.move m) }
  let output ← move k.output
  let inputs ← k.inputs.mapM move
  return { k with output, inputs }

/-- Reshape every tracker, if a function of its shape is given, and then put the axes that are not
unrolled into the given order. Nothing is changed unless all of it can be done. -/
def relayout (k : Kernel) (reshape : Option (List Nat → Checked (List Nat))) (order : List Nat) :
    Attempt KernelError Kernel := do
  let reshaped ← match reshape with
    | some f => k.moveOperands fun shape => return .reshape (← f shape)
    | none => pure k
  let rank := reshaped.rank
  if reshaped.inputs.any (·.shape.length ≠ rank) then
    refuse (.invalidAxisOrder order rank)
  else
    let loops := rank - k.unrolled
    if !Tracker.isPermutation order loops then
      refuse (.invalidAxisOrder order loops)
    else if order = List.range loops then
      pure reshaped
    else
      reshaped.moveOperands fun _ =>
        pure (.permute (order ++ List.range' loops (rank - loops)))

/-- Unroll the last axis that is not unrolled yet. -/
def unroll (k : Kernel) : Attempt KernelError Kernel := do
  let loops ← k.loops
  if 0 < loops then return { k with unrolled := k.unrolled + 1 }
  else refuse (.axisOutOfBounds 0 0)

end Kernel

/-- Changes of a kernel in sequence. One that is refused leaves what those before it have done. -/
abbrev KernelM := ExceptT (Stop KernelError) (StateM Kernel)

namespace Kernel

/-- Change the kernel, which stays as it is if the change is refused. -/
def edit (change : Kernel → Attempt KernelError Kernel) : KernelM Unit :=
  ExceptT.mk fun k =>
    match change k with
    | .ok changed => (.ok (), changed)
    | .error e => (.error e, k)

/-- The kernel that changes lead to, if none of them is refused. -/
def after (k : Kernel) (changes : KernelM Unit) : Attempt KernelError Kernel :=
  let (outcome, changed) := changes.run.run k
  outcome.map fun () => changed

end Kernel

end TensorLoom
