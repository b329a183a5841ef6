import TensorLoom.Kernel.Basic

/-!
# Kernels on the host

A kernel is evaluated in its current layout, with every element read through the current trackers.
If the tree has a reduction, its operand is folded over the whole iteration space first, one
accumulator for each element of the output. Then each element of the output is computed, the
reduction standing for its accumulator.
-/

namespace TensorLoom

/-- An index of the iteration space as one of a shape that is 1 on some axes. -/
def broadcastIndex (idx shape : List Nat) : List Nat :=
  List.zipWith (fun i d => if d = 1 then 0 else i) idx shape

namespace Kernel

/-- The value of an input at an index of the iteration space; outside a mask it is 0. -/
def load (k : Kernel) (data : List (Array Float32)) (idx : List Nat) (number : Nat) :
    Checked Float32 := do
  let o ← entry k.operands number
  let xs ← entry data (← Word.sub number 1)
  match ← o.tracker.index (broadcastIndex idx o.shape) with
  | some i => return xs.getD i 0
  | none => return 0

/-- The value of a tree, given those of its leaves and of the reduction. -/
def valueOf (leaf : Nat → Checked Float32) (reduced : Float32) : OpTree Nat → Checked Float32
  | .leaf number => leaf number
  | .node _ (.unary op) [x] => do
    return op.apply (← valueOf leaf reduced x)
  | .node _ (.binary op) [a, b] => do
    let x ← valueOf leaf reduced a
    let y ← valueOf leaf reduced b
    return op.apply x y
  | _ => pure reduced

/-- Change one element of an array. -/
def update (xs : Array Float32) (i : Nat) (f : Float32 → Checked Float32) :
    Checked (Array Float32) := do
  if h : i < xs.size then
    let x ← f xs[i]
    return xs.set i x
  else throw .outOfBounds

/-- The accumulators of a reduction, after all values of the iteration space have been folded in. -/
def accumulate (k : Kernel) (data : List (Array Float32)) (op : Reduction) (operand : OpTree Nat) :
    Checked (Array Float32) :=
  (Shape.indices k.space).foldlM
    (fun acc idx => do
      let value ← valueOf (k.load data idx) 0 operand
      match ← k.output.tracker.index (broadcastIndex idx k.output.shape) with
      | some o => update acc o fun x => pure (op.combine x value)
      | none => pure acc)
    (Array.replicate k.output.buffer.len op.identity)

/-- Write the elements of the output. -/
def writeOutput (k : Kernel) (data : List (Array Float32)) (acc : Option (Array Float32)) :
    Checked (Array Float32) :=
  (Shape.indices k.output.shape).foldlM
    (fun out idx => do
      match ← k.output.tracker.index idx with
      | none => pure out
      | some o =>
        let reduced ← match acc with
          | none => pure 0
          | some acc => match acc[o]? with
            | some x => pure x
            | none => throw .outOfBounds
        update out o fun _ => valueOf (k.load data idx) reduced k.ast)
    (Array.replicate k.output.buffer.len 0)

/-- Refuse data that is not one list for each input, of the length of its buffer. -/
def checkData (k : Kernel) (data : List (Array Float32)) : Except DeviceError Unit :=
  if data.length ≠ k.inputs.length then
    .error (.sizeMismatch k.inputs.length data.length)
  else match (k.inputs.zip data).find? (fun (o, xs) => o.buffer.len ≠ xs.size) with
    | some (o, xs) => .error (.sizeMismatch o.buffer.len xs.size)
    | none => .ok ()

/-- The output of a kernel, given the data of its inputs. -/
def evaluate (k : Kernel) (data : List (Array Float32)) :
    Attempt KernelError (Array Float32) := do
  match k.checkData data with
  | .error e => refuse (.device e)
  | .ok () =>
    let acc ← match k.reduced? with
      | some (op, operand) => do pure (some (← k.accumulate data op operand))
      | none => pure none
    k.writeOutput data acc

end Kernel

end TensorLoom
