import TensorLoom.Layout.Movement

/-!
# Operations

The operations that a graph is built of, each with its argument: loads, pointwise operations of one
or two operands, reductions, movements and convolutions. Pointwise operations and reductions also
have their value on single-precision numbers; a convolution is only ever compared with another.
-/

namespace TensorLoom

/-- The larger of two numbers, the second one if they are equal: of two zeros, too, it is the second
whose sign is kept. If one of them is not a number, it is the other one. -/
def larger (a b : Float32) : Float32 :=
  if a.isNaN then b
  else if b.isNaN then a
  else if a ≤ b then b
  else a

/-- Pointwise operations of one operand. -/
inductive Unary where
  | noop
  | neg
  | relu
  | exp
  | log
  | sign
  | reciprocal
deriving DecidableEq, Hashable, Repr

namespace Unary

/-- The value of an operation. The sign of zero, and of what is not a number, is 0. A rectified
value is never the negative zero. -/
def apply : Unary → Float32 → Float32
  | noop, x => x
  | neg, x => -x
  | relu, x => larger x 0
  | exp, x => x.exp
  | log, x => x.log
  | sign, x => if 0 < x then 1 else if x < 0 then -1 else 0
  | reciprocal, x => 1 / x

/-- The name of an operation in the text of a tree. -/
def text : Unary → String
  | noop => "Noop"
  | neg => "Neg"
  | relu => "Relu"
  | exp => "Exp"
  | log => "Log"
  | sign => "Sign"
  | reciprocal => "Reciprocal"

end Unary

/-- Pointwise operations of two operands. -/
inductive Binary where
  | add
  | sub
  | mul
  | div
  | pow
  | cmpEq
deriving DecidableEq, Hashable, Repr

namespace Binary

/-- The value of an operation. A comparison is 1 where it holds and 0 elsewhere. -/
def apply : Binary → Float32 → Float32 → Float32
  | add, a, b => a + b
  | sub, a, b => a - b
  | mul, a, b => a * b
  | div, a, b => a / b
  | pow, a, b => a.pow b
  | cmpEq, a, b => if a == b then 1 else 0

/-- The name of an operation in the text of a tree. -/
def text : Binary → String
  | add => "Add"
  | sub => "Sub"
  | mul => "Mul"
  | div => "Div"
  | pow => "Pow"
  | cmpEq => "CmpEq"

end Binary

/-- Ways to fold many values into one. -/
inductive Reduction where
  | sum
  | max
deriving DecidableEq, Hashable, Repr

namespace Reduction

/-- The value that a fold starts from: 0, or negative infinity. -/
def identity : Reduction → Float32
  | sum => 0
  | max => Float32.ofBits 0xff800000

/-- Fold one more value in. -/
def combine : Reduction → (acc value : Float32) → Float32
  | sum, acc, value => acc + value
  | max, acc, value => larger acc value

/-- The name of a reduction in the text of a tree. -/
def text : Reduction → String
  | sum => "Sum"
  | max => "Max"

end Reduction

/-- The configuration of a convolution. -/
structure Convolution where
  groups : Nat
  stride : Nat × Nat
  dilation : Nat × Nat
  /-- Left, right, top and bottom. -/
  padding : Nat × Nat × Nat × Nat
  outShape : List Nat
deriving DecidableEq, Hashable, Repr

/-- A convolution of one group that steps by one and neither dilates nor pads. -/
def Convolution.plain (outShape : List Nat) : Convolution :=
  ⟨1, (1, 1), (1, 1), (0, 0, 0, 0), outShape⟩

/-- What kind of operation made a buffer. Fusion goes by the kind alone. -/
inductive Category where
  | elementwise
  | movement
  | reduction
  | processing
deriving DecidableEq, Repr

/-- The name of a kind of operation in descriptions. -/
def Category.text : Category → String
  | elementwise => "Elementwise"
  | movement => "Movement"
  | reduction => "Reduce"
  | processing => "Processing"

/-- An operation with its argument. -/
inductive Op where
  /-- Data that exists already. -/
  | load
  | unary (op : Unary)
  | binary (op : Binary)
  /-- Fold the operand into a shape of the same rank, in which the reduced dimensions are 1. -/
  | reduce (op : Reduction) (shape : List Nat)
  | movement (m : Movement)
  | convolution (args : Convolution)
deriving DecidableEq, Hashable, Repr

namespace Op

/-- The kind of an operation; a load has none. -/
def category : Op → Option Category
  | load => none
  | unary _ => some .elementwise
  | binary _ => some .elementwise
  | reduce _ _ => some .reduction
  | movement _ => some .movement
  | convolution _ => some .processing

/-- Whether an operation works pointwise. -/
def isElementwise (op : Op) : Bool :=
  op.category = some .elementwise

/-- The number of operands of an operation. -/
def arity : Op → Nat
  | load => 0
  | unary _ => 1
  | binary _ => 2
  | reduce _ _ => 1
  | movement _ => 1
  | convolution _ => 2

/-- An operation in the text of a tree. Of a convolution it shows the output shape. -/
def text : Op → String
  | load => "LOAD"
  | unary op => op.text
  | binary op => op.text
  | reduce op shape => op.text ++ Text.sizes shape
  | movement m => m.text
  | convolution args => "Conv" ++ Text.sizes args.outShape

end Op

end TensorLoom
