import TensorLoom.Op
import TensorLoom.Layout.Address

/-!
# Kernel source

Generated code is a function in the C of compute kernels. It is run once for each work item and
always has the same parts: definitions of the indices from the identity of the work item; for a
kernel that reduces, accumulators with a nest of loops that updates them; and stores to the output.
The parts are kept apart here, so that what a source means can be read off its structure, and
`KernelSource.text` is the only place where it becomes text.
-/

namespace TensorLoom

/-- A floating-point expression. -/
inductive Value where
  | zero
  /-- An element of an input, or zero where a condition fails. -/
  | load (number : Nat) (address : Address)
  | accumulator (k : Nat)
  | unary (op : Unary) (x : Value)
  | binary (op : Binary) (a b : Value)

/-- An operation on a written operand. -/
def Unary.sourceText (op : Unary) (x : String) : String :=
  match op with
  | .noop => x
  | .neg => "(-" ++ x ++ ")"
  | .relu => "max(" ++ x ++ ", 0.0f)"
  | .exp => "exp(" ++ x ++ ")"
  | .log => "log(" ++ x ++ ")"
  | .sign => "sign(" ++ x ++ ")"
  | .reciprocal => "(1.0f/" ++ x ++ ")"

/-- An operation on written operands. -/
def Binary.sourceText (op : Binary) (a b : String) : String :=
  match op with
  | .add => "(" ++ a ++ "+" ++ b ++ ")"
  | .sub => "(" ++ a ++ "-" ++ b ++ ")"
  | .mul => "(" ++ a ++ "*" ++ b ++ ")"
  | .div => "(" ++ a ++ "/" ++ b ++ ")"
  | .pow => "pow(" ++ a ++ ", " ++ b ++ ")"
  | .cmpEq => "(float)(" ++ a ++ "==" ++ b ++ ")"

/-- The written value that a fold starts from. -/
def Reduction.identityText : Reduction → String
  | .sum => "0.0f"
  | .max => "-INFINITY"

/-- A written fold of one more value. -/
def Reduction.combineText (op : Reduction) (acc value : String) : String :=
  match op with
  | .sum => acc ++ " + " ++ value
  | .max => "max(" ++ acc ++ ", " ++ value ++ ")"

/-- The parameter that holds a buffer; the output has number 0. -/
def bufferParameter (number : Nat) : String := s!"data{number}"

/-- The name of an accumulator. -/
def accumulatorName (k : Nat) : String := s!"acc{k}"

/-- The name of the part of the work item's identity along a dimension. -/
def globalName (dimension : Nat) : String := s!"gidx{dimension}"

/-- The name of an axis that shares a dimension with others. -/
def mergedName (axis : Nat) : String := s!"idx{axis}"

/-- The name of an axis that is looped over. -/
def loopName (axis : Nat) : String := s!"ridx{axis}"

/-- An element of a buffer. -/
def elementText (number : Nat) (position : IndexExpr) : String :=
  bufferParameter number ++ "[" ++ position.text ++ "]"

namespace Value

/-- The expression as C reads it. An element that may be missing is guarded by its conditions. -/
def text : Value → String
  | zero => "0.0f"
  | load number ⟨position, []⟩ => elementText number position
  | load number ⟨position, conditions⟩ =>
    "((" ++ " && ".intercalate (conditions.map Condition.text) ++ ") ? " ++
      elementText number position ++ " : 0.0f)"
  | accumulator k => accumulatorName k
  | unary op x => op.sourceText x.text
  | binary op a b => op.sourceText a.text b.text

end Value

/-- The definition of an index. -/
inductive IndexDefinition where
  /-- The identity of the work item along a dimension. -/
  | ofGlobal (dimension : Nat)
  /-- An axis recovered from the dimension that it shares. -/
  | ofMerged (axis : Nat) (value : IndexExpr)

/-- The line that defines an index. -/
def IndexDefinition.text : IndexDefinition → String
  | ofGlobal dimension => s!"  int {globalName dimension} = get_global_id({dimension});"
  | ofMerged axis value => s!"  int {mergedName axis} = {value.text};"

/-- A loop over an axis. -/
structure Loop where
  axis : Nat
  bound : Nat

/-- Fold a value into an accumulator. -/
structure Update where
  accumulator : Nat
  value : Value

/-- Store a value in the output. -/
structure Store where
  position : IndexExpr
  value : Value

/-- Accumulators and the loops, the outermost first, that update them. -/
structure Accumulation where
  op : Reduction
  accumulators : Nat
  loops : List Loop
  updates : List Update

/-- The source of a kernel and the grid that it is run over. -/
structure KernelSource where
  name : String
  /-- The number of buffers, the output among them. -/
  buffers : Nat
  globalSize : List Nat
  definitions : List IndexDefinition
  accumulation : Option Accumulation
  stores : List Store

namespace Accumulation

/-- The blanks in front of a line. -/
def indent (depth : Nat) : String :=
  String.ofList (List.replicate (2 * depth) ' ')

/-- A nest of loops, with the lines of its body written at the depth reached. -/
def loopLines (body : Nat → List String) (depth : Nat) : List Loop → List String
  | [] => body depth
  | ⟨axis, bound⟩ :: inner =>
    let i := loopName axis
    (indent depth ++ "for (int " ++ i ++ " = 0; " ++ i ++ " < " ++ toString bound ++ "; " ++ i ++
        "++) \x7b") ::
      loopLines body (depth + 1) inner ++ [indent depth ++ "\x7d /* " ++ i ++ " */"]

/-- The lines of an accumulation: the accumulators at their start values, then the loops. -/
def lines (a : Accumulation) : List String :=
  let starts := (List.range a.accumulators).map fun k =>
    "  float " ++ accumulatorName k ++ " = " ++ a.op.identityText ++ ";"
  let body (depth : Nat) : List String := a.updates.map fun u =>
    let acc := accumulatorName u.accumulator
    indent depth ++ acc ++ " = " ++ a.op.combineText acc u.value.text ++ ";"
  starts ++ loopLines body 1 a.loops

end Accumulation

namespace KernelSource

/-- The declaration of the parameter that holds a buffer. Only the output is written to. -/
def parameterText (number : Nat) : String :=
  if number = 0 then "__global float* " ++ bufferParameter number
  else "const __global float* " ++ bufferParameter number

/-- The lines of the source. -/
def lines (s : KernelSource) : List String :=
  let parameters := ", ".intercalate ((List.range s.buffers).map parameterText)
  let first := "__kernel void " ++ s.name ++ "(" ++ parameters ++ ") \x7b"
  let accumulation := match s.accumulation with
    | some a => a.lines
    | none => []
  let stores := s.stores.map fun t =>
    "  " ++ elementText 0 t.position ++ " = " ++ t.value.text ++ ";"
  first :: s.definitions.map IndexDefinition.text ++ accumulation ++ stores ++ ["\x7d"]

/-- The source as text. -/
def text (s : KernelSource) : String := "\n".intercalate s.lines

end KernelSource

end TensorLoom
