import TensorLoom.Text.Listing

/-!
# Layout errors

A layout error names the argument that does not fit the shape it is applied to. None of them
depends on data, and each is worded in one place, `LayoutError.message`.
-/

namespace TensorLoom

/-- An argument that needs one entry for each dimension of a shape. -/
inductive Ranked where
  | mask
  | expand
  | pad
  | shrink
  | stride
  | kernelLeaf
  | kernelOutput
deriving DecidableEq, Repr

/-- The word for such an argument in a message. -/
def Ranked.word : Ranked → String
  | .mask => "mask"
  | .expand => "expand"
  | .pad => "pad"
  | .shrink => "shrink"
  | .stride => "stride"
  | .kernelLeaf => "kernel leaf"
  | .kernelOutput => "kernel output"

/-- Why a layout cannot be built or changed as asked. -/
inductive LayoutError where
  /-- The two shapes have different numbers of elements. -/
  | shapeMismatch (source target : List Nat) (sourceSize targetSize : Nat)
  /-- The axes are not a permutation of those of the shape. -/
  | invalidPermutation (axes : List Nat) (rank : Nat)
  /-- Some dimension of the shape is empty. -/
  | zeroDimension (shape : List Nat)
  /-- The argument has the wrong number of entries. -/
  | dimensionMismatch (argument : Ranked) (expected actual : Nat)
  /-- A view has more or fewer strides than dimensions. -/
  | strideRankMismatch (dimensions strides : Nat)
  /-- Only a dimension of size 1 can be broadcast. -/
  | expandInvalidDimension (axis input output : Nat)
  /-- The range kept of a dimension is empty or leaves it. -/
  | shrinkOutOfBounds (axis first stop size : Nat)
  /-- A step of zero never advances. -/
  | zeroStride (axis : Nat)
  /-- A reduction keeps each dimension or makes it 1. -/
  | reduceShapeMismatch (input output : List Nat)
deriving DecidableEq, Repr

/-- The wording of a layout error. -/
def LayoutError.message : LayoutError → String
  | .shapeMismatch source target sourceSize targetSize =>
    s!"shape mismatch: cannot reshape {Text.sizes source} ({sourceSize} elements) into " ++
      s!"{Text.sizes target} ({targetSize} elements)"
  | .invalidPermutation axes rank =>
    s!"invalid permutation {Text.sizes axes}: expected permutation of 0..{rank}"
  | .zeroDimension shape => s!"zero-sized dimension in shape {Text.sizes shape}"
  | .dimensionMismatch argument expected actual =>
    s!"{argument.word}: argument has {actual} dimensions but shape has {expected}"
  | .strideRankMismatch dimensions strides =>
    s!"view has {dimensions} shape dimensions but {strides} strides"
  | .expandInvalidDimension axis input output =>
    s!"expand invalid: dimension {axis} has size {input} but needs to expand to {output}"
  | .shrinkOutOfBounds axis first stop size =>
    s!"shrink bounds violation: dimension {axis} has range [{first}, {stop}) but size is {size}"
  | .zeroStride axis => s!"stride of zero on dimension {axis}"
  | .reduceShapeMismatch input output =>
    s!"cannot reduce {Text.sizes input} into {Text.sizes output}"

end TensorLoom
