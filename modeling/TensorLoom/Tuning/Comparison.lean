import TensorLoom.Decimal.Shortest
import TensorLoom.Kernel.Evaluate
import TensorLoom.Kernel.Lowering

/-!
# Checking a tuned kernel

A tuned kernel is compared with the kernel that its tree is lowered to, both evaluated on the host
with the inputs that the device holds. Reordered sums round differently, so two values may differ by
a tolerance relative to the expected one, or to 1 if that is larger.
-/

namespace TensorLoom

/-- Why a tuned kernel fails its check. -/
inductive CheckError where
  /-- The device does not hold an input. -/
  | unreadable (cause : DeviceError)
  /-- One of the kernels cannot be built or evaluated. -/
  | kernel (cause : KernelError)
  | outputSize (name : String)
  /-- An element of the output is not close to what is expected. -/
  | mismatch (name : String) (position : Nat) (got expected : Float32)

namespace CheckError

/-- The wording of a failed check. -/
def message : CheckError → String
  | unreadable _ => "kernel inputs must be readable from the device"
  | kernel _ => "kernel cannot be evaluated"
  | outputSize name => s!"kernel {name} changed its output size"
  | mismatch name position got expected =>
    s!"kernel {name} differs at output {position}: got {Decimal.text got}, expected " ++
      s!"{Decimal.text expected}"

end CheckError

/-- What is done with the winner of a search: nothing, or a comparison with a tolerance. -/
inductive Checker where
  | trusting
  | comparing (tolerance : Float32)

namespace Checker

/-- The tolerance of a comparison unless another one is given. -/
def standardTolerance : Float32 := 1e-4

/-- Whether a value is close enough to the expected one. -/
def isClose (tolerance actual expected : Float32) : Bool :=
  (actual.isNaN && expected.isNaN) || actual == expected ||
    (actual - expected).abs ≤ tolerance * larger expected.abs 1

/-- The first position at which two outputs are not close. -/
def firstMismatch (tolerance : Float32) (actual expected : List Float32) :
    Option (Nat × Float32 × Float32) :=
  ((actual.zip expected).zipIdx.find? fun ((a, e), _) => !isClose tolerance a e).map
    fun ((a, e), i) => (i, a, e)

/-- Compare a kernel with the one that its tree is lowered to. -/
def compare {τ : Type} (tolerance : Float32) (d : Device τ) (ast : Ast) (k : Kernel) :
    Attempt CheckError Unit := do
  let data ← k.inputs.mapM fun o => (d.read o.buffer).mapError (Stop.mapRefusal .unreadable)
  let reference ← (Kernel.ofAst ast k.output.buffer).mapError (Stop.mapRefusal .kernel)
  let expected ← (reference.evaluate data).mapError (Stop.mapRefusal .kernel)
  let actual ← (k.evaluate data).mapError (Stop.mapRefusal .kernel)
  if actual.size ≠ expected.size then refuse (.outputSize (← k.name))
  else match firstMismatch tolerance actual.toList expected.toList with
    | some (i, a, e) => refuse (.mismatch (← k.name) i a e)
    | none => pure ()

/-- Check a kernel. -/
def check {τ : Type} (c : Checker) (d : Device τ) (ast : Ast) (k : Kernel) :
    Attempt CheckError Unit :=
  match c with
  | trusting => pure ()
  | comparing tolerance => compare tolerance d ast k

end Checker

end TensorLoom
