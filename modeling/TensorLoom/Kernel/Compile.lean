import TensorLoom.Kernel.Generate

/-!
# Compiled kernels

The source of a kernel is given the launch shape of its grid and compiled by a device. Requests to a
device are made in sequence, and one that is refused leaves what the earlier ones have done.
-/

namespace TensorLoom

/-- Requests to a device, which may be refused. -/
abbrev DeviceM (τ : Type) (ε : Type) := ExceptT (Stop ε) (StateM (Device τ))

namespace DeviceM

variable {τ ε α : Type}

/-- A request that changes the device unless it is refused. -/
def request (run : Device τ → Attempt DeviceError (α × Device τ)) : DeviceM τ KernelError α :=
  ExceptT.mk fun d =>
    match run d with
    | .ok (a, d') => (.ok a, d')
    | .error e => (.error (e.mapRefusal .device), d)

/-- Wait until everything launched has ended. -/
def synchronize : DeviceM τ ε Unit := modify Device.synchronize

end DeviceM

/-- A kernel ready to be launched. -/
structure CompiledKernel where
  program : Program
  launch : LaunchShape
deriving DecidableEq, Repr

namespace CompiledKernel

/-- Launch the kernel over its buffers. -/
def run {τ : Type} (c : CompiledKernel) (buffers : List Buffer) : DeviceM τ KernelError Event :=
  DeviceM.request fun d => d.launch c.program c.launch buffers

/-- The text of a compiled kernel in descriptions. -/
def describe (c : CompiledKernel) : String :=
  "CompiledKernel \x7b name: \"" ++ c.program.name ++ "\", launch: " ++ c.launch.describe ++ " \x7d"

end CompiledKernel

/-- Generate the source of a kernel and compile it. -/
def Kernel.compile {τ : Type} (k : Kernel) : DeviceM τ KernelError CompiledKernel := do
  let source ← k.source
  let launch ← (LaunchShape.ofSizes source.globalSize none).mapError fun e =>
    Stop.refused (KernelError.device e)
  let program ← DeviceM.request fun d =>
    (d.compile source.name source.text).mapError .refused
  return ⟨program, launch⟩

end TensorLoom
