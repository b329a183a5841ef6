import TensorLoom.Device.Event
import TensorLoom.Device.LaunchShape
import Std.Data.HashMap.Basic

/-!
# A simulated device

The device holds buffers, accepts kernel sources and times launches, but runs no kernel: a launch
checks its arguments, asks a cost model how many ticks it takes and moves the clock on by them. The
cost model and the filter of the compiler are functions of the source, so what the device answers
depends on nothing but the requests so far.

A request that is refused or faults has no new device, so nothing of it is left behind.

Buffer identities come from one supply for all devices, so a buffer of another device takes the next
one here as well.
-/

namespace TensorLoom

/-- A handle to some device memory. -/
structure Buffer where
  id : BufferId
  /-- The number of elements. -/
  len : Nat
deriving DecidableEq, Repr

/-- Device memory: a number of elements, all zero until they are written. -/
structure Slot where
  len : Nat
  written : Option (Array Float32)

/-- Memory of the host or a device for a number of elements, four bytes each. -/
def memoryFor (len : Nat) : Checked Unit := Word.table len 4

/-- The elements of a piece of memory. -/
def Slot.contents (s : Slot) : Array Float32 :=
  s.written.getD (Array.replicate s.len 0)

/-- A compiled kernel. -/
structure Program where
  name : String
  source : String
deriving DecidableEq, Repr

/-- The ticks of a launch, or `none` if it fails. -/
abbrev CostModel := String → LaunchShape → Checked (Option Nat)

/-- One tick for each byte of the source. -/
def CostModel.sourceLength : CostModel :=
  fun source _ => pure (some source.utf8ByteSize)

/-- A device and all that its requests have done. -/
structure Device (τ : Type) where
  cost : CostModel
  rejects : String → Bool
  /-- The duration of one tick. -/
  scale : τ
  nextBuffer : BufferId
  memory : Std.HashMap BufferId Slot
  clock : Nat
  /-- Launches since the last synchronization. -/
  pending : Nat
  launches : Nat
  /-- The name and source of everything compiled, in order. -/
  compiled : Array (String × String)

namespace Device

variable {τ : Type}

/-- A device on which nothing has happened yet. -/
def new (cost : CostModel) (rejects : String → Bool) (scale : τ) : Device τ :=
  ⟨cost, rejects, scale, 0, {}, 0, 0, 0, #[]⟩

/-- The name of the device. -/
def name : String := "SIM"

/-- A buffer on another device. -/
def allocElsewhere (d : Device τ) (len : Nat) : Checked (Buffer × Device τ) := do
  memoryFor len
  pure (⟨d.nextBuffer, len⟩, { d with nextBuffer := d.nextBuffer + 1 })

/-- A buffer full of zeros. -/
def alloc (d : Device τ) (len : Nat) : Checked (Buffer × Device τ) := do
  let (buffer, d) ← d.allocElsewhere len
  pure (buffer, { d with memory := d.memory.insert buffer.id ⟨len, none⟩ })

/-- The memory behind a buffer. -/
def slot (d : Device τ) (b : Buffer) : Except DeviceError Slot :=
  match d.memory[b.id]? with
  | some s => .ok s
  | none => .error (.unknownBuffer b.id)

/-- Overwrite a buffer with host data of the same length. -/
def write (d : Device τ) (b : Buffer) (data : Array Float32) : Except DeviceError (Device τ) := do
  let s ← d.slot b
  if s.len = data.size then
    pure { d with memory := d.memory.insert b.id ⟨s.len, some data⟩ }
  else
    throw (.sizeMismatch s.len data.size)

/-- Copy a buffer to host memory of the given length, which has to be its own. -/
def readExactly (d : Device τ) (b : Buffer) (len : Nat) : Except DeviceError (Array Float32) := do
  let s ← d.slot b
  if s.len = len then pure s.contents else throw (.sizeMismatch s.len len)

/-- The contents of a buffer. The host memory that they are copied to is made before the device is
asked for them. -/
def read (d : Device τ) (b : Buffer) : Attempt DeviceError (Array Float32) := do
  memoryFor b.len
  (d.readExactly b b.len).mapError Stop.refused

/-- Compile a kernel, unless the filter rejects its source. -/
def compile (d : Device τ) (name source : String) : Except DeviceError (Program × Device τ) :=
  if d.rejects source then .error (.rejected name)
  else .ok (⟨name, source⟩, { d with compiled := d.compiled.push (name, source) })

/-- Launch a kernel over buffers of this device. -/
def launch (d : Device τ) (p : Program) (shape : LaunchShape) (buffers : List Buffer) :
    Attempt DeviceError (Event × Device τ) := do
  match buffers.find? fun b => !d.memory.contains b.id with
  | some b => refuse (.unknownBuffer b.id)
  | none =>
    match ← d.cost p.source shape with
    | none => refuse (.launchFailed p.name)
    | some ticks =>
      let stop ← Word.add d.clock ticks
      pure (⟨d.clock, stop⟩,
        { d with clock := stop, pending := d.pending + 1, launches := d.launches + 1 })

/-- Wait until everything launched has ended. -/
def synchronize (d : Device τ) : Device τ := { d with pending := 0 }

/-- The text of a device in descriptions. -/
def describe (d : Device τ) : String :=
  "SimDevice \x7b buffers: " ++ toString d.memory.size ++ ", clock: " ++ toString d.clock ++
    ", launches: " ++ toString d.launches ++ " \x7d"

end Device

end TensorLoom
