import TensorLoom.Kernel.Compile
import TensorLoom.Kernel.Lowering
import TensorLoom.Tuning.Comparison
import TensorLoom.Tuning.Settings
import TensorLoom.Tuning.Intervention

/-!
# Searching for a fast layout

The search is greedy. In each round it times the best kernel so far and every kernel that one more
intervention leads to, each built anew from its tree. The current kernel wins unless a candidate
takes less than its time multiplied by the stop weight, and of several candidates the first of the
fastest is kept. The search ends when the current kernel wins, or after the last round allowed.

A kernel that cannot be built, compiled or launched takes forever, so it never wins.
-/

namespace TensorLoom

variable {τ : Type} [Duration τ]

/-- The kernel of a tree with interventions applied in order. -/
def Ast.tuned (ast : Ast) (output : Buffer) (is : List Intervention) :
    Attempt KernelError Kernel := do
  (← Kernel.ofAst ast output).after (is.forM Kernel.intervene)

namespace Kernel

/-- Launch a compiled kernel a number of times, and keep the shortest time. -/
def timeRuns (c : CompiledKernel) (buffers : List Buffer) (best : τ) :
    Nat → DeviceM τ KernelError τ
  | 0 => pure best
  | runs + 1 => do
    let event ← c.run buffers
    DeviceM.synchronize
    let scale := (← get).scale
    timeRuns c buffers (Duration.shorter best (event.duration scale)) runs

/-- The shortest time of a number of launches, of which there is at least one. -/
def time (k : Kernel) (runs : Nat) : DeviceM τ KernelError τ := do
  let c ← k.compile
  timeRuns c k.buffers Duration.never (max runs 1)

/-- The time of an attempt, which is never if it is refused. -/
def orNever (x : DeviceM τ KernelError τ) : DeviceM τ KernelError τ :=
  tryCatch x fun
    | .refused _ => pure Duration.never
    | .fault cause => throw (.fault cause)

/-- The shortest time of a number of launches, which is never if anything fails. -/
def timeOrNever (k : Kernel) (runs : Nat) : DeviceM τ KernelError τ :=
  orNever (k.time runs)

end Kernel

namespace Search

/-- The best of a round so far: its time, the intervention that leads to it, and the weight of its
time against the next candidate. -/
structure Best (τ : Type) where
  time : τ
  choice : Option Intervention
  weight : τ

/-- Keep a candidate that takes less than the weighted time of the best so far. From then on the
best time has no advantage. -/
def Best.consider (b : Best τ) (i : Intervention) (time : τ) : Best τ :=
  if Duration.isLess time (Duration.scale b.time b.weight) then ⟨time, some i, Duration.unit⟩ else b

/-- The time of the kernel that one more intervention leads to. -/
def candidateTime (ast : Ast) (output : Buffer) (winning : List Intervention) (runs : Nat)
    (i : Intervention) : DeviceM τ KernelError τ :=
  Kernel.orNever do
    let k ← ast.tuned output winning
    (← k.after (Kernel.intervene i)).time runs

/-- One round on top of the interventions that have won so far: the best time, and the intervention
that leads to it unless the current kernel wins. -/
def round (ast : Ast) (output : Buffer) (winning : List Intervention)
    (settings : SearchSettings τ) : DeviceM τ KernelError (τ × Option Intervention) := do
  let current ← ast.tuned output winning
  let baseline ← current.timeOrNever settings.runs
  let candidates ← current.interventions
  let best ← candidates.foldlM
    (fun (b : Best τ) i => do
      let time ← candidateTime ast output winning settings.runs i
      return b.consider i time)
    ⟨baseline, none, settings.stopWeight⟩
  return (best.time, best.choice)

/-- The outcome of a search. -/
structure Result (τ : Type) where
  /-- The interventions that won, in order. -/
  interventions : List Intervention
  /-- The time of the kernel without interventions. -/
  baseline : τ
  /-- The time of the winner. -/
  best : τ
  /-- The rounds run, among them one that kept the current kernel. -/
  rounds : Nat
  /-- The best time at the start and after each intervention. -/
  history : List τ

/-- How many times faster the winner is. -/
def Result.speedup (r : Result Float) : Float := r.baseline / r.best

/-- Run up to a number of further rounds. -/
def rounds (ast : Ast) (output : Buffer) (settings : SearchSettings τ) (r : Result τ) :
    Nat → DeviceM τ KernelError (Result τ)
  | 0 => pure r
  | left + 1 => do
    let (time, choice) ← round ast output r.interventions settings
    let r := { r with rounds := r.rounds + 1 }
    match choice with
    | none => pure r
    | some i =>
      rounds ast output settings
        { r with
          interventions := r.interventions ++ [i]
          best := time
          history := r.history ++ [time] } left

/-- Compile and launch a kernel a number of times. -/
def finalRuns (k : Kernel) : Nat → DeviceM τ KernelError Unit
  | 0 => pure ()
  | runs + 1 => do
    let _ ← (← k.compile).run k.buffers
    DeviceM.synchronize
    finalRuns k runs

/-- Why a search fails. -/
inductive Error where
  | kernel (cause : KernelError)
  /-- The winner does not compute what it should. -/
  | check (cause : CheckError)

/-- A step of a search that only involves kernels. -/
def ofKernel {α : Type} (x : DeviceM τ KernelError α) : DeviceM τ Error α :=
  x.adapt (Stop.mapRefusal .kernel)

/-- Search for a fast layout of the kernel of a tree, and check the winner. -/
def run (ast : Ast) (checker : Checker) (settings : SearchSettings τ) :
    DeviceM τ Error (Result τ) := do
  let (winner, result) ← ofKernel do
    let len ← ast.resultSize
    let output ← DeviceM.request fun d => (d.alloc len).toAttempt
    let first ← Kernel.ofAst ast output
    let baseline ← first.timeOrNever settings.runs
    let start : Result τ := ⟨[], baseline, baseline, 0, [baseline]⟩
    let result ← rounds ast output settings start settings.maxRounds
    let winner ← ast.tuned output result.interventions
    finalRuns winner settings.finalRuns
    return (winner, result)
  let d ← get
  (checker.check d ast winner).mapError (Stop.mapRefusal Error.check)
  return result

end Search

end TensorLoom
