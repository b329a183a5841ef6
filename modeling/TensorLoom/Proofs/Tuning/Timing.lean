import TensorLoom.Proofs.Source.Launch
import TensorLoom.Tuning.Search
import Mathlib.Algebra.Order.Ring.NNRat
import Mathlib.Algebra.Order.Ring.WithTop

/-!
# What a timing measures

The times of kernels are taken exactly here: a time is a number, or never (`ExactTime`). A launch of
a kernel takes the ticks that the cost model says of its source (`Kernel.ticks`), whatever has been
launched before. So the shortest time of any number of launches is that of one of them, and a kernel
is given the same time whenever it is timed (`Kernel.answers_timeOrNever`).
-/

namespace TensorLoom

open DeviceM (Runs Answers)

/-- Times that are not rounded: a number, or never. -/
abbrev ExactTime := WithTop ℚ≥0

instance : Duration ExactTime where
  never := ⊤
  unit := 1
  ofTicks ticks := (ticks : ℚ≥0)
  scale time weight := time * weight
  shorter := min
  isLess time time' := decide (time < time')

theorem Duration.scale_unit (time : ExactTime) : scale time unit = time := mul_one time

theorem Duration.scale_le (time : ExactTime) {weight : ExactTime} (h : weight ≤ unit) :
    scale time weight ≤ time :=
  mul_le_of_le_one_right' h

/-! ## Launches -/

section Launches

variable {τ : Type} {d d' : Device τ}

/-- The ticks that a launch of a compiled kernel takes. -/
def CompiledKernel.ticks (d : Device τ) (c : CompiledKernel) (buffers : List Buffer) :
    Attempt KernelError Nat :=
  (d.ticks c.program c.launch buffers).mapError (Stop.mapRefusal .device)

theorem CompiledKernel.runs_run (d : Device τ) (c : CompiledKernel) (buffers : List Buffer) :
    Runs d (fun e d' => c.ticks d buffers = .error e ∨
        e = .fault .overflow ∧ d'.Exhausted (c.ticks d buffers = .ok ·))
      (c.run buffers) fun event => c.ticks d buffers = .ok (event.stop - event.start) := by
  intro d₁ hd
  rw [run, DeviceM.exec_request, ticks, ← hd.ticks_eq]
  rcases hticks : d₁.ticks c.program c.launch buffers with e | n
  · rw [Device.launch_of_error hticks]
    exact ⟨hd, .inl rfl⟩
  · by_cases hfits : d₁.clock + n < Word.bound
    · rw [Device.launch_of_ticks hticks hfits]
      exact ⟨hd.trans ⟨rfl, rfl, rfl, rfl⟩, congrArg Except.ok (Nat.add_sub_cancel_left _ _).symm⟩
    · rw [Device.launch_of_exhausted hticks hfits]
      exact ⟨hd, .inr ⟨rfl, n, rfl, Nat.le_of_not_lt hfits⟩⟩

namespace Kernel

variable {k : Kernel}

/-- The ticks that a launch of a kernel takes. -/
def ticks (d : Device τ) (k : Kernel) : Attempt KernelError Nat := do
  (← k.compiledFor d).ticks d k.buffers

theorem ticks_of_compiled {c : CompiledKernel} (h : k.compiledFor d = .ok c) :
    k.ticks d = c.ticks d k.buffers := by
  rw [ticks, h]
  rfl

/-- A launch takes what the cost model says, over as many work items as the axes that the output
spans have indices, if the device rejects nothing and holds the buffers. -/
theorem Shaped.exists_ticks {src : KernelSource} (hk : k.Shaped) (h : k.source = .ok src)
    (hd : ∀ text, d.rejects text = false)
    (hb : k.buffers.find? (fun b => !d.memory.contains b.id) = none) :
    ∃ launch spanned, k.spanned = .ok spanned ∧
      launch.globalSize.toList.prod = (k.space.take spanned).prod ∧
      ∀ n, d.cost src.text launch = .ok (some n) → k.ticks d = .ok n := by
  obtain ⟨-, -, spanned, hspanned, hprod⟩ := hk.globalSize_spans h
  obtain ⟨launch, hlaunch, -, hitems⟩ := hk.exists_launch h
  refine ⟨launch, spanned, hspanned, hitems.trans hprod, fun n hcost => ?_⟩
  rw [ticks_of_compiled (compiledFor_eq_ok h hlaunch hd), CompiledKernel.ticks, Device.ticks, hb,
    hcost]
  rfl

/-- The ticks that a launch takes are what the cost model says. -/
theorem cost_of_ticks {c : CompiledKernel} (hc : k.compiledFor d = .ok c) {n : Nat}
    (h : k.ticks d = .ok n) : d.cost c.program.source c.launch = .ok (some n) := by
  rw [ticks_of_compiled hc] at h
  have hticks := mapError_eq_ok.mp h
  unfold Device.ticks at hticks
  split at hticks
  · cases hticks
  · obtain ⟨cost, hcost, hticks⟩ := bind_eq_ok.mp hticks
    rw [liftM_eq_ok.mp hcost]
    cases cost with
    | none => cases hticks
    | some n' =>
      obtain rfl := pure_eq_ok.mp hticks
      rfl

/-- If there is no answer to how many ticks a launch takes, then there is no source, or the cost
model has no answer. -/
theorem ticks_eq_fault {cause : Fault} (h : k.ticks d = .error (.fault cause)) :
    k.source = .error cause ∨
      ∃ c, k.compiledFor d = .ok c ∧ d.cost c.program.source c.launch = .error cause := by
  rcases bind_eq_error.mp h with h | ⟨c, hc, h⟩
  · rcases bind_eq_error.mp h with h | ⟨source, -, h⟩
    · rcases hsource : k.source with e | source
      · rw [hsource] at h
        cases h
        exact .inl rfl
      · rw [hsource] at h
        cases h
    · rcases bind_eq_error.mp h with h | ⟨launch, -, h⟩
      · obtain ⟨_, -, he⟩ := mapError_eq_error.mp h
        cases he
      · split at h <;> cases h
  · obtain ⟨e, he, hcause⟩ := mapError_eq_error.mp h
    cases e with
    | refused e => cases hcause
    | fault cause' =>
      obtain rfl := Stop.fault.inj hcause
      exact .inr ⟨c, hc, Device.cost_of_fault he⟩

/-- A device that is alike takes the same ticks. -/
theorem ticks_eq (h : d.Alike d') (k : Kernel) : k.ticks d' = k.ticks d := by
  unfold ticks compiledFor CompiledKernel.ticks
  simp only [h.ticks_eq, h.rejects]

/-- Compiling a kernel and launching it takes its ticks. -/
theorem runs_launch (d : Device τ) (k : Kernel) :
    Runs d (fun e d' => k.ticks d = .error e ∨
        e = .fault .overflow ∧ d'.Exhausted (k.ticks d = .ok ·))
      (do (← k.compile).run k.buffers)
      fun event => k.ticks d = .ok (event.stop - event.start) := by
  refine Runs.bind ((answers_compile d k).mono (fun e d' _ he => he.imp_left fun he => ?_)
    fun _ => id) fun c hc => ?_
  · rw [ticks, he]
    rfl
  · rw [ticks_of_compiled hc]
    exact c.runs_run d k.buffers

end Kernel

end Launches

/-! ## Timings -/

/-- The time that a number of ticks takes. -/
def Device.span {τ : Type} [Duration τ] (d : Device τ) (ticks : Nat) : τ :=
  Duration.scale (Duration.ofTicks ticks) d.scale

/-- The time of an attempt, which is never if it is refused. -/
def neverIfRefused {τ : Type} [Duration τ] : Attempt KernelError τ → Checked τ
  | .ok time => .ok time
  | .error (.refused _) => .ok Duration.never
  | .error (.fault cause) => .error cause

namespace Kernel

variable {d : Device ExactTime}

/-- One launch of a compiled kernel, and what is done with the best time after it. -/
theorem answers_timeRuns_succ (c : CompiledKernel) (buffers : List Buffer) (best : ExactTime)
    (answer : ExactTime → Attempt KernelError ExactTime) {runs : Nat}
    (h : ∀ n, c.ticks d buffers = .ok n → Answers d (c.ticks d buffers = .ok ·)
      (timeRuns c buffers (min best (d.span n)) runs) (answer (min best (d.span n)))) :
    Answers d (c.ticks d buffers = .ok ·) (timeRuns c buffers best (runs + 1))
      (c.ticks d buffers >>= fun n => answer (min best (d.span n))) := by
  refine Runs.bind ((c.runs_run d buffers).mono (fun e d' _ he => he.imp_left fun he => ?_)
    fun _ => id) fun event hevent => ?_
  · rw [he]
    rfl
  refine Runs.bind .synchronize fun _ _ => Runs.bind .get fun d' hd' => ?_
  have hduration : event.duration d'.scale = d.span (event.stop - event.start) :=
    congrArg (Duration.scale _) hd'.scale
  have hmore := h _ hevent
  dsimp only
  rw [hduration, hevent]
  rwa [hevent] at hmore

/-- All launches of a compiled kernel take the same time. -/
theorem answers_timeRuns (c : CompiledKernel) (buffers : List Buffer) (best : ExactTime)
    (runs : Nat) :
    Answers d (c.ticks d buffers = .ok ·) (timeRuns c buffers best (runs + 1))
      (c.ticks d buffers >>= fun n => pure (min best (d.span n))) := by
  induction runs generalizing best with
  | zero => exact answers_timeRuns_succ c buffers best pure fun n _ => .pure rfl
  | succ runs ih =>
    refine answers_timeRuns_succ c buffers best pure fun n hn => ?_
    have hmin : min (min best (d.span n)) (d.span n) = min best (d.span n) :=
      min_eq_left (min_le_right _ _)
    have hmore := ih (min best (d.span n))
    rw [hn] at hmore ⊢
    change Answers _ _ _ (pure (min (min best (d.span n)) (d.span n))) at hmore
    rwa [hmin] at hmore

/-- However often a kernel is launched, its shortest time is that of one launch. -/
theorem answers_time (k : Kernel) (runs : Nat) :
    Answers d (k.ticks d = .ok ·) (k.time runs) (k.ticks d >>= fun n => pure (d.span n)) := by
  refine Runs.bind ((answers_compile d k).mono (fun e d' _ he => he.imp_left fun he => ?_)
    fun _ => id) fun c hc => ?_
  · rw [ticks, he]
    rfl
  obtain ⟨runs', hruns⟩ : ∃ runs', max runs 1 = runs' + 1 := ⟨max runs 1 - 1, by omega⟩
  have hnever : ∀ time : ExactTime, min Duration.never time = time := top_inf_eq
  have htime := answers_timeRuns c k.buffers (d := d) Duration.never runs'
  rw [ticks_of_compiled hc, hruns]
  rwa [funext fun n => congrArg pure (hnever (d.span n))] at htime

theorem answers_orNever {x : DeviceM ExactTime KernelError ExactTime} {costs : Nat → Prop}
    {a : Attempt KernelError ExactTime} (h : Answers d costs x a) :
    Answers d costs (orNever x) (liftM (neverIfRefused a)) := by
  intro d₁ hd
  obtain ⟨halike, hx⟩ := h d₁ hd
  rw [orNever, DeviceM.exec_tryCatch]
  rcases hres : DeviceM.exec x d₁ with ⟨(c | e) | time, d₂⟩
  · rw [hres] at halike hx
    refine ⟨halike, hx.imp_left fun ha => ?_⟩
    subst ha
    rfl
  · rw [hres] at halike hx
    refine ⟨halike, ?_⟩
    rcases hx with ha | ⟨ha, -⟩
    · subst ha
      rfl
    · cases ha
  · rw [hres] at halike hx
    refine ⟨halike, ?_⟩
    have ha : a = .ok time := hx
    subst ha
    rfl

/-- The time of a kernel, which is never if it cannot be compiled or launched. -/
def timeOn (d : Device ExactTime) (k : Kernel) : Checked ExactTime :=
  neverIfRefused (k.ticks d >>= fun n => pure (d.span n))

theorem timeOn_eq {d' : Device ExactTime} (h : d.Alike d') (k : Kernel) :
    k.timeOn d' = k.timeOn d := by
  unfold timeOn Device.span
  rw [ticks_eq h, h.scale]

theorem ticks_of_timeOn {k : Kernel} {cause : Fault} (h : k.timeOn d = .error cause) :
    k.ticks d = .error (.fault cause) := by
  rw [timeOn] at h
  rcases hticks : k.ticks d with (c | e) | n
  · rw [hticks] at h
    cases h
    rfl
  · rw [hticks] at h
    cases h
  · rw [hticks] at h
    cases h

/-- A kernel is given the same time whenever it is timed. -/
theorem answers_timeOrNever (k : Kernel) (runs : Nat) :
    Answers d (k.ticks d = .ok ·) (k.timeOrNever runs) (liftM (k.timeOn d)) :=
  answers_orNever (answers_time k runs)

end Kernel

end TensorLoom
