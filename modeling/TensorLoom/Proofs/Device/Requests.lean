import TensorLoom.Kernel.Compile
import TensorLoom.Proofs.Checked

/-!
# Requests to a device

A sequence of requests is run on a device by `DeviceM.exec`. A launch takes the ticks that the cost
model says (`Device.ticks`) and moves the clock on by them, unless the clock would overflow. What it
answers otherwise depends on the fixed parts of a device alone, which compiling and launching leave
as they are (`Device.Alike`).

`DeviceM.Runs` says how a sequence of requests ends on all such devices, with which values and with
which errors. Most requests answer as an attempt does that asks no device (`DeviceM.Answers`).
-/

namespace TensorLoom

namespace DeviceM

variable {τ ε α β : Type}

/-- Run a sequence of requests on a device. -/
def exec (x : DeviceM τ ε α) (d : Device τ) : Except (Stop ε) α × Device τ :=
  Id.run (StateT.run (ExceptT.run x) d)

section Exec

variable {d : Device τ}

theorem exec_bind (x : DeviceM τ ε α) (f : α → DeviceM τ ε β) :
    exec (x >>= f) d = match exec x d with
      | (.ok a, d') => exec (f a) d'
      | (.error e, d') => (.error e, d') := by
  simp only [exec]
  rw [ExceptT.run_bind, StateT.run_bind, Id.run_bind]
  rcases Id.run (StateT.run (ExceptT.run x) d) with ⟨e | a, d'⟩ <;> rfl

theorem exec_tryCatch (x : DeviceM τ ε α) (handle : Stop ε → DeviceM τ ε α) :
    exec (tryCatch x handle) d = match exec x d with
      | (.ok a, d') => (.ok a, d')
      | (.error e, d') => exec (handle e) d' := by
  change Id.run (StateT.run (ExceptT.run (ExceptT.tryCatch x handle)) d) = _
  rw [ExceptT.tryCatch, ExceptT.run_mk, StateT.run_bind, Id.run_bind]
  have hx : exec x d = Id.run (StateT.run x d) := rfl
  rw [hx]
  rcases Id.run (StateT.run x d) with ⟨e | a, d'⟩ <;> rfl

theorem exec_adapt {δ : Type} (x : DeviceM τ ε α) (f : Stop ε → Stop δ) :
    exec (ExceptT.adapt f x : DeviceM τ δ α) d = ((exec x d).1.mapError f, (exec x d).2) := rfl

theorem exec_liftM (x : Attempt ε α) : exec (liftM x : DeviceM τ ε α) d = (x, d) := by
  cases x <;> rfl

theorem exec_checked (x : Checked α) :
    exec (liftM x : DeviceM τ ε α) d = (liftM x, d) := by
  cases x <;> rfl

/-- An attempt that has a value is replaced by it. -/
theorem exec_attempt_bind {x : Attempt ε α} {a : α} (h : x = .ok a) (f : α → DeviceM τ ε β) :
    exec (liftM x >>= f) d = exec (f a) d := by
  rw [exec_bind, exec_liftM, h]

theorem exec_request (run : Device τ → Attempt DeviceError (α × Device τ)) :
    exec (request run) d = match run d with
      | .ok (a, d') => (.ok a, d')
      | .error e => (.error (e.mapRefusal .device), d) := by
  simp only [exec, request, ExceptT.run_mk, StateT.run]
  cases run d <;> rfl

end Exec

end DeviceM

/-! ## Launches -/

namespace Device

variable {τ : Type}

/-- The ticks that a launch takes. -/
def ticks (d : Device τ) (p : Program) (shape : LaunchShape) (buffers : List Buffer) :
    Attempt DeviceError Nat := do
  match buffers.find? fun b => !d.memory.contains b.id with
  | some b => refuse (.unknownBuffer b.id)
  | none =>
    match ← d.cost p.source shape with
    | none => refuse (.launchFailed p.name)
    | some ticks => pure ticks

/-- The device after a launch that stops at the given tick. -/
def launched (d : Device τ) (stop : Nat) : Device τ :=
  { d with clock := stop, pending := d.pending + 1, launches := d.launches + 1 }

/-- A launch moves the clock on by its ticks. -/
theorem launch_eq (d : Device τ) (p : Program) (shape : LaunchShape) (buffers : List Buffer) :
    d.launch p shape buffers = (do
      let ticks ← d.ticks p shape buffers
      let stop ← Word.add d.clock ticks
      pure (⟨d.clock, stop⟩, d.launched stop)) := by
  unfold launch ticks
  generalize buffers.find? (fun b => !d.memory.contains b.id) = found
  cases found with
  | some b => rfl
  | none =>
    rw [bind_assoc]
    refine bind_congr fun ticks => ?_
    cases ticks <;> rfl

section Launch

variable {d : Device τ} {p : Program} {shape : LaunchShape} {buffers : List Buffer}

theorem launch_of_ticks {n : Nat} (h : d.ticks p shape buffers = .ok n)
    (hfits : d.clock + n < Word.bound) :
    d.launch p shape buffers = .ok (⟨d.clock, d.clock + n⟩, d.launched (d.clock + n)) := by
  have hstop : Word.add d.clock n = .ok (d.clock + n) := if_pos hfits
  rw [launch_eq, h]
  exact bind_eq_ok.mpr ⟨n, rfl, bind_eq_ok.mpr ⟨_, liftM_eq_ok.mpr hstop, rfl⟩⟩

theorem launch_of_exhausted {n : Nat} (h : d.ticks p shape buffers = .ok n)
    (hfits : ¬ d.clock + n < Word.bound) :
    d.launch p shape buffers = .error (.fault .overflow) := by
  have hstop : Word.add d.clock n = .error .overflow := if_neg hfits
  rw [launch_eq, h]
  change (Word.add d.clock n).toAttempt >>= _ = _
  rw [hstop]
  rfl

theorem launch_of_error {e : Stop DeviceError} (h : d.ticks p shape buffers = .error e) :
    d.launch p shape buffers = .error e := by
  rw [launch_eq, h]
  rfl

/-- A launch faults before it starts only if the cost model does. -/
theorem cost_of_fault {cause : Fault} (h : d.ticks p shape buffers = .error (.fault cause)) :
    d.cost p.source shape = .error cause := by
  unfold ticks at h
  split at h
  · cases h
  rcases hcost : d.cost p.source shape with c | answer
  · rw [hcost] at h
    cases h
    rfl
  · rw [hcost] at h
    cases answer <;> cases h

end Launch

/-! ## Allocation -/

/-- The device after an allocation. -/
def allocated (d : Device τ) (len : Nat) : Device τ :=
  { d with
    nextBuffer := d.nextBuffer + 1
    memory := d.memory.insert d.nextBuffer ⟨len, none⟩ }

theorem alloc_eq {d : Device τ} {len : Nat} (h : len * 4 < Word.half) :
    d.alloc len = .ok (⟨d.nextBuffer, len⟩, d.allocated len) := by
  have hmemory : memoryFor len = .ok () := if_pos h
  rw [alloc, allocElsewhere, hmemory]
  rfl

theorem alloc_of_large {d : Device τ} {len : Nat} (h : ¬ len * 4 < Word.half) :
    d.alloc len = .error .unaddressable := by
  have hmemory : memoryFor len = .error .unaddressable := if_neg h
  rw [alloc, allocElsewhere, hmemory]
  rfl

/-! ## Devices that are alike -/

/-- A device that differs in what has been compiled and launched only. -/
structure Alike (d d' : Device τ) : Prop where
  cost : d'.cost = d.cost
  rejects : d'.rejects = d.rejects
  scale : d'.scale = d.scale
  memory : d'.memory = d.memory

theorem Alike.refl (d : Device τ) : d.Alike d := ⟨rfl, rfl, rfl, rfl⟩

theorem Alike.trans {d d₁ d' : Device τ} (h : d.Alike d₁) (h' : d₁.Alike d') : d.Alike d' :=
  ⟨h'.cost.trans h.cost, h'.rejects.trans h.rejects, h'.scale.trans h.scale,
    h'.memory.trans h.memory⟩

theorem Alike.ticks_eq {d d' : Device τ} (h : d.Alike d') (p : Program) (shape : LaunchShape)
    (buffers : List Buffer) : d'.ticks p shape buffers = d.ticks p shape buffers := by
  rw [ticks, ticks, h.cost, h.memory]

/-- The clock cannot be moved on by all of these numbers of ticks. -/
def Exhausted (d : Device τ) (ticks : Nat → Prop) : Prop := ∃ n, ticks n ∧ Word.bound ≤ d.clock + n

end Device

/-! ## How requests end -/

namespace DeviceM

variable {τ ε α β : Type} {d : Device τ} {allowed allowed' : Stop ε → Device τ → Prop}

/-- Requests end with a value that satisfies `post`, or with an error that is allowed for the device
as it is then. -/
def Ends (allowed : Stop ε → Device τ → Prop) (post : α → Prop) :
    Except (Stop ε) α × Device τ → Prop
  | (.ok a, _) => post a
  | (.error e, d) => allowed e d

/-- How requests end on every device like `d`, which they leave like it. -/
def Runs (d : Device τ) (allowed : Stop ε → Device τ → Prop) (x : DeviceM τ ε α)
    (post : α → Prop) : Prop :=
  ∀ d₁, d.Alike d₁ → d.Alike (exec x d₁).2 ∧ Ends allowed post (exec x d₁)

namespace Runs

variable {x : DeviceM τ ε α} {P : α → Prop} {Q : β → Prop}

theorem pure {a : α} (h : P a) : Runs d allowed (Pure.pure a) P := fun _ hd => ⟨hd, h⟩

theorem mono {P' : α → Prop} (h : Runs d allowed x P)
    (he : ∀ e d', d.Alike d' → allowed e d' → allowed' e d') (hP : ∀ a, P a → P' a) :
    Runs d allowed' x P' := by
  intro d₁ hd
  obtain ⟨halike, hx⟩ := h d₁ hd
  refine ⟨halike, ?_⟩
  rcases hres : exec x d₁ with ⟨e | a, d₂⟩
  · rw [hres] at hx
    rw [hres] at halike
    exact he e d₂ halike hx
  · rw [hres] at hx
    exact hP a hx

theorem bind {f : α → DeviceM τ ε β} (hx : Runs d allowed x P)
    (hf : ∀ a, P a → Runs d allowed (f a) Q) : Runs d allowed (x >>= f) Q := by
  intro d₁ hd
  obtain ⟨halike, hpost⟩ := hx d₁ hd
  rw [exec_bind]
  rcases hres : exec x d₁ with ⟨e | a, d₂⟩
  · rw [hres] at halike hpost
    exact ⟨halike, hpost⟩
  · rw [hres] at halike hpost
    exact hf a hpost d₂ halike

/-- An attempt that makes no request. -/
theorem lift {x : Attempt ε α} (h : Meets x (fun e => ∀ d', d.Alike d' → allowed e d') P) :
    Runs d allowed (liftM x : DeviceM τ ε α) P := by
  intro d₁ hd
  rw [exec_liftM]
  refine ⟨hd, ?_⟩
  cases x with
  | ok a => exact h
  | error e => exact h d₁ hd

theorem checked {x : Checked α}
    (h : Meets (liftM x : Attempt ε α) (fun e => ∀ d', d.Alike d' → allowed e d') P) :
    Runs d allowed (liftM x : DeviceM τ ε α) P := by
  intro d₁ hd
  rw [exec_checked]
  refine ⟨hd, ?_⟩
  cases x with
  | ok a => exact h
  | error c => exact h d₁ hd

theorem synchronize : Runs d allowed synchronize fun _ => True :=
  fun _ hd => ⟨hd.trans ⟨rfl, rfl, rfl, rfl⟩, trivial⟩

theorem get : Runs d allowed (get : DeviceM τ ε (Device τ)) d.Alike := fun _ hd => ⟨hd, hd⟩

/-- A loop that keeps an invariant of the items it has worked off. -/
theorem foldlM {f : β → α → DeviceM τ ε β} {I : List α → β → Prop} {xs : List α}
    (h : ∀ done b, ∀ a ∈ xs, I done b → Runs d allowed (f b a) (I (done ++ [a])))
    {done : List α} {b : β} (hb : I done b) :
    Runs d allowed (xs.foldlM f b) (I (done ++ xs)) := by
  induction xs generalizing done b with
  | nil => exact pure ((List.append_nil done).symm ▸ hb)
  | cons a xs ih =>
    rw [List.foldlM_cons]
    refine bind (h done b a List.mem_cons_self hb) fun b' hb' => ?_
    have hrest := ih (fun done b a ha => h done b a (List.mem_cons_of_mem _ ha)) hb'
    rwa [List.append_assoc] at hrest

end Runs

/-- Requests answer as an attempt does that asks no device, unless the clock cannot be moved on by
the ticks of a launch. -/
def Answers (d : Device τ) (ticks : Nat → Prop) (x : DeviceM τ ε α) (answer : Attempt ε α) :
    Prop :=
  Runs d (fun e d' => answer = .error e ∨ e = .fault .overflow ∧ d'.Exhausted ticks) x
    (answer = .ok ·)

namespace Answers

variable {x : DeviceM τ ε α} {a : Attempt ε α} {ticks : Nat → Prop}

theorem lift (a : Attempt ε α) : Answers d ticks (liftM a) a :=
  Runs.lift ((Meets.self a).mono (fun _ he _ _ => .inl he) fun _ => id)

theorem checked (a : Checked α) : Answers d ticks (liftM a : DeviceM τ ε α) (liftM a) :=
  Runs.checked ((Meets.self _).mono (fun _ he _ _ => .inl he) fun _ => id)

theorem bind {f : α → DeviceM τ ε β} {b : α → Attempt ε β} (hx : Answers d ticks x a)
    (hf : ∀ v, a = .ok v → Answers d ticks (f v) (b v)) :
    Answers d ticks (x >>= f) (a >>= b) := by
  refine Runs.bind (hx.mono (fun e d' _ he => he.imp_left fun he => ?_) fun _ => id) fun v hv => ?_
  · subst he
    rfl
  · subst hv
    exact hf v rfl

theorem widen {ticks' : Nat → Prop} (h : Answers d ticks x a) (ht : ∀ n, ticks n → ticks' n) :
    Answers d ticks' x a :=
  Runs.mono h (fun _ _ _ he => he.imp_right fun ⟨he, n, hn, hclock⟩ => ⟨he, n, ht n hn, hclock⟩)
    fun _ => id

/-- Requests without a launch answer as the attempt does. -/
theorem exec_eq (h : Answers d (fun _ => False) x a) : (exec x d).1 = a := by
  obtain ⟨-, hends⟩ := h d (.refl d)
  rcases hres : exec x d with ⟨e | v, d'⟩
  · rw [hres] at hends
    rcases hends with ha | ⟨-, n, hn, -⟩
    · exact ha.symm
    · exact hn.elim
  · rw [hres] at hends
    exact Eq.symm hends

/-- An answer that satisfies `post`, or is an error that is allowed. -/
theorem runs {post : α → Prop} (h : Answers d ticks x a)
    (ha : Meets a (fun e => ∀ d', d.Alike d' → allowed e d') post)
    (hticks : ∀ d', d.Alike d' → d'.Exhausted ticks → allowed (.fault .overflow) d') :
    Runs d allowed x post := by
  refine h.mono (fun e d' hd he => ?_) fun _ => ha.of_ok
  rcases he with he | ⟨rfl, he⟩
  · exact ha.of_error he d' hd
  · exact hticks d' hd he

end Answers

end DeviceM

end TensorLoom
