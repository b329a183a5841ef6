import TensorLoom.Proofs.Tuning.Timing

/-!
# What a timing takes of the clock

The clock of a device is moved on by launches alone. `DeviceM.Spends` bounds how far a sequence of
requests moves it, whether they are all made or one of them fails on the way: the bound of a
sequence is the sum of the bounds, and that of a loop is as many times the bound of one iteration.

A kernel that is timed by a number of launches takes no more than that many times the ticks of one
(`Kernel.spends_time`), and nothing if it cannot be launched.
-/

namespace TensorLoom

namespace DeviceM

variable {τ ε α β : Type} {d : Device τ} {most most' : Nat} {x : DeviceM τ ε α} {P : α → Prop}

/-- Requests that leave a device alike and move its clock on by no more than `most` ticks, and whose
value satisfies `post` if they have one. -/
def Spends (d : Device τ) (most : Nat) (x : DeviceM τ ε α) (post : α → Prop) : Prop :=
  ∀ d₁, d.Alike d₁ → d.Alike (exec x d₁).2 ∧ (exec x d₁).2.clock ≤ d₁.clock + most ∧
    ∀ a, (exec x d₁).1 = .ok a → post a

namespace Spends

theorem mono (h : Spends d most x P) (hle : most ≤ most') {P' : α → Prop} (hP : ∀ a, P a → P' a) :
    Spends d most' x P' := by
  intro d₁ hd
  obtain ⟨halike, hclock, hpost⟩ := h d₁ hd
  exact ⟨halike, by omega, fun a ha => hP a (hpost a ha)⟩

theorem pure (a : α) : Spends d 0 (Pure.pure a : DeviceM τ ε α) fun _ => True :=
  fun _ hd => ⟨hd, Nat.le_refl _, fun _ _ => trivial⟩

theorem lift (a : Attempt ε α) : Spends d 0 (liftM a : DeviceM τ ε α) (a = .ok ·) := by
  intro d₁ hd
  rw [exec_liftM]
  exact ⟨hd, Nat.le_refl _, fun _ => id⟩

theorem checked (a : Checked α) : Spends d 0 (liftM a : DeviceM τ ε α) (a = .ok ·) := by
  intro d₁ hd
  rw [exec_checked]
  exact ⟨hd, Nat.le_refl _, fun _ => liftM_eq_ok.mp⟩

/-- Requests that are known to have values of some kind. -/
theorem of_runs (h : Spends d most x P) {allowed : Stop ε → Device τ → Prop} {Q : α → Prop}
    (hruns : Runs d allowed x Q) : Spends d most x Q := by
  intro d₁ hd
  obtain ⟨halike, hclock, -⟩ := h d₁ hd
  obtain ⟨-, hends⟩ := hruns d₁ hd
  refine ⟨halike, hclock, fun a ha => ?_⟩
  rcases hres : exec x d₁ with ⟨e | a', d₂⟩
  · rw [hres] at ha
    cases ha
  · rw [hres] at ha hends
    exact Except.ok.inj ha ▸ hends

theorem bind {f : α → DeviceM τ ε β} {Q : β → Prop} (hx : Spends d most x P)
    (hf : ∀ a, P a → Spends d most' (f a) Q) : Spends d (most + most') (x >>= f) Q := by
  intro d₁ hd
  obtain ⟨halike, hclock, hpost⟩ := hx d₁ hd
  rw [exec_bind]
  rcases hres : exec x d₁ with ⟨e | a, d₂⟩
  · rw [hres] at halike hclock
    exact ⟨halike, by dsimp only at hclock ⊢; omega, fun _ h => nomatch h⟩
  · rw [hres] at halike hclock hpost
    obtain ⟨halike', hclock', hpost'⟩ := hf a (hpost a rfl) d₂ halike
    exact ⟨halike', by dsimp only at hclock ⊢; omega, hpost'⟩

/-- Requests after some that leave the clock as it is. -/
theorem free_bind {f : α → DeviceM τ ε β} {Q : β → Prop} (hx : Spends d 0 x P)
    (hf : ∀ a, P a → Spends d most (f a) Q) : Spends d most (x >>= f) Q :=
  (bind hx hf).mono (Nat.zero_add most).le fun _ => id

/-- Requests before some that leave the clock as it is. -/
theorem bind_free {f : α → DeviceM τ ε β} {Q : β → Prop} (hx : Spends d most x P)
    (hf : ∀ a, P a → Spends d 0 (f a) Q) : Spends d most (x >>= f) Q := bind hx hf

theorem synchronize : Spends d 0 (synchronize : DeviceM τ ε Unit) fun _ => True :=
  fun _ hd => ⟨hd.trans ⟨rfl, rfl, rfl, rfl⟩, Nat.le_refl _, fun _ _ => trivial⟩

theorem get : Spends d 0 (get : DeviceM τ ε (Device τ)) fun _ => True :=
  fun _ hd => ⟨hd, Nat.le_refl _, fun _ _ => trivial⟩

/-- A loop takes what its iterations take. -/
theorem foldlM {f : β → α → DeviceM τ ε β} {xs : List α}
    (h : ∀ b, ∀ a ∈ xs, Spends d most (f b a) fun _ => True) (b : β) :
    Spends d (xs.length * most) (xs.foldlM f b) fun _ => True := by
  induction xs generalizing b with
  | nil => exact (pure b).mono (Nat.zero_le _) fun _ => id
  | cons a xs ih =>
    rw [List.foldlM_cons, List.length_cons, Nat.succ_mul, Nat.add_comm]
    exact bind (h b a List.mem_cons_self) fun b' _ =>
      ih (fun b a ha => h b a (List.mem_cons_of_mem _ ha)) b'

end Spends

end DeviceM

open DeviceM (Spends)

section Timings

variable {d : Device ExactTime} {most : Nat}

/-- A launch moves the clock on by its ticks, if it takes place. -/
theorem CompiledKernel.spends_run {c : CompiledKernel} {buffers : List Buffer}
    (h : ∀ n, c.ticks d buffers = .ok n → n ≤ most) :
    Spends d most (c.run buffers) fun _ => True := by
  intro d₁ hd
  rw [run, DeviceM.exec_request]
  rcases hticks : d₁.ticks c.program c.launch buffers with e | n
  · rw [Device.launch_of_error hticks]
    exact ⟨hd, Nat.le_add_right _ _, fun _ _ => trivial⟩
  · by_cases hfits : d₁.clock + n < Word.bound
    · have hn : n ≤ most := h n (by rw [ticks, ← hd.ticks_eq, hticks]; rfl)
      rw [Device.launch_of_ticks hticks hfits]
      exact ⟨hd.trans ⟨rfl, rfl, rfl, rfl⟩, Nat.add_le_add_left hn _, fun _ _ => trivial⟩
    · rw [Device.launch_of_exhausted hticks hfits]
      exact ⟨hd, Nat.le_add_right _ _, fun _ _ => trivial⟩

namespace Kernel

variable {k : Kernel}

theorem spends_compile (d : Device ExactTime) (k : Kernel) :
    Spends d 0 k.compile (k.compiledFor d = .ok ·) := by
  have hclock : Spends d 0 k.compile fun _ => True := by
    refine Spends.free_bind (.checked _) fun source _ => Spends.free_bind (.lift _) fun launch _ =>
      Spends.free_bind (P := fun _ => True) (fun d₁ hd => ?_) fun program _ => .pure _
    rw [DeviceM.exec_request, Device.compile]
    by_cases hrejects : d₁.rejects source.text = true
    · rw [if_pos hrejects]
      exact ⟨hd, Nat.le_refl _, fun _ _ => trivial⟩
    · rw [if_neg hrejects]
      exact ⟨hd.trans ⟨rfl, rfl, rfl, rfl⟩, Nat.le_refl _, fun _ _ => trivial⟩
  have hanswers : DeviceM.Answers d (fun _ => False) k.compile (k.compiledFor d) :=
    answers_compile d k
  exact hclock.of_runs hanswers

theorem spends_timeRuns {c : CompiledKernel} {buffers : List Buffer}
    (h : ∀ n, c.ticks d buffers = .ok n → n ≤ most) (best : ExactTime) (runs : Nat) :
    Spends d (runs * most) (timeRuns c buffers best runs) fun _ => True := by
  induction runs generalizing best with
  | zero => exact (Spends.pure best).mono (Nat.zero_le _) fun _ => id
  | succ runs ih =>
    rw [Nat.succ_mul, Nat.add_comm]
    refine Spends.bind (c.spends_run h) fun event _ => ?_
    exact Spends.free_bind .synchronize fun _ _ => Spends.free_bind .get fun d' _ => ih _

/-- A kernel is timed with as many launches as asked for, of which there is at least one. -/
theorem spends_time (h : ∀ n, k.ticks d = .ok n → n ≤ most) (runs : Nat) :
    Spends d (max runs 1 * most) (k.time runs) fun _ => True :=
  Spends.free_bind (spends_compile d k) fun _ hc =>
    spends_timeRuns (fun n hn => h n ((ticks_of_compiled hc).trans hn)) _ _

theorem spends_orNever {x : DeviceM ExactTime KernelError ExactTime} {P : ExactTime → Prop}
    (h : Spends d most x P) : Spends d most (orNever x) fun _ => True := by
  intro d₁ hd
  obtain ⟨halike, hclock, -⟩ := h d₁ hd
  rw [orNever, DeviceM.exec_tryCatch]
  rcases hres : DeviceM.exec x d₁ with ⟨(c | e) | time, d₂⟩ <;>
  · rw [hres] at halike hclock
    exact ⟨halike, hclock, fun _ _ => trivial⟩

end Kernel

end Timings

end TensorLoom
