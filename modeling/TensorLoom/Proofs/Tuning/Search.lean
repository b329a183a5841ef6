import TensorLoom.Proofs.Tuning.Rounds

/-!
# What a search finds

A round keeps what is fastest of the current kernel, with the advantage of its weight, and of every
kernel that one more offered intervention leads to. So the times that a search writes down fall by
the weight at least, each of them is the time of the kernel that the interventions up to there lead
to, and the search goes on until the current kernel wins or no more rounds are allowed
(`Search.Result.Follows`). It has no outcome only if the winner cannot be launched in the end, or
for one of the reasons in `Search.Halts` (`Search.run_ends`). There is an outcome if every kernel on
the way can be launched and neither a number, a table nor the clock becomes too large
(`Search.run_returns`).
-/

namespace TensorLoom

open DeviceM (Runs Answers Spends)

/-- What holds of every entry of a list and of one more entry holds of every entry of the longer
list. -/
theorem forall_getElem?_concat {α : Type} {P : Nat → α → Prop} {xs : List α} {y : α}
    (h : ∀ n x, xs[n]? = some x → P n x) (hy : P xs.length y) :
    ∀ n x, (xs ++ [y])[n]? = some x → P n x := by
  intro n x hx
  rcases Nat.lt_or_ge n xs.length with hlt | hge
  · rw [List.getElem?_append_left hlt] at hx
    exact h n x hx
  · obtain ⟨hlt, rfl⟩ := List.getElem?_eq_some_iff.mp hx
    rw [List.length_append, List.length_singleton] at hlt
    obtain rfl : n = xs.length := by omega
    rwa [List.getElem_concat_length rfl]

namespace Ast

/-- Offered interventions lead to a kernel, one after the other. -/
structure Reaches (ast : Ast) (output : Buffer) (is : List Intervention) (k : Kernel) : Prop where
  tuned : ast.tuned output is = .ok k
  offered : ∃ start, Kernel.ofAst ast output = .ok start ∧ start.Offered k

/-- Every number and table that comes up when a tree is lowered and tuned is small enough. -/
structure Manageable (ast : Ast) (output : Buffer) : Prop where
  leaves : ast.Counted
  memory : output.len * 4 < Word.half
  tables : ∀ start k, Kernel.ofAst ast output = .ok start → start.Offered k →
    Kernel.TableFits k.unrolledSizes

end Ast

variable {ast : Ast} {output : Buffer} {d d' : Device ExactTime}
  {settings : SearchSettings ExactTime} {k k' : Kernel} {is js : List Intervention}

namespace Search

/-! ## Why a search halts -/

/-- Why a search faults at some reading of the clock: a number or a table is too large, the cost
model faults on a kernel that offered interventions lead to, or the clock cannot be moved on by the
ticks of such a kernel. -/
inductive Halts (ast : Ast) (output : Buffer) (d : Device ExactTime) (clock : Nat) : Fault → Prop
  | size {cause : Fault} (h : cause.OfSize ¬ ast.Manageable output) : Halts ast output d clock cause
  | cost {is : List Intervention} {k : Kernel} {c : CompiledKernel} {cause : Fault}
    (hk : ast.Reaches output is k) (hc : k.compiledFor d = .ok c)
    (h : d.cost c.program.source c.launch = .error cause) : Halts ast output d clock cause
  | clock {is : List Intervention} {k : Kernel} {n : Nat} (hk : ast.Reaches output is k)
    (hn : k.ticks d = .ok n) (h : Word.bound ≤ clock + n) : Halts ast output d clock .overflow

/-- The most kernels that a round can time: the current one and its candidates, which are no more
than three splits of each axis and an exchange of it with each. -/
def roundSize (start : Kernel) : Nat :=
  (start.rank - start.unrolled) * (start.rank - start.unrolled + 3) + 1

/-- The errors of a search that is not refused. -/
def Halting (ast : Ast) (output : Buffer) (d : Device ExactTime) :
    Stop KernelError → Device ExactTime → Prop
  | .fault cause, d' => Halts ast output d d'.clock cause
  | .refused _, _ => False

end Search

namespace Ast.Reaches

open Search (Halts Halting)

theorem start (h : Kernel.ofAst ast output = .ok k) : ast.Reaches output [] k where
  tuned := by
    rw [Ast.tuned, h]
    rfl
  offered := ⟨k, h, .start⟩

theorem step (h : ast.Reaches output is k) {i : Intervention}
    (hjs : k.interventions = .ok js) (hi : i ∈ js) (hk : k.after (Kernel.intervene i) = .ok k') :
    ast.Reaches output (is ++ [i]) k' where
  tuned := by
    rw [tuned_append, h.tuned]
    exact hk
  offered := let ⟨start, hstart, hoffered⟩ := h.offered; ⟨start, hstart, .step hoffered hjs hi hk⟩

theorem shaped (h : ast.Reaches output is k) : k.Shaped := by
  obtain ⟨start, hstart, hoffered⟩ := h.offered
  exact (hoffered.kept (Kernel.ordered_ofAst hstart).1).1

theorem numbered (h : ast.Reaches output is k) (hw : ast.WellShared) : k.Numbered := by
  obtain ⟨start, hstart, hoffered⟩ := h.offered
  exact (hoffered.kept (Kernel.ordered_ofAst hstart).1).2.1 (Kernel.numbered_ofAst hw hstart)

theorem fits (h : ast.Reaches output is k) (hm : ast.Manageable output) :
    k.Counted ∧ Kernel.TableFits k.unrolledSizes := by
  obtain ⟨start, hstart, hoffered⟩ := h.offered
  refine ⟨?_, hm.tables start k hstart hoffered⟩
  have hlen := hm.memory
  exact (hoffered.kept (Kernel.ordered_ofAst hstart).1).2.2
    ((Kernel.ofAst_meets (Kernel.resultSize_of_ofAst hstart)).of_ok hstart hm.leaves (by omega))

theorem tried (h : ast.Reaches output is k) (hk : k.Tried k') :
    ∃ is', ast.Reaches output is' k' := by
  cases hk with
  | current => exact ⟨is, h⟩
  | candidate hjs hi hk' => exact ⟨_, h.step hjs hi hk'⟩

/-- As many kernels as a round times, at most, among them the current one. -/
theorem length_interventions_lt (h : ast.Reaches output is k) {start : Kernel}
    (hstart : Kernel.ofAst ast output = .ok start) (hjs : k.interventions = .ok js) :
    js.length < Search.roundSize start := by
  obtain ⟨start', hstart', hoffered⟩ := h.offered
  obtain rfl := Except.ok.inj (hstart.symm.trans hstart')
  have hle := h.shaped.length_interventions_le hjs
  rw [(hoffered.space_eq (Kernel.ordered_ofAst hstart).1).2] at hle
  exact Nat.lt_succ_of_le hle

/-- A search halts where one of its rounds stalls. -/
theorem halts (h : ast.Reaches output is k) {clock : Nat} {cause : Fault}
    (hstalls : k.Stalls d clock cause) : Halts ast output d clock cause := by
  cases hstalls with
  | size hk hsize =>
    obtain ⟨_, hk⟩ := h.tried hk
    exact .size (hsize.mono (mt hk.fits))
  | cost hk hc hcost =>
    obtain ⟨_, hk⟩ := h.tried hk
    exact .cost hk hc hcost
  | clock hk hn hclock =>
    obtain ⟨_, hk⟩ := h.tried hk
    exact .clock hk hn hclock

theorem halting (h : ast.Reaches output is k) (e : Stop KernelError) (d' : Device ExactTime)
    (_ : d.Alike d') (he : k.Stalling d e d') : Halting ast output d e d' := by
  cases e with
  | fault cause => exact h.halts he
  | refused e => exact he

/-- What a round chooses is offered, and leads to the kernel that the next round starts from. -/
theorem chosen (h : ast.Reaches output is k) {i : Intervention} (hjs : k.interventions = .ok js)
    (hi : i ∈ js) (hk' : ast.tuned output (is ++ [i]) = .ok k') :
    ast.Reaches output (is ++ [i]) k' := by
  rw [tuned_append, h.tuned] at hk'
  exact h.step hjs hi hk'

end Ast.Reaches

namespace Search

theorem runs_timeOrNever (h : ast.Reaches output is k) (hw : ast.WellShared) (runs : Nat) :
    Runs d (Halting ast output d) (k.timeOrNever runs) fun time => k.timeOn d = .ok time :=
  (Kernel.Tried.current.runs_timeOrNever h.shaped (h.numbered hw) runs).mono h.halting fun _ => id

/-! ## Searches -/

/-- What has been written down so far agrees with the times of the kernels, which fall by a weight
at least. -/
structure Result.Sound (ast : Ast) (output : Buffer) (d : Device ExactTime) (weight : ExactTime)
    (r : Result ExactTime) : Prop where
  length : r.history.length = r.interventions.length + 1
  first : r.history.head? = some r.baseline
  last : r.history.getLast? = some r.best
  falls : r.history.IsChain fun before after => after < Duration.scale before weight
  /-- Each time is that of the kernel which the interventions up to there lead to. -/
  timed : ∀ n time, r.history[n]? = some time →
    ast.tunedTime output d (r.interventions.take n) = .ok time
  /-- Each intervention is offered on the kernel that those before it lead to. -/
  offered : ∀ n i, r.interventions[n]? = some i → ∃ k js,
    ast.tuned output (r.interventions.take n) = .ok k ∧ k.interventions = .ok js ∧ i ∈ js

/-- The outcome of a search that has ended because the current kernel has won, or after the last
round allowed. -/
structure Result.Follows (ast : Ast) (output : Buffer) (d : Device ExactTime)
    (settings : SearchSettings ExactTime) (r : Result ExactTime) : Prop
    extends r.Sound ast output d settings.stopWeight where
  rounds_le : r.rounds ≤ settings.maxRounds
  ended : (r.rounds = r.interventions.length + 1 ∧ ∀ k js,
      ast.tuned output r.interventions = .ok k → k.interventions = .ok js → ∀ j ∈ js, ∀ time,
        ast.tunedTime output d (r.interventions ++ [j]) = .ok time →
          Duration.scale r.best settings.stopWeight ≤ time) ∨
    (r.rounds = r.interventions.length ∧ r.rounds = settings.maxRounds)

namespace Result.Sound

variable {weight : ExactTime} {r : Result ExactTime}

theorem time_best (h : r.Sound ast output d weight) :
    ast.tunedTime output d r.interventions = .ok r.best := by
  have hlast := h.last
  rw [List.getLast?_eq_getElem?, h.length, Nat.add_sub_cancel] at hlast
  have htime := h.timed _ _ hlast
  rwa [List.take_length] at htime

/-- The times go down if the weight gives the current kernel no disadvantage. -/
theorem decreasing (h : r.Sound ast output d weight) (hweight : weight ≤ Duration.unit) :
    r.history.IsChain fun before after => after < before :=
  h.falls.imp fun before _ hfalls => hfalls.trans_le (Duration.scale_le before hweight)

theorem start {time : ExactTime} (h : ast.tunedTime output d [] = .ok time) (rounds : Nat) :
    Result.Sound ast output d weight ⟨[], time, time, rounds, [time]⟩ where
  length := rfl
  first := rfl
  last := rfl
  falls := .singleton time
  timed n t ht := by
    cases n with
    | zero => exact Option.some.inj ht ▸ h
    | succ n => cases ht
  offered n i hi := nomatch hi

theorem step (h : r.Sound ast output d weight) {i : Intervention} {time : ExactTime}
    (hk : ast.tuned output r.interventions = .ok k) (hjs : k.interventions = .ok js) (hi : i ∈ js)
    (ht : ast.tunedTime output d (r.interventions ++ [i]) = .ok time)
    (hless : time < Duration.scale r.best weight) (rounds : Nat) :
    Result.Sound ast output d weight
      ⟨r.interventions ++ [i], r.baseline, time, rounds, r.history ++ [time]⟩ where
  length := by
    rw [List.length_append, List.length_append, h.length]
    rfl
  first := by
    rw [List.head?_append, h.first]
    rfl
  last := List.getLast?_concat
  falls := by
    refine List.isChain_append.mpr ⟨h.falls, .singleton time, fun before hb after ha => ?_⟩
    obtain rfl := Option.some.inj (h.last.symm.trans hb)
    obtain rfl := Option.some.inj ha
    exact hless
  timed := by
    have hlength := h.length
    refine forall_getElem?_concat (fun n t hn => ?_) ?_
    · have hlt := (List.getElem?_eq_some_iff.mp hn).1
      rw [List.take_append_of_le_length (by omega)]
      exact h.timed n t hn
    · rwa [List.take_of_length_le (by rw [List.length_append, List.length_singleton]; omega)]
  offered := by
    refine forall_getElem?_concat (fun n j hj => ?_) ?_
    · have hlt := (List.getElem?_eq_some_iff.mp hj).1
      rw [List.take_append_of_le_length (Nat.le_of_lt hlt)]
      exact h.offered n j hj
    · rw [List.take_left]
      exact ⟨k, js, hk, hjs, hi⟩

theorem getElem?_history (h : r.Sound ast output d weight) {n : Nat}
    (hn : n ≤ r.interventions.length) {time : ExactTime}
    (ht : ast.tunedTime output d (r.interventions.take n) = .ok time) :
    r.history[n]? = some time := by
  have hlength := h.length
  have hn : n < r.history.length := by omega
  have htimed := h.timed n _ (List.getElem?_eq_getElem hn)
  rw [List.getElem?_eq_getElem hn, Except.ok.inj (htimed.symm.trans ht)]

/-- Each intervention of a search makes the time shorter by the weight at least. -/
theorem lt_of_step (h : r.Sound ast output d weight) {n : Nat} (hn : n < r.interventions.length)
    {before after : ExactTime} (hb : ast.tunedTime output d (r.interventions.take n) = .ok before)
    (ha : ast.tunedTime output d (r.interventions.take (n + 1)) = .ok after) :
    after < Duration.scale before weight := by
  obtain ⟨_, rfl⟩ := List.getElem?_eq_some_iff.mp (h.getElem?_history (Nat.le_of_lt hn) hb)
  obtain ⟨hlt, rfl⟩ := List.getElem?_eq_some_iff.mp (h.getElem?_history hn ha)
  exact List.isChain_iff_getElem.mp h.falls n hlt

/-- Offered interventions lead to the winner. -/
theorem reaches (h : r.Sound ast output d weight) (hk : ast.tuned output r.interventions = .ok k) :
    ast.Reaches output r.interventions k := by
  have hoffered := h.offered
  revert hoffered hk
  generalize r.interventions = is
  intro hk hoffered
  induction is using List.reverseRecOn generalizing k with
  | nil =>
    obtain ⟨start, hstart, hk⟩ := bind_eq_ok.mp hk
    obtain rfl : start = k := Except.ok.inj hk
    exact .start hstart
  | append_singleton is i ih =>
    rw [Ast.tuned_append] at hk
    obtain ⟨k₁, hk₁, hk⟩ := bind_eq_ok.mp hk
    have hbefore : ast.Reaches output is k₁ := ih hk₁ fun n j hj => by
      have hlt := (List.getElem?_eq_some_iff.mp hj).1
      have hoffer := hoffered n j (by rwa [List.getElem?_append_left hlt])
      rwa [List.take_append_of_le_length (Nat.le_of_lt hlt)] at hoffer
    obtain ⟨k₂, js, hk₂, hjs, hi⟩ := hoffered is.length i List.getElem?_concat_length
    rw [List.take_left] at hk₂
    obtain rfl := Except.ok.inj (hk₁.symm.trans hk₂)
    exact hbefore.step hjs hi hk

end Result.Sound

theorem runs_rounds (hw : ast.WellShared) (left : Nat) {r : Result ExactTime}
    (hr : r.Sound ast output d settings.stopWeight) (hk : ast.Reaches output r.interventions k)
    (hrounds : r.rounds = r.interventions.length) (hleft : r.rounds + left = settings.maxRounds) :
    Runs d (Halting ast output d) (rounds ast output settings r left) fun r' =>
      r'.Follows ast output d settings ∧ ∃ k', ast.Reaches output r'.interventions k' := by
  induction left generalizing r k with
  | zero =>
    exact .pure ⟨⟨hr, by omega, .inr ⟨hrounds, by omega⟩⟩, k, hk⟩
  | succ left ih =>
    refine Runs.bind ((runs_round _ hk.tuned (hk.numbered hw)).mono hk.halting fun _ => id) ?_
    rintro ⟨time, choice⟩ ⟨js, base, weight, hjs, hbase, hknown, hleads⟩
    obtain rfl : r.best = base :=
      Except.ok.inj (hr.time_best.symm.trans ((Ast.tunedTime_of_tuned hk.tuned).trans hbase))
    cases choice with
    | none =>
      obtain ⟨htime, hweight⟩ := hleads.kept rfl
      dsimp only at htime hweight
      subst htime hweight
      have hunbeaten : ∀ k₁ js₁, ast.tuned output r.interventions = .ok k₁ →
          k₁.interventions = .ok js₁ → ∀ j ∈ js₁, ∀ time,
            ast.tunedTime output d (r.interventions ++ [j]) = .ok time →
              Duration.scale r.best settings.stopWeight ≤ time := by
        intro k₁ js₁ hk₁ hjs₁
        obtain rfl := Except.ok.inj (hk.tuned.symm.trans hk₁)
        obtain rfl := Except.ok.inj (hjs.symm.trans hjs₁)
        exact fun j hj time ht => timeAfter_eq ht ▸ hleads.unbeaten j hj
      exact .pure ⟨⟨⟨hr.length, hr.first, hr.last, hr.falls, hr.timed, hr.offered⟩,
        show r.rounds + 1 ≤ _ by omega, .inl ⟨congrArg (· + 1) hrounds, hunbeaten⟩⟩, k, hk⟩
    | some i =>
      obtain ⟨htime, -, hless, hleast⟩ := hleads.won i rfl
      dsimp only at htime hless
      have ht : ast.tunedTime output d (r.interventions ++ [i]) = .ok time :=
        htime ▸ hknown i hleast.mem
      obtain ⟨k', -, hk', -⟩ := exists_ticks_of_lt ht (hless.trans_le le_top)
      refine ih (hr.step hk.tuned hjs hleast.mem ht hless _) (hk.chosen hjs hleast.mem hk') ?_
        (show r.rounds + 1 + left = _ by omega)
      rw [List.length_append, List.length_singleton, hrounds]

/-! ## Whole searches -/

/-- The winner of a search cannot be compiled or launched in its final runs, on the device as it is
then. -/
def WinnerFails (ast : Ast) (output : Buffer) (settings : SearchSettings ExactTime)
    (d d' : Device ExactTime) (cause : KernelError) : Prop :=
  0 < settings.finalRuns ∧ ∃ (r : Result ExactTime) (k : Kernel), r.Follows ast output d settings ∧
    ast.tuned output r.interventions = .ok k ∧
      (DeviceM.exec (do (← k.compile).run k.buffers) d').1 = .error (.refused cause)

theorem exec_launch_of_refused {cause : KernelError} (h : k.ticks d = .error (.refused cause)) :
    (DeviceM.exec (do (← k.compile).run k.buffers) d).1 = .error (.refused cause) := by
  obtain ⟨-, hends⟩ := k.runs_launch d d (.refl d)
  rcases hexec : DeviceM.exec (do (← k.compile).run k.buffers) d with ⟨e | event, d'⟩
  · rw [hexec] at hends
    rcases hends with he | ⟨-, n, hn, -⟩
    · cases he.symm.trans h
      rfl
    · cases h.symm.trans hn
  · rw [hexec] at hends
    cases h.symm.trans hends

theorem exec_launch_ne_refused (hd : d.Alike d') {n : Nat} (h : k.ticks d = .ok n)
    (cause : KernelError) :
    (DeviceM.exec (do (← k.compile).run k.buffers) d').1 ≠ .error (.refused cause) := by
  obtain ⟨-, hends⟩ := k.runs_launch d d' hd
  intro hrefused
  rcases hexec : DeviceM.exec (do (← k.compile).run k.buffers) d' with ⟨e | event, d₁⟩
  · rw [hexec] at hends hrefused
    obtain rfl : e = .refused cause := Except.error.inj hrefused
    rcases hends with he | ⟨he, -⟩
    · cases h.symm.trans he
    · cases he
  · rw [hexec] at hrefused
    cases hrefused

theorem runs_finalRuns (hk : ast.Reaches output is k) (hw : ast.WellShared) (runs : Nat) :
    Runs d (fun e d' => Halting ast output d e d' ∨
        0 < runs ∧ ∃ cause, e = .refused cause ∧ k.ticks d' = .error (.refused cause))
      (finalRuns k runs) fun _ => True := by
  induction runs with
  | zero => exact .pure trivial
  | succ runs ih =>
    rw [finalRuns, ← bind_assoc]
    refine Runs.bind ((k.runs_launch d).mono (fun e d' hd he => ?_) fun _ _ => trivial)
      fun _ _ => Runs.bind .synchronize fun _ _ => ih.mono
        (fun _ _ _ he => he.imp_right fun he => ⟨Nat.succ_pos runs, he.2⟩) fun _ => id
    rcases he with he | ⟨rfl, n, hn, hclock⟩
    · cases e with
      | fault cause =>
        exact .inl (hk.halts (.of_ticks hk.shaped (hk.numbered hw) .current he _))
      | refused cause =>
        exact .inr ⟨Nat.succ_pos runs, cause, rfl, (Kernel.ticks_eq hd k).trans he⟩
    · exact .inl (.clock hk hn hclock)

/-- A search after its output has been allocated. -/
def searchOn (ast : Ast) (output : Buffer) (settings : SearchSettings ExactTime) :
    DeviceM ExactTime KernelError (Kernel × Result ExactTime) := do
  let first ← Kernel.ofAst ast output
  let baseline ← first.timeOrNever settings.runs
  let result ← rounds ast output settings ⟨[], baseline, baseline, 0, [baseline]⟩
    settings.maxRounds
  let winner ← ast.tuned output result.interventions
  finalRuns winner settings.finalRuns
  return (winner, result)

theorem runs_searchOn (hw : ast.WellShared) (hlen : ast.resultSize = .ok output.len) :
    Runs d (fun e d' => Halting ast output d e d' ∨
        ∃ cause, e = .refused cause ∧ WinnerFails ast output settings d d' cause)
      (searchOn ast output settings) fun (winner, r) =>
        r.Follows ast output d settings ∧ ast.Reaches output r.interventions winner := by
  have hfirst : Meets (Kernel.ofAst ast output)
      (fun e => ∀ d', d.Alike d' → Halting ast output d e d' ∨
        ∃ cause, e = .refused cause ∧ WinnerFails ast output settings d d' cause)
      (ast.Reaches output []) := by
    refine ((Kernel.ofAst_meets hlen).and_of_ok fun k hk => Ast.Reaches.start hk).mono
      (fun e he d' _ => ?_) fun _ => And.right
    have hsize := he.mono (mt fun hm : ast.Manageable output =>
      ⟨hm.leaves, show output.len < Word.half by have := hm.memory; omega⟩)
    cases e with
    | fault cause => exact .inl (.size hsize)
    | refused e => exact hsize.elim
  refine Runs.bind (.lift hfirst) fun first hk => ?_
  refine Runs.bind ((runs_timeOrNever hk hw _).mono (fun _ _ _ => .inl) fun _ => id)
    fun baseline hbaseline => ?_
  have hstart : Result.Sound ast output d settings.stopWeight
      ⟨[], baseline, baseline, 0, [baseline]⟩ :=
    .start ((Ast.tunedTime_of_tuned hk.tuned).trans hbaseline) 0
  refine Runs.bind ((runs_rounds hw _ hstart hk rfl (Nat.zero_add _)).mono (fun _ _ _ => .inl)
    fun _ => id) ?_
  rintro r ⟨hr, winner, hwinner⟩
  refine Runs.bind (.lift (.of_eq_ok hwinner.tuned rfl)) ?_
  rintro _ rfl
  refine Runs.bind ((runs_finalRuns hwinner hw _).mono (fun e d' _ he => he.imp_right ?_)
    fun _ => id) fun _ _ => .pure ⟨hr, hwinner⟩
  rintro ⟨hfinal, cause, rfl, hticks⟩
  exact ⟨cause, rfl, hfinal, r, winner, hr, hwinner.tuned, exec_launch_of_refused hticks⟩

/-- A search allocates the output, unless that is too large, and keeps the outcome only. -/
theorem exec_run {len : Nat} (hlen : ast.resultSize = .ok len) :
    DeviceM.exec (run ast .trusting settings) d = match d.alloc len with
      | .error cause => (.error (.fault cause), d)
      | .ok (output, d₀) => match DeviceM.exec (searchOn ast output settings) d₀ with
        | (.ok (_, r), d') => (.ok r, d')
        | (.error e, d') => (.error (e.mapRefusal .kernel), d') := by
  rw [run, DeviceM.exec_bind, ofKernel, DeviceM.exec_adapt, DeviceM.exec_attempt_bind hlen,
    DeviceM.exec_bind, DeviceM.exec_request]
  rcases d.alloc len with cause | ⟨output, d₀⟩
  · rfl
  · dsimp only [Checked.toAttempt, Except.mapError]
    rw [searchOn]
    generalize DeviceM.exec _ d₀ = res
    rcases res with ⟨e | ⟨winner, r⟩, d'⟩ <;> rfl

/-! ## Searches that have an outcome -/

variable {start : Kernel} {most : Nat}

theorem spends_rounds (hw : ast.WellShared) (hstart : Kernel.ofAst ast output = .ok start)
    (hmost : ∀ is k, ast.Reaches output is k → ∀ n, k.ticks d = .ok n → n ≤ most)
    (settings : SearchSettings ExactTime) (left : Nat) {r : Result ExactTime}
    (hk : ast.Reaches output r.interventions k) :
    Spends d (left * (roundSize start * (max settings.runs 1 * most)))
      (rounds ast output settings r left) fun _ => True := by
  induction left generalizing r k with
  | zero => exact (Spends.pure r).mono (Nat.zero_le _) fun _ => id
  | succ left ih =>
    obtain ⟨js, hjs, -⟩ := hk.shaped.exists_interventions
    have hspends := spends_round settings hk.tuned hjs fun k' hk' n hn =>
      let ⟨_, hreaches⟩ := hk.tried hk'
      hmost _ _ hreaches n hn
    have hround := (hspends.mono
      (Nat.mul_le_mul_right _ (hk.length_interventions_lt hstart hjs)) fun _ => id).of_runs
        (runs_round settings hk.tuned (hk.numbered hw))
    rw [Nat.succ_mul, Nat.add_comm]
    refine Spends.bind hround ?_
    rintro ⟨time, choice⟩ ⟨js', base, weight, hjs', -, hknown, hleads⟩
    cases choice with
    | none => exact (Spends.pure _).mono (Nat.zero_le _) fun _ => id
    | some i =>
      obtain ⟨htime, -, hless, hleast⟩ := hleads.won i rfl
      obtain ⟨k', -, hk', -⟩ :=
        exists_ticks_of_lt (hknown i hleast.mem) (htime ▸ hless.trans_le le_top)
      exact ih (hk.chosen hjs' hleast.mem hk')

theorem spends_finalRuns (hmost : ∀ n, k.ticks d = .ok n → n ≤ most) (runs : Nat) :
    Spends d (runs * most) (finalRuns k runs) fun _ => True := by
  induction runs with
  | zero => exact (Spends.pure ()).mono (Nat.zero_le _) fun _ => id
  | succ runs ih =>
    rw [finalRuns, ← bind_assoc, Nat.succ_mul, Nat.add_comm]
    refine Spends.bind (Spends.free_bind (Kernel.spends_compile d k) fun c hc =>
      c.spends_run fun n hn => hmost n ((Kernel.ticks_of_compiled hc).trans hn)) fun _ _ => ?_
    exact Spends.free_bind .synchronize fun _ _ => ih

/-- The ticks that a search takes, at most, if every launch takes no more than `most`. -/
def budget (start : Kernel) (settings : SearchSettings ExactTime) (most : Nat) : Nat :=
  max settings.runs 1 * most +
    (settings.maxRounds * (roundSize start * (max settings.runs 1 * most)) +
      settings.finalRuns * most)

theorem spends_searchOn (hw : ast.WellShared) (hstart : Kernel.ofAst ast output = .ok start)
    (hmost : ∀ is k, ast.Reaches output is k → ∀ n, k.ticks d = .ok n → n ≤ most)
    (settings : SearchSettings ExactTime) :
    Spends d (budget start settings most) (searchOn ast output settings) fun _ => True := by
  refine Spends.free_bind (.lift _) fun first hfirst => ?_
  obtain rfl := Except.ok.inj (hstart.symm.trans hfirst)
  have hk := Ast.Reaches.start hstart
  have htime := Kernel.spends_orNever (Kernel.spends_time (hmost _ _ hk) settings.runs)
  have hbaseline := htime.of_runs (runs_timeOrNever hk hw settings.runs)
  refine Spends.bind hbaseline fun baseline hbaseline => ?_
  have hsound : Result.Sound ast output d settings.stopWeight
      ⟨[], baseline, baseline, 0, [baseline]⟩ :=
    .start ((Ast.tunedTime_of_tuned hk.tuned).trans hbaseline) 0
  have hrounds := (spends_rounds hw hstart hmost settings settings.maxRounds hk).of_runs
    (runs_rounds hw settings.maxRounds hsound hk rfl (Nat.zero_add _))
  refine Spends.bind hrounds ?_
  rintro r ⟨-, k, hk⟩
  refine Spends.free_bind (.lift _) fun winner hwinner => ?_
  obtain rfl := Except.ok.inj (hk.tuned.symm.trans hwinner)
  exact Spends.bind_free (spends_finalRuns (hmost _ _ hk) _) fun _ _ => .pure _

/-- A search has an outcome if all numbers and tables are small enough, every kernel that offered
interventions lead to can be launched, and the clock can be moved on by what the search takes. -/
theorem run_returns {len : Nat} (hw : ast.WellShared) (hlen : ast.resultSize = .ok len)
    (settings : SearchSettings ExactTime) (d : Device ExactTime)
    (hstart : Kernel.ofAst ast ⟨d.nextBuffer, len⟩ = .ok start)
    (hsize : ast.Manageable ⟨d.nextBuffer, len⟩)
    (hticks : ∀ is k, ast.Reaches ⟨d.nextBuffer, len⟩ is k →
      ∃ n ≤ most, k.ticks (d.allocated len) = .ok n)
    (hclock : d.clock + budget start settings most + most < Word.bound) :
    ∃ r d', DeviceM.exec (run ast .trusting settings) d = (.ok r, d') := by
  have hmost : ∀ is k, ast.Reaches ⟨d.nextBuffer, len⟩ is k →
      ∀ n, k.ticks (d.allocated len) = .ok n → n ≤ most := by
    intro is k hk n hn
    obtain ⟨n', hle, hn'⟩ := hticks is k hk
    exact Except.ok.inj (hn.symm.trans hn') ▸ hle
  rw [exec_run hlen, Device.alloc_eq hsize.memory]
  dsimp only
  obtain ⟨-, hspent, -⟩ := spends_searchOn hw hstart hmost settings _ (.refl _)
  have hsearch : Runs (d.allocated len) _ (searchOn ast ⟨d.nextBuffer, len⟩ settings) _ :=
    runs_searchOn hw hlen
  obtain ⟨halike, hends⟩ := hsearch _ (.refl _)
  rcases hres : DeviceM.exec (searchOn ast ⟨d.nextBuffer, len⟩ settings) (d.allocated len) with
    ⟨(cause | e) | ⟨winner, r⟩, d'⟩
  · rw [hres] at hspent hends
    rcases hends with hhalts | ⟨_, hcause, -⟩
    · cases hhalts with
      | size h => exact absurd hsize h.2
      | cost hk hc h =>
        obtain ⟨n, -, hn⟩ := hticks _ _ hk
        cases h.symm.trans (Kernel.cost_of_ticks hc hn)
      | clock hk hn h =>
        have := hmost _ _ hk _ hn
        have hspent : d'.clock ≤ d.clock + budget start settings most := hspent
        omega
    · cases hcause
  · rw [hres] at halike hends
    rcases hends with hhalts | ⟨cause, -, -, r, k, hr, hk, hlaunch⟩
    · exact hhalts.elim
    · obtain ⟨n, -, hn⟩ := hticks _ _ (hr.reaches hk)
      exact absurd hlaunch (exec_launch_ne_refused halike hn cause)
  · exact ⟨r, d', rfl⟩

/-- A search of a tree whose output size is known has an outcome, unless its winner fails in the
final runs or the search halts. The best time is what timing the winner on the same device gives. -/
theorem run_ends {len : Nat} (hw : ast.WellShared) (hlen : ast.resultSize = .ok len)
    (settings : SearchSettings ExactTime) (d : Device ExactTime) :
    match DeviceM.exec (run ast .trusting settings) d with
    | (.ok r, d') => (d.allocated len).Alike d' ∧
        r.Follows ast ⟨d.nextBuffer, len⟩ (d.allocated len) settings ∧
        ∃ k, ast.tuned ⟨d.nextBuffer, len⟩ r.interventions = .ok k ∧
          ∀ runs, Answers d' (k.ticks d' = .ok ·) (k.timeOrNever runs) (.ok r.best)
    | (.error (.refused e), d') => (d.allocated len).Alike d' ∧ ∃ cause, e = .kernel cause ∧
        WinnerFails ast ⟨d.nextBuffer, len⟩ settings (d.allocated len) d' cause
    | (.error (.fault cause), d') =>
        Halts ast ⟨d.nextBuffer, len⟩ (d.allocated len) d'.clock cause := by
  rw [exec_run hlen]
  by_cases hmemory : len * 4 < Word.half
  case neg =>
    rw [Device.alloc_of_large hmemory]
    exact .size ⟨.inr rfl, mt Ast.Manageable.memory hmemory⟩
  rw [Device.alloc_eq hmemory]
  dsimp only
  have hsearch : Runs (d.allocated len) _ (searchOn ast ⟨d.nextBuffer, len⟩ settings) _ :=
    runs_searchOn hw hlen
  obtain ⟨halike, hends⟩ := hsearch _ (.refl _)
  rcases hres : DeviceM.exec (searchOn ast ⟨d.nextBuffer, len⟩ settings) (d.allocated len) with
    ⟨(cause | e) | ⟨winner, r⟩, d'⟩
  · rw [hres] at hends
    rcases hends with hhalts | ⟨_, hcause, -⟩
    · exact hhalts
    · cases hcause
  · rw [hres] at halike hends
    rcases hends with hhalts | ⟨cause, hcause, hfails⟩
    · exact hhalts.elim
    · exact ⟨halike, cause, congrArg Error.kernel (Stop.refused.inj hcause), hfails⟩
  · rw [hres] at halike hends
    obtain ⟨hr, hwinner⟩ := hends
    refine ⟨halike, hr, winner, hwinner.tuned, fun runs => ?_⟩
    have htime := Kernel.answers_timeOrNever winner runs (d := d')
    rwa [Kernel.timeOn_eq halike, ← Ast.tunedTime_of_tuned hwinner.tuned, hr.time_best] at htime

theorem manageable_innerSumTree : Kernel.innerSumTree.Manageable ⟨1, 6⟩ where
  leaves := Kernel.counted_innerSumTree
  memory := by decide
  tables start k hstart hk := by
    obtain rfl := Except.ok.inj (Kernel.ofAst_innerSumTree.symm.trans hstart)
    exact hk.tableFits (Kernel.ordered_ofAst hstart).1 (by decide)

/-- A device with room for the input of `Kernel.innerSumTree`, on which a launch takes a tick for
each work item. -/
def workItemDevice : Device ExactTime :=
  (Device.new (fun _ launch => pure (some launch.globalSize.toList.prod)) (fun _ => false)
    1).allocated 36

theorem exists_ticks_workItemDevice (hk : Kernel.innerSumTree.Reaches ⟨1, 6⟩ is k) :
    ∃ spanned, k.spanned = .ok spanned ∧
      k.ticks (workItemDevice.allocated 6) = .ok (k.space.take spanned).prod := by
  have hn := hk.numbered Kernel.wellShared_innerSumTree
  obtain ⟨src, hsrc, -⟩ := (hk.shaped.source_meets hn).exists_ok fun _ he =>
    he.2 (hk.fits manageable_innerSumTree)
  obtain ⟨start, hstart, hoffered⟩ := hk.offered
  obtain rfl := Except.ok.inj (Kernel.ofAst_innerSumTree.symm.trans hstart)
  have hb : k.buffers.find? (fun b => !(workItemDevice.allocated 6).memory.contains b.id) =
      none := by
    rw [hoffered.buffers_eq]
    simp [Kernel.buffers, Kernel.operands, Kernel.innerSum, workItemDevice, Device.allocated,
      Device.new]
  obtain ⟨launch, spanned, hspanned, hitems, hticks⟩ :=
    hk.shaped.exists_ticks hsrc (fun _ => rfl) hb
  exact ⟨spanned, hspanned, hticks _ (hitems ▸ rfl)⟩

theorem ticks_workItemDevice_le (hk : Kernel.innerSumTree.Reaches ⟨1, 6⟩ is k) :
    ∃ n ≤ 36, k.ticks (workItemDevice.allocated 6) = .ok n := by
  obtain ⟨spanned, -, hticks⟩ := exists_ticks_workItemDevice hk
  obtain ⟨start, hstart, hoffered⟩ := hk.offered
  obtain rfl := Except.ok.inj (Kernel.ofAst_innerSumTree.symm.trans hstart)
  have hspace : k.space.prod = 36 := (hoffered.space_eq (Kernel.ordered_ofAst hstart).1).1
  refine ⟨_, Nat.le_of_dvd (by decide) (hspace ▸ ?_), hticks⟩
  exact (List.take_sublist spanned k.space).prod_dvd_prod

/-- A kernel takes as long as it has work items. -/
theorem tunedTime_workItemDevice (hk : Kernel.innerSumTree.Reaches ⟨1, 6⟩ is k) {spanned : Nat}
    (hspanned : k.spanned = .ok spanned) {items : Nat}
    (hitems : (k.space.take spanned).prod = items) :
    Kernel.innerSumTree.tunedTime ⟨1, 6⟩ (workItemDevice.allocated 6) is =
      .ok (items : ExactTime) := by
  obtain ⟨spanned', hspanned', hticks⟩ := exists_ticks_workItemDevice hk
  obtain rfl := Except.ok.inj (hspanned.symm.trans hspanned')
  rw [Ast.tunedTime_of_tuned hk.tuned, Kernel.timeOn, hticks, hitems]
  exact congrArg Except.ok (mul_one _)

theorem tunedTime_step_workItemDevice (hk : Kernel.innerSumTree.Reaches ⟨1, 6⟩ is k)
    (hjs : k.interventions = .ok js) {i : Intervention} (hi : i ∈ js)
    (hk' : k.after (Kernel.intervene i) = .ok k') {spanned : Nat}
    (hspanned : k'.spanned = .ok spanned) {items : Nat} (hitems : (k'.space.take spanned).prod = items) :
    Kernel.innerSumTree.tunedTime ⟨1, 6⟩ (workItemDevice.allocated 6) (is ++ [i]) =
      .ok (items : ExactTime) :=
  tunedTime_workItemDevice (hk.step hjs hi hk') hspanned hitems

/-- Unrolling the outer axis of the output halves the work items, and nothing makes them fewer then.
-/
theorem times_workItemDevice :
    let time := Kernel.innerSumTree.tunedTime ⟨1, 6⟩ (workItemDevice.allocated 6)
    ∃ k, Kernel.innerSumTree.tuned ⟨1, 6⟩ [.unroll 0 2] = .ok k ∧
      Kernel.innerSum.interventions = .ok [.swap 0 1, .unroll 0 2, .unroll 2 2] ∧
      k.interventions = .ok [.swap 0 1, .unroll 2 2] ∧
      time [] = .ok (6 : Nat) ∧ time [.unroll 0 2] = .ok (3 : Nat) ∧
      (∀ i ∈ [Intervention.swap 0 1, .unroll 2 2], time [i] = .ok (6 : Nat)) ∧
      ∀ i ∈ [Intervention.swap 0 1, .unroll 2 2], time [.unroll 0 2, i] = .ok (3 : Nat) := by
  have hstart : Kernel.innerSumTree.Reaches ⟨1, 6⟩ [] Kernel.innerSum :=
    .start Kernel.ofAst_innerSumTree
  obtain ⟨k, hk⟩ : ∃ k, Kernel.innerSum.after (Kernel.intervene (.unroll 0 2)) = .ok k := ⟨_, rfl⟩
  have hjs : Kernel.innerSum.interventions = .ok [.swap 0 1, .unroll 0 2, .unroll 2 2] := rfl
  have hreach := hstart.step hjs (by decide) hk
  obtain ⟨hjs', hspanned, hitems⟩ : k.interventions = .ok [.swap 0 1, .unroll 2 2] ∧
      k.spanned = .ok 2 ∧ (k.space.take 2).prod = 3 := by
    cases hk
    exact ⟨rfl, rfl, rfl⟩
  refine ⟨k, hreach.tuned, hjs, hjs', tunedTime_workItemDevice hstart rfl rfl,
    tunedTime_workItemDevice hreach hspanned hitems, ?_, ?_⟩
  · exact List.forall_mem_cons.mpr
      ⟨tunedTime_step_workItemDevice hstart hjs (by decide) rfl rfl rfl,
        List.forall_mem_singleton.mpr
          (tunedTime_step_workItemDevice hstart hjs (by decide) rfl rfl rfl)⟩
  · cases hk
    exact List.forall_mem_cons.mpr
      ⟨tunedTime_step_workItemDevice hreach hjs' (by decide) rfl rfl rfl,
        List.forall_mem_singleton.mpr
          (tunedTime_step_workItemDevice hreach hjs' (by decide) rfl rfl rfl)⟩

theorem scale_one (n : Nat) : Duration.scale (n : ExactTime) 1 = n := Duration.scale_unit _

theorem Result.Follows.eq_of_workItemDevice {r : Result ExactTime}
    (h : r.Follows Kernel.innerSumTree ⟨1, 6⟩ (workItemDevice.allocated 6) ⟨3, 2, 1, 1⟩) :
    r = ⟨[.unroll 0 2], 6, 3, 2, [6, 3]⟩ := by
  obtain ⟨k, hk, hjs, hjs', hstart, hfirst, hother, hthen⟩ := times_workItemDevice
  have htuned : Kernel.innerSumTree.tuned ⟨1, 6⟩ [] = .ok Kernel.innerSum :=
    (Ast.Reaches.start Kernel.ofAst_innerSumTree).tuned
  have hsound := h.toSound
  have hended := h.ended
  obtain ⟨_ | ⟨i, rest⟩, baseline, best, rounds, history⟩ := r
  · -- a candidate takes less time, so the search does not end at once
    obtain rfl := Except.ok.inj (hstart.symm.trans hsound.time_best)
    rcases hended with ⟨-, hunbeaten⟩ | ⟨hrounds, hmax⟩
    · have hle := hunbeaten _ _ htuned hjs (.unroll 0 2) (by decide) _ hfirst
      rw [scale_one, Nat.cast_le] at hle
      omega
    · cases hrounds.symm.trans hmax
  obtain rfl : i = .unroll 0 2 := by
    obtain ⟨k₀, js₀, hk₀, hjs₀, hi⟩ := hsound.offered 0 i rfl
    obtain rfl := Except.ok.inj (htuned.symm.trans hk₀)
    obtain rfl := Except.ok.inj (hjs.symm.trans hjs₀)
    by_contra hne
    have hi : i ∈ [Intervention.swap 0 1, .unroll 2 2] := by
      simp only [List.mem_cons, List.not_mem_nil, or_false] at hi ⊢
      tauto
    have hlt := hsound.lt_of_step (n := 0) (Nat.succ_pos _) hstart (hother i hi)
    rw [scale_one, Nat.cast_lt] at hlt
    omega
  cases rest with
  | nil =>
    obtain ⟨t, t', rfl⟩ := List.length_eq_two.mp hsound.length
    have ht := hsound.getElem?_history (Nat.zero_le _) hstart
    have ht' := hsound.getElem?_history (Nat.le_refl _) hfirst
    cases ht
    cases ht'
    cases hsound.first
    cases hsound.last
    rcases hended with ⟨hrounds, -⟩ | ⟨hrounds, hmax⟩
    · obtain rfl : rounds = 2 := hrounds
      rfl
    · cases hrounds.symm.trans hmax
  | cons j rest =>
    -- nothing takes less time than the winner of the first round
    obtain ⟨k₁, js₁, hk₁, hjs₁, hj⟩ := hsound.offered 1 j rfl
    obtain rfl := Except.ok.inj (hk.symm.trans hk₁)
    obtain rfl := Except.ok.inj (hjs'.symm.trans hjs₁)
    have hlt := hsound.lt_of_step (n := 1) (Nat.succ_lt_succ (Nat.succ_pos _)) hfirst (hthen j hj)
    rw [scale_one, Nat.cast_lt] at hlt
    omega

/-- The work items are halved by unrolling the outer axis of the output, which is chosen. Two
launches time a kernel, and one more runs the winner. -/
theorem run_ends_workItemDevice : ∃ d',
    DeviceM.exec (run Kernel.innerSumTree .trusting ⟨3, 2, 1, 1⟩) workItemDevice =
      (.ok ⟨[.unroll 0 2], 6, 3, 2, [6, 3]⟩, d') ∧
    (workItemDevice.allocated 6).Alike d' ∧
    Result.Follows Kernel.innerSumTree ⟨1, 6⟩ (workItemDevice.allocated 6) ⟨3, 2, 1, 1⟩
      ⟨[.unroll 0 2], 6, 3, 2, [6, 3]⟩ := by
  have hsize := Kernel.resultSize_of_ofAst Kernel.ofAst_innerSumTree
  obtain ⟨r, d', hrun⟩ := run_returns Kernel.wellShared_innerSumTree hsize ⟨3, 2, 1, 1⟩
    workItemDevice Kernel.ofAst_innerSumTree manageable_innerSumTree (fun _ _ => ticks_workItemDevice_le)
    (by decide)
  have hends := run_ends Kernel.wellShared_innerSumTree hsize ⟨3, 2, 1, 1⟩ workItemDevice
  rw [hrun] at hends
  obtain ⟨halike, hfollows, -⟩ := hends
  obtain rfl := Result.Follows.eq_of_workItemDevice hfollows
  exact ⟨d', hrun, halike, hfollows⟩

end Search

end TensorLoom
