import TensorLoom.Proofs.Tuning.Applied
import TensorLoom.Proofs.Tuning.Clock

/-!
# What a round finds

A round times the current kernel and every kernel that one more offered intervention leads to, and
folds over them with the best so far and its weight. The weight is that of the settings until a
candidate is kept, and changes nothing from then on. What the fold keeps is therefore the current
kernel if no candidate takes less than its weighted time, and the first of the fastest candidates
otherwise (`Search.Leads`, `Search.Optimum`).

Candidates that cannot be built, compiled or launched take forever, and are never kept. So a round
on top of interventions that can be applied has an answer, unless it faults for one of the reasons
in `Kernel.Stalls` (`Search.round_optimum`).
-/

namespace TensorLoom

open DeviceM (Runs Answers Spends)

namespace Ast

theorem tuned_append (ast : Ast) (output : Buffer) (is : List Intervention) (i : Intervention) :
    ast.tuned output (is ++ [i]) =
      ast.tuned output is >>= fun k => k.after (Kernel.intervene i) := by
  have hlast : ∀ k : Kernel, k.after ([i].forM Kernel.intervene) = k.after (Kernel.intervene i) :=
    fun k => (k.after_bind _ _).trans (bind_pure _)
  rw [tuned, tuned, bind_assoc]
  refine bind_congr fun k => ?_
  rw [List.forM_eq_forM, List.forM_append, Kernel.after_bind]
  exact bind_congr fun k' => hlast k'

/-- The time of the kernel of a tree with interventions, which is never if it cannot be built,
compiled or launched. -/
def tunedTime (ast : Ast) (output : Buffer) (d : Device ExactTime) (is : List Intervention) :
    Checked ExactTime :=
  neverIfRefused do
    let k ← ast.tuned output is
    let ticks ← k.ticks d
    pure (d.span ticks)

theorem tunedTime_of_tuned {ast : Ast} {output : Buffer} {d : Device ExactTime}
    {is : List Intervention} {k : Kernel} (h : ast.tuned output is = .ok k) :
    ast.tunedTime output d is = k.timeOn d := by
  rw [tunedTime, h]
  rfl

end Ast

variable {ast : Ast} {output : Buffer} {d : Device ExactTime} {k k' : Kernel}
  {is js : List Intervention} {i : Intervention}

/-! ## The best of a round -/

namespace Search

variable {base weight : ExactTime} {times : Intervention → ExactTime} {tried : List Intervention}
  {b : Best ExactTime}

/-- An intervention is the first of those that take the least time. -/
def FirstLeast (times : Intervention → ExactTime) (js : List Intervention) (i : Intervention) :
    Prop :=
  (∀ j ∈ js, times i ≤ times j) ∧
    ∃ before after, js = before ++ i :: after ∧ ∀ j ∈ before, times i < times j

theorem FirstLeast.mem (h : FirstLeast times js i) : i ∈ js := by
  obtain ⟨-, before, after, rfl, -⟩ := h
  exact List.mem_append_right _ List.mem_cons_self

/-- An intervention that takes less time than all before it. -/
theorem FirstLeast.last (h : ∀ j ∈ js, times i < times j) : FirstLeast times (js ++ [i]) i := by
  refine ⟨List.forall_mem_append.mpr ⟨fun j hj => (h j hj).le, ?_⟩, js, [], rfl, h⟩
  exact List.forall_mem_singleton.mpr le_rfl

/-- One more intervention that takes no less time. -/
theorem FirstLeast.concat (h : FirstLeast times js i) {j : Intervention} (hj : times i ≤ times j) :
    FirstLeast times (js ++ [j]) i := by
  obtain ⟨hleast, before, after, rfl, hfirst⟩ := h
  refine ⟨List.forall_mem_append.mpr ⟨hleast, List.forall_mem_singleton.mpr hj⟩,
    before, after ++ [j], ?_, hfirst⟩
  rw [List.append_assoc, List.cons_append]

/-- The best of the current kernel and of the interventions tried so far. -/
structure Leads (base weight : ExactTime) (times : Intervention → ExactTime)
    (tried : List Intervention) (b : Best ExactTime) : Prop where
  unbeaten : ∀ j ∈ tried, Duration.scale b.time b.weight ≤ times j
  kept : b.choice = none → b.time = base ∧ b.weight = weight
  won : ∀ i, b.choice = some i → b.time = times i ∧ b.weight = Duration.unit ∧
    b.time < Duration.scale base weight ∧ FirstLeast times tried i

theorem Leads.start : Leads base weight times [] ⟨base, none, weight⟩ where
  unbeaten := by simp
  kept _ := ⟨rfl, rfl⟩
  won := by simp

/-- What beats the best so far takes less than the weighted time of the current kernel. -/
theorem Leads.lt_base (h : Leads base weight times tried b) {time : ExactTime}
    (hless : time < Duration.scale b.time b.weight) : time < Duration.scale base weight := by
  cases hchoice : b.choice with
  | none =>
    obtain ⟨htime, hweight⟩ := h.kept hchoice
    rwa [htime, hweight] at hless
  | some i =>
    obtain ⟨-, hweight, hbase, -⟩ := h.won i hchoice
    rw [hweight, Duration.scale_unit] at hless
    exact hless.trans hbase

theorem Leads.consider (h : Leads base weight times tried b) (i : Intervention) :
    Leads base weight times (tried ++ [i]) (b.consider i (times i)) := by
  by_cases hless : times i < Duration.scale b.time b.weight
  case pos =>
    have hconsider : b.consider i (times i) = ⟨times i, some i, Duration.unit⟩ :=
      if_pos (decide_eq_true hless)
    have hfirst : ∀ j ∈ tried, times i < times j := fun j hj => hless.trans_le (h.unbeaten j hj)
    rw [hconsider]
    constructor
    case unbeaten =>
      dsimp only
      rw [Duration.scale_unit]
      exact (FirstLeast.last hfirst).1
    case kept => exact fun hchoice => nomatch hchoice
    case won =>
      intro j hj
      obtain rfl := Option.some.inj hj
      exact ⟨rfl, rfl, h.lt_base hless, .last hfirst⟩
  case neg =>
    have hconsider : b.consider i (times i) = b := if_neg fun h => hless (of_decide_eq_true h)
    have hle : Duration.scale b.time b.weight ≤ times i := not_lt.mp hless
    rw [hconsider]
    constructor
    case unbeaten =>
      exact List.forall_mem_append.mpr ⟨h.unbeaten, List.forall_mem_singleton.mpr hle⟩
    case kept => exact h.kept
    case won =>
      intro j hj
      obtain ⟨htime, hweight, hbase, hleast⟩ := h.won j hj
      rw [hweight, Duration.scale_unit, htime] at hle
      exact ⟨htime, hweight, hbase, hleast.concat hle⟩

/-- What a round answers, given the time of the current kernel, its weight and the times that the
candidates take. -/
structure Optimum (base weight : ExactTime) (times : Intervention → ExactTime)
    (js : List Intervention) (answer : ExactTime × Option Intervention) : Prop where
  /-- The current kernel is kept if no candidate takes less than its weighted time. -/
  keeps : (∀ j ∈ js, ¬ times j < Duration.scale base weight) → answer = (base, none)
  /-- Otherwise the first of the fastest candidates is chosen. -/
  chooses : (∃ j ∈ js, times j < Duration.scale base weight) →
    ∃ i, FirstLeast times js i ∧ answer = (times i, some i)

theorem Leads.optimum (h : Leads base weight times tried b) :
    Optimum base weight times tried (b.time, b.choice) := by
  cases hchoice : b.choice with
  | none =>
    obtain ⟨htime, hweight⟩ := h.kept hchoice
    refine ⟨fun _ => by rw [htime], fun ⟨j, hj, hless⟩ => absurd hless (not_lt.mpr ?_)⟩
    rw [← htime, ← hweight]
    exact h.unbeaten j hj
  | some i =>
    obtain ⟨htime, -, hbase, hleast⟩ := h.won i hchoice
    refine ⟨fun hkeeps => absurd hbase ?_, fun _ => ⟨i, hleast, by rw [htime]⟩⟩
    rw [htime]
    exact hkeeps i hleast.mem

end Search

/-! ## The kernels of a round -/

namespace Kernel

/-- The kernels that a round times: the current one, and those that one more offered intervention
leads to. -/
inductive Tried (k : Kernel) : Kernel → Prop
  | current : Tried k k
  | candidate {js : List Intervention} {i : Intervention} {k' : Kernel}
    (hjs : k.interventions = .ok js) (hi : i ∈ js) (h : k.after (Kernel.intervene i) = .ok k') :
    Tried k k'

/-- What an intervention keeps holds of every kernel of a round. -/
theorem Tried.keeps {P : Kernel → Prop} (h : k.Tried k')
    (hstep : ∀ i, k.after (Kernel.intervene i) = .ok k' → P k') (hk : P k) : P k' := by
  cases h with
  | current => exact hk
  | candidate _ _ h => exact hstep _ h

/-- Why a round faults at some reading of the clock: a number or a table of one of its kernels is
too large, the cost model faults on one of them, or the clock cannot be moved on by the ticks of
one. -/
inductive Stalls (k : Kernel) (d : Device ExactTime) (clock : Nat) : Fault → Prop
  | size {k' : Kernel} {cause : Fault} (hk : k.Tried k')
    (h : cause.OfSize ¬ (k'.Counted ∧ TableFits k'.unrolledSizes)) : Stalls k d clock cause
  | cost {k' : Kernel} {c : CompiledKernel} {cause : Fault} (hk : k.Tried k')
    (hc : k'.compiledFor d = .ok c) (h : d.cost c.program.source c.launch = .error cause) :
    Stalls k d clock cause
  | clock {k' : Kernel} {n : Nat} (hk : k.Tried k') (hn : k'.ticks d = .ok n)
    (h : Word.bound ≤ clock + n) : Stalls k d clock .overflow

/-- The errors of a round that is not refused. -/
def Stalling (k : Kernel) (d : Device ExactTime) : Stop KernelError → Device ExactTime → Prop
  | .fault cause, d' => k.Stalls d d'.clock cause
  | .refused _, _ => False

/-- The ticks of a kernel are not known only if its source or its cost is not. -/
theorem Stalls.of_ticks (hs : k.Shaped) (hn : k.Numbered) (hk : k.Tried k') {cause : Fault}
    (hticks : k'.ticks d = .error (.fault cause)) (clock : Nat) : k.Stalls d clock cause := by
  rcases ticks_eq_fault hticks with hsource | ⟨c, hc, hcost⟩
  · have hs' := hk.keeps (fun _ => Shaped.intervene hs) hs
    have hn' := hk.keeps (fun _ => Numbered.intervene hn) hn
    exact .size hk ((hs'.source_meets hn').of_error hsource)
  · exact .cost hk hc hcost

theorem Tried.timeOn_meets (hk : k.Tried k') (hs : k.Shaped) (hn : k.Numbered) :
    Meets (liftM (k'.timeOn d) : Attempt KernelError ExactTime)
      (fun e => ∀ d', d.Alike d' → k.Stalling d e d') fun time => k'.timeOn d = .ok time := by
  rcases htime : k'.timeOn d with cause | time
  · exact fun d' _ => .of_ticks hs hn hk (ticks_of_timeOn htime) d'.clock
  · exact rfl

theorem Tried.runs_timeOrNever (hk : k.Tried k') (hs : k.Shaped) (hn : k.Numbered) (runs : Nat) :
    Runs d (k.Stalling d) (k'.timeOrNever runs) fun time => k'.timeOn d = .ok time :=
  (answers_timeOrNever k' runs).runs (hk.timeOn_meets hs hn) fun _ _ ⟨_, hn, hclock⟩ =>
    .clock hk hn hclock

end Kernel

/-! ## Rounds -/

namespace Search

/-- A candidate is given the time of the kernel that it leads to. -/
theorem answers_candidateTime (hk : ast.tuned output is = .ok k) (hjs : k.interventions = .ok js)
    (hi : i ∈ js) (runs : Nat) :
    Answers d (fun n => ∃ k', k.Tried k' ∧ k'.ticks d = .ok n) (candidateTime ast output is runs i)
      (liftM (ast.tunedTime output d (is ++ [i]))) := by
  rw [Ast.tunedTime, Ast.tuned_append, bind_assoc]
  refine Kernel.answers_orNever (.bind (.lift _) fun k₁ hk₁ => .bind (.lift _) fun k' hk' => ?_)
  obtain rfl := Except.ok.inj (hk.symm.trans hk₁)
  exact (Kernel.answers_time k' runs).widen fun n hn => ⟨k', .candidate hjs hi hk', hn⟩

/-- The time of a candidate is known, unless a number is too large or its source or cost is not
known. -/
theorem tunedTime_meets (hk : ast.tuned output is = .ok k) (hs : k.Shaped) (hn : k.Numbered)
    (hjs : k.interventions = .ok js) (hi : i ∈ js) :
    Meets (liftM (ast.tunedTime output d (is ++ [i])) : Attempt KernelError ExactTime)
      (fun e => ∀ d', d.Alike d' → k.Stalling d e d')
      fun time => ast.tunedTime output d (is ++ [i]) = .ok time := by
  have hafter := hs.intervene_meets (hs.offers_of_mem hjs hi)
  have htuned : ast.tuned output (is ++ [i]) = k.after (Kernel.intervene i) := by
    rw [Ast.tuned_append, hk]
    rfl
  rcases hk' : k.after (Kernel.intervene i) with (cause | e) | k'
  · rw [Ast.tunedTime, htuned, hk']
    exact fun d' _ => .size .current ((hafter.of_error hk').mono (mt And.left))
  · exact (hafter.of_error hk').elim
  · rw [Ast.tunedTime_of_tuned (htuned.trans hk')]
    exact (Kernel.Tried.candidate hjs hi hk').timeOn_meets hs hn

theorem runs_candidateTime (hk : ast.tuned output is = .ok k) (hs : k.Shaped) (hn : k.Numbered)
    (hjs : k.interventions = .ok js) (hi : i ∈ js) (runs : Nat) :
    Runs d (k.Stalling d) (candidateTime ast output is runs i)
      fun time => ast.tunedTime output d (is ++ [i]) = .ok time :=
  (answers_candidateTime hk hjs hi runs).runs (tunedTime_meets hk hs hn hjs hi)
    fun _ _ ⟨_, ⟨_, hk', hn⟩, hclock⟩ => .clock hk' hn hclock

/-- The time that a candidate takes, if it is known. -/
def timeAfter (ast : Ast) (output : Buffer) (d : Device ExactTime) (is : List Intervention)
    (i : Intervention) : ExactTime :=
  match ast.tunedTime output d (is ++ [i]) with
  | .ok time => time
  | .error _ => Duration.never

theorem timeAfter_eq {time : ExactTime} (h : ast.tunedTime output d (is ++ [i]) = .ok time) :
    timeAfter ast output d is i = time := by
  rw [timeAfter, h]

/-- A round gets to know the time of the current kernel and those of all candidates, and keeps the
best of them. -/
theorem runs_round (settings : SearchSettings ExactTime) (hk : ast.tuned output is = .ok k)
    (hn : k.Numbered) :
    Runs d (k.Stalling d) (round ast output is settings) fun (time, choice) =>
      ∃ js base weight, k.interventions = .ok js ∧ k.timeOn d = .ok base ∧
        (∀ j ∈ js, ast.tunedTime output d (is ++ [j]) = .ok (timeAfter ast output d is j)) ∧
        Leads base settings.stopWeight (timeAfter ast output d is) js ⟨time, choice, weight⟩ := by
  have hs := Ast.shaped_of_tuned hk
  obtain ⟨js, hjs, -⟩ := hs.exists_interventions
  refine Runs.bind (.lift (.of_eq_ok hk rfl)) ?_
  rintro _ rfl
  refine Runs.bind (Kernel.Tried.current.runs_timeOrNever hs hn _) fun base hbase => ?_
  refine Runs.bind (.checked (.of_eq_ok (liftM_eq_ok.mpr hjs) rfl)) ?_
  rintro _ rfl
  have hnone : ∀ j ∈ ([] : List Intervention),
      ast.tunedTime output d (is ++ [j]) = .ok (timeAfter ast output d is j) := by simp
  refine Runs.bind (Runs.foldlM (I := fun tried b =>
    (∀ j ∈ tried, ast.tunedTime output d (is ++ [j]) = .ok (timeAfter ast output d is j)) ∧
      Leads base settings.stopWeight (timeAfter ast output d is) tried b) ?_ ⟨hnone, .start⟩) ?_
  · rintro tried b i hi ⟨hknown, hb⟩
    refine Runs.bind (runs_candidateTime hk hs hn hjs hi _) fun time ht => ?_
    obtain rfl := timeAfter_eq ht
    exact .pure ⟨List.forall_mem_append.mpr ⟨hknown, List.forall_mem_singleton.mpr ht⟩,
      hb.consider i⟩
  · rintro b ⟨hknown, hb⟩
    exact .pure ⟨_, base, b.weight, hjs, hbase, hknown, hb⟩

/-- A round times each of its kernels once. -/
theorem spends_round (settings : SearchSettings ExactTime) {most : Nat}
    (hk : ast.tuned output is = .ok k) (hjs : k.interventions = .ok js)
    (hmost : ∀ k', k.Tried k' → ∀ n, k'.ticks d = .ok n → n ≤ most) :
    Spends d ((js.length + 1) * (max settings.runs 1 * most)) (round ast output is settings)
      fun _ => True := by
  have hcandidate : ∀ i ∈ js, Spends d (max settings.runs 1 * most)
      (candidateTime ast output is settings.runs i) fun _ => True := by
    intro i hi
    refine Kernel.spends_orNever (Spends.free_bind (.lift _) fun k₁ hk₁ =>
      Spends.free_bind (.lift _) fun k' hk' => Kernel.spends_time ?_ _)
    obtain rfl := Except.ok.inj (hk.symm.trans hk₁)
    exact hmost k' (.candidate hjs hi hk')
  refine Spends.free_bind (.lift _) fun k₁ hk₁ => ?_
  obtain rfl := Except.ok.inj (hk.symm.trans hk₁)
  rw [Nat.succ_mul, Nat.add_comm]
  refine Spends.bind (Kernel.spends_orNever (Kernel.spends_time (hmost k .current) _))
    fun base _ => Spends.free_bind (.checked _) fun js₁ hjs₁ => ?_
  obtain rfl := Except.ok.inj (hjs.symm.trans hjs₁)
  refine Spends.bind_free (Spends.foldlM (fun b i hi => ?_) _) fun b _ => .pure _
  exact Spends.bind_free (hcandidate i hi) fun time _ => .pure _

/-- A round returns if all numbers and tables of its kernels are small enough, the cost model has an
answer for them, and the clock can be moved on by what they take. -/
theorem round_returns (settings : SearchSettings ExactTime) {most : Nat}
    (hk : ast.tuned output is = .ok k) (hn : k.Numbered) (hjs : k.interventions = .ok js)
    (hsize : ∀ k', k.Tried k' → k'.Counted ∧ Kernel.TableFits k'.unrolledSizes)
    (hcost : ∀ source launch, ∃ ticks, d.cost source launch = .ok ticks)
    (hmost : ∀ k', k.Tried k' → ∀ n, k'.ticks d = .ok n → n ≤ most)
    (hclock : d.clock + (js.length + 1) * (max settings.runs 1 * most) + most < Word.bound) :
    ∃ answer d', DeviceM.exec (round ast output is settings) d = (.ok answer, d') := by
  obtain ⟨-, hspent, -⟩ := spends_round settings hk hjs hmost d (.refl d)
  obtain ⟨-, hends⟩ := runs_round settings hk hn d (.refl d)
  rcases hexec : DeviceM.exec (round ast output is settings) d with ⟨(cause | e) | answer, d'⟩
  · rw [hexec] at hspent hends
    cases hends with
    | size hk' h => exact absurd (hsize _ hk') h.2
    | @cost _ c _ _ _ h =>
      obtain ⟨ticks, hticks⟩ := hcost c.program.source c.launch
      exact nomatch hticks.symm.trans h
    | clock hk' hn h =>
      have := hmost _ hk' _ hn
      dsimp only at hspent
      omega
  · rw [hexec] at hends
    exact hends.elim
  · exact ⟨answer, d', rfl⟩

/-- An attempt that takes less than forever has not been refused. -/
theorem eq_ok_of_lt {x : Attempt KernelError ExactTime} {time : ExactTime}
    (h : neverIfRefused x = .ok time) (hlt : time < ⊤) : x = .ok time := by
  rcases x with (cause | e) | t
  · cases h
  · cases h
    exact absurd hlt (lt_irrefl _)
  · cases h
    rfl

/-- Interventions that take less than forever lead to a kernel that can be launched. -/
theorem exists_ticks_of_lt {time : ExactTime} (h : ast.tunedTime output d is = .ok time)
    (hlt : time < ⊤) :
    ∃ k n, ast.tuned output is = .ok k ∧ k.ticks d = .ok n ∧ time = d.span n := by
  obtain ⟨k, hk, h⟩ := bind_eq_ok.mp (eq_ok_of_lt h hlt)
  obtain ⟨n, hn, h⟩ := bind_eq_ok.mp h
  exact ⟨k, n, hk, hn, (pure_eq_ok.mp h).symm⟩

/-- A round on top of interventions that can be applied is never refused, and it answers with the
optimum of the times that the current kernel and its candidates take on the device as it is at the
start, unless it faults for one of the reasons in `Kernel.Stalls`. What it chooses can be applied,
compiled and launched. -/
theorem round_optimum (hw : ast.WellShared) (hk : ast.tuned output is = .ok k)
    (settings : SearchSettings ExactTime) (d : Device ExactTime) :
    match DeviceM.exec (round ast output is settings) d with
    | (.ok answer, _) => ∃ js base, k.interventions = .ok js ∧ k.timeOn d = .ok base ∧
        (∀ j ∈ js, ast.tunedTime output d (is ++ [j]) = .ok (timeAfter ast output d is j)) ∧
        Optimum base settings.stopWeight (timeAfter ast output d is) js answer ∧
        ∀ i, answer.2 = some i → ∃ k' n, ast.tuned output (is ++ [i]) = .ok k' ∧
          k'.ticks d = .ok n ∧ answer.1 = d.span n
    | (.error (.refused _), _) => False
    | (.error (.fault cause), d') => k.Stalls d d'.clock cause := by
  obtain ⟨-, hends⟩ := runs_round settings hk (Ast.numbered_of_tuned hw hk) d (.refl d)
  rcases hexec : DeviceM.exec (round ast output is settings) d with
    ⟨(cause | e) | ⟨time, choice⟩, d'⟩
  · rw [hexec] at hends
    exact hends
  · rw [hexec] at hends
    exact hends
  · rw [hexec] at hends
    obtain ⟨js, base, weight, hjs, hbase, hknown, hleads⟩ := hends
    refine ⟨js, base, hjs, hbase, hknown, hleads.optimum, fun i hi => ?_⟩
    obtain ⟨htime, -, hless, hleast⟩ := hleads.won i hi
    have hlt : timeAfter ast output d is i < ⊤ := htime ▸ hless.trans_le le_top
    obtain ⟨k', n, hk', hn, hspan⟩ := exists_ticks_of_lt (hknown i hleast.mem) hlt
    exact ⟨k', n, hk', hn, htime.trans hspan⟩

/-- A device with room for the buffers of `Kernel.innerSumTree`, on which every launch takes five
ticks. -/
def steadyDevice : Device ExactTime :=
  ((Device.new (fun _ _ => pure (some 5)) (fun _ => false) 1).allocated 36).allocated 6

theorem ticks_steadyDevice (hs : k.Shaped) (hn : k.Numbered)
    (hfits : k.Counted ∧ Kernel.TableFits k.unrolledSizes) (hb : k.buffers = [⟨1, 6⟩, ⟨0, 36⟩]) :
    k.ticks steadyDevice = .ok 5 := by
  obtain ⟨src, hsrc, -⟩ := (hs.source_meets hn).exists_ok fun _ he => he.2 hfits
  obtain ⟨_, _, -, -, hticks⟩ := hs.exists_ticks (d := steadyDevice) hsrc (fun _ => rfl)
    (by simp [hb, steadyDevice, Device.allocated, Device.new])
  exact hticks 5 rfl

/-- Every kernel of a round on the device takes five ticks, if there is no number too large in the
first one. -/
theorem tried_steadyDevice (hk : Kernel.innerSumTree.tuned ⟨1, 6⟩ is = .ok k)
    (hspace : Kernel.TableFits k.space) (hb : k.buffers = [⟨1, 6⟩, ⟨0, 36⟩]) (hk' : k.Tried k') :
    (k'.Counted ∧ Kernel.TableFits k'.unrolledSizes) ∧ k'.ticks steadyDevice = .ok 5 := by
  have hs := Ast.shaped_of_tuned hk
  have hn := Ast.numbered_of_tuned Kernel.wellShared_innerSumTree hk
  have hcounted := Ast.counted_of_tuned Kernel.counted_innerSumTree (by decide) hk
  have hoffered : k.Offered k' := by
    cases hk' with
    | current => exact .start
    | candidate hjs hi h => exact .step .start hjs hi h
  obtain ⟨hs', hn', hcounted'⟩ := hoffered.kept hs
  have hfits := And.intro (hcounted' hcounted) (hoffered.tableFits hs hspace)
  exact ⟨hfits, ticks_steadyDevice hs' (hn' hn) hfits (hoffered.buffers_eq.trans hb)⟩

theorem timeOn_steadyDevice (h : k.ticks steadyDevice = .ok 5) : k.timeOn steadyDevice = .ok 5 := by
  rw [Kernel.timeOn, h]
  exact congrArg Except.ok (mul_one _)

/-- Every candidate of a round on the device takes the same time. -/
theorem timeAfter_steadyDevice (hk : Kernel.innerSumTree.tuned ⟨1, 6⟩ is = .ok k)
    (hspace : Kernel.TableFits k.space) (hb : k.buffers = [⟨1, 6⟩, ⟨0, 36⟩])
    (hjs : k.interventions = .ok js) (hi : i ∈ js) :
    timeAfter Kernel.innerSumTree ⟨1, 6⟩ steadyDevice is i = 5 := by
  have hs := Ast.shaped_of_tuned hk
  have hcounted := Ast.counted_of_tuned Kernel.counted_innerSumTree (by decide) hk
  obtain ⟨k', hk', -⟩ :=
    (hs.intervene_meets (hs.offers_of_mem hjs hi)).exists_ok fun _ he => he.cause hcounted
  have htuned : Kernel.innerSumTree.tuned ⟨1, 6⟩ (is ++ [i]) = .ok k' := by
    rw [Ast.tuned_append, hk]
    exact hk'
  obtain ⟨-, hticks⟩ := tried_steadyDevice hk hspace hb (.candidate hjs hi hk')
  exact timeAfter_eq ((Ast.tunedTime_of_tuned htuned).trans (timeOn_steadyDevice hticks))

/-- Part of the axis that is summed along has been unrolled, by an amount that is not offered. All
candidates take the same time, and the first of them wins if the current kernel has a
disadvantage. -/
theorem round_optimum_steadyDevice :
    ∃ d', DeviceM.exec (round Kernel.innerSumTree ⟨1, 6⟩ [.unroll 2 3] ⟨1, 3, 2, 0⟩) steadyDevice =
      (.ok (5, some (.swap 0 1)), d') := by
  obtain ⟨k, hk⟩ : ∃ k, Kernel.innerSum.after (Kernel.intervene (.unroll 2 3)) = .ok k := ⟨_, rfl⟩
  have htuned : Kernel.innerSumTree.tuned ⟨1, 6⟩ [.unroll 2 3] = .ok k := by
    rw [show [Intervention.unroll 2 3] = [] ++ [.unroll 2 3] from rfl, Ast.tuned_append, Ast.tuned,
      Kernel.ofAst_innerSumTree]
    exact hk
  obtain ⟨hjs, hspace, hb⟩ : k.interventions = .ok [.swap 0 1, .unroll 0 2, .unroll 2 2] ∧
      Kernel.TableFits k.space ∧ k.buffers = [⟨1, 6⟩, ⟨0, 36⟩] := by
    cases hk
    exact ⟨rfl, by decide, rfl⟩
  have htried : ∀ k', k.Tried k' → _ := fun k' hk' => tried_steadyDevice htuned hspace hb hk'
  obtain ⟨answer, d', hexec⟩ := round_returns (d := steadyDevice) ⟨1, 3, 2, 0⟩ htuned
    (Ast.numbered_of_tuned Kernel.wellShared_innerSumTree htuned) hjs
    (fun k' hk' => (htried k' hk').1) (fun _ _ => ⟨_, rfl⟩)
    (fun k' hk' n h => (Except.ok.inj ((htried k' hk').2.symm.trans h)).ge) (by decide)
  have hround := round_optimum Kernel.wellShared_innerSumTree htuned ⟨1, 3, 2, 0⟩ steadyDevice
  rw [hexec] at hround
  obtain ⟨js, base, hjs', hbase, hknown, hoptimum, -⟩ := hround
  obtain rfl := Except.ok.inj (hjs.symm.trans hjs')
  obtain rfl : 5 = base :=
    Except.ok.inj ((timeOn_steadyDevice (htried k .current).2).symm.trans hbase)
  have htimes : ∀ j ∈ [.swap 0 1, .unroll 0 2, .unroll 2 2],
      timeAfter Kernel.innerSumTree ⟨1, 6⟩ steadyDevice [.unroll 2 3] j = 5 := fun j hj =>
    timeAfter_steadyDevice htuned hspace hb hjs hj
  have hless : (5 : ExactTime) < 5 * 2 := by exact_mod_cast (show 5 < 5 * 2 by decide)
  obtain ⟨i, ⟨-, before, after, hsplit, hfirst⟩, rfl⟩ := hoptimum.chooses
    ⟨.swap 0 1, List.mem_cons_self, by rw [htimes _ List.mem_cons_self]; exact hless⟩
  cases before with
  | nil =>
    obtain ⟨rfl, -⟩ := List.cons.inj hsplit
    rw [htimes _ List.mem_cons_self] at hexec
    exact ⟨d', hexec⟩
  | cons j before =>
    have hi : i ∈ [.swap 0 1, .unroll 0 2, .unroll 2 2] :=
      hsplit ▸ List.mem_append_right _ List.mem_cons_self
    have hj : j ∈ [.swap 0 1, .unroll 0 2, .unroll 2 2] := hsplit ▸ List.mem_cons_self
    have hlt := hfirst j List.mem_cons_self
    rw [htimes i hi, htimes j hj] at hlt
    exact absurd hlt (lt_irrefl _)

end Search

end TensorLoom
