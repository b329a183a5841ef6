import TensorLoom.Proofs.Tuning.Applied
import TensorLoom.Proofs.Tuning.LayoutEdits

/-!
# Changes of the layout are made as a whole

A change of a kernel's layout goes through all of its operands, and a split is two changes in
sequence. One that fails on the way leaves the kernel as it has been: an operand that is refused
takes the others with it, and once the operands have been split the last axis can always be
unrolled, since there is one axis more than before (`Kernel.commits_intervene`). One that succeeds
has moved every operand, and counts the axis that it unrolls (`LayoutEdit.Completed`).

`Kernel.Edited.all_or_nothing` puts this together for all kernels that accepted changes lead to.
-/

namespace TensorLoom

open Intervention (exchange)

namespace Kernel

variable {k k' : Kernel} {α : Type}

/-! ## Changes in sequence and the kernel they leave behind -/

/-- Run changes of a kernel. What they have done until one is refused stays done. -/
def exec (x : KernelM α) (k : Kernel) : Except (Stop KernelError) α × Kernel :=
  Id.run (StateT.run (ExceptT.run x) k)

theorem after_eq (k : Kernel) (x : KernelM Unit) :
    k.after x = (exec x k).1.map fun () => (exec x k).2 := rfl

theorem exec_edit (change : Kernel → Attempt KernelError Kernel) (k : Kernel) :
    exec (edit change) k = match change k with
      | .ok k' => (.ok (), k')
      | .error e => (.error e, k) := by
  rfl

theorem exec_bind (x : KernelM α) (f : α → KernelM Unit) (k : Kernel) :
    exec (x >>= f) k = match exec x k with
      | (.ok a, k') => exec (f a) k'
      | (.error e, k') => (.error e, k') := by
  simp only [exec]
  rw [ExceptT.run_bind, StateT.run_bind, Id.run_bind]
  rcases Id.run (StateT.run (ExceptT.run x) k) with ⟨e | a, k'⟩ <;> rfl

/-- Changes that leave the kernel as it is unless all of them are made. -/
def Commits (x : KernelM Unit) (k : Kernel) : Prop :=
  ∀ e k', exec x k = (.error e, k') → k' = k

theorem commits_edit (change : Kernel → Attempt KernelError Kernel) (k : Kernel) :
    Commits (edit change) k := by
  intro e k' h
  rw [exec_edit] at h
  cases hchange : change k with
  | ok k₁ =>
    rw [hchange] at h
    cases h
  | error e =>
    rw [hchange] at h
    cases h
    rfl

/-- A second change that cannot be refused after the first one. -/
theorem commits_edit_bind {first second : Kernel → Attempt KernelError Kernel}
    (h : ∀ k₁, first k = .ok k₁ → ∃ k₂, second k₁ = .ok k₂) :
    Commits (edit first >>= fun _ => edit second) k := by
  intro e k' hexec
  rw [exec_bind, exec_edit] at hexec
  cases hfirst : first k with
  | error e =>
    rw [hfirst] at hexec
    cases hexec
    rfl
  | ok k₁ =>
    obtain ⟨k₂, hsecond⟩ := h k₁ hfirst
    rw [hfirst] at hexec
    dsimp only at hexec
    rw [exec_edit, hsecond] at hexec
    cases hexec

theorem commits_get {rest : Kernel → KernelM Unit} (h : Commits (rest k) k) :
    Commits (get >>= rest) k := h

/-- An attempt in front that changes nothing. -/
theorem commits_attempt {x : Attempt KernelError α} {rest : α → KernelM Unit}
    (h : ∀ a, x = .ok a → Commits (rest a) k) : Commits (liftM x >>= rest) k := by
  intro e k' hexec
  cases x with
  | ok a => exact h a rfl e k' hexec
  | error e =>
    cases hexec
    rfl

theorem commits_checked {x : Checked α} {rest : α → KernelM Unit}
    (h : ∀ a, x = .ok a → Commits (rest a) k) : Commits (liftM x >>= rest) k :=
  commits_attempt (x := liftM x) fun a ha => h a (liftM_eq_ok.mp ha)

/-! ## Interventions -/

/-- After a split there is an axis to be unrolled. -/
theorem exists_unroll_of_split {axis amount : Nat} {order : List Nat} (hle : k.unrolled ≤ k.rank)
    (h : k.relayout (some (Intervention.split axis amount)) order = .ok k') :
    ∃ k₂, k'.unroll = .ok k₂ := by
  obtain ⟨-, hu, shape, hshape, hrank⟩ := relayout_rank h
  have haxis : axis < k.output.shape.length := by
    obtain ⟨size, hsize, -⟩ := bind_eq_ok.mp hshape
    exact (List.getElem?_eq_some_iff.mp (entry_eq_ok.mp hsize)).1
  have hlength : k'.rank = k.rank + 1 := by
    rw [hrank, Intervention.split_eq_ok hshape, Intervention.length_splitShape amount haxis]
    rfl
  have hloops : k'.loops = .ok (k'.rank - k'.unrolled) := loops_of_le (by omega)
  exact ⟨_, bind_eq_ok.mpr ⟨_, liftM_eq_ok.mpr hloops, if_pos (by omega)⟩⟩

/-- An intervention is applied as a whole, or the kernel stays as it is. -/
theorem commits_intervene (k : Kernel) (i : Intervention) : Commits (Kernel.intervene i) k := by
  refine commits_get (commits_checked fun loops hloops => ?_)
  have hle := (loops_eq_ok hloops).2
  cases i with
  | swap a b =>
    exact commits_attempt fun _ _ => commits_attempt fun _ _ => commits_edit _ k
  | unroll axis amount =>
    exact commits_attempt fun _ _ => commits_edit_bind fun _ hsplit =>
      exists_unroll_of_split hle hsplit

end Kernel

/-! ## All changes -/

namespace LayoutEdit

variable {k k' r : Kernel} {e : LayoutEdit}

/-- Make a change by one call. -/
def perform : LayoutEdit → KernelM Unit
  | .relayout reshape order => Kernel.edit (·.relayout reshape order)
  | .unroll => Kernel.edit (·.unroll)
  | .intervene i => Kernel.intervene i

/-- The shape that an operand is reshaped to. -/
def reshaped (shape : List Nat) : LayoutEdit → Checked (List Nat)
  | .relayout (some f) _ => f shape
  | .intervene (.unroll axis amount) => Intervention.split axis amount shape
  | _ => pure shape

/-- The order of the axes after a change that are not unrolled, or have not been before it. -/
def order (k : Kernel) : LayoutEdit → List Nat
  | .relayout _ order => order
  | .unroll => List.range (k.rank - k.unrolled)
  | .intervene (.swap a b) => exchange a b (List.range (k.rank - k.unrolled))
  | .intervene (.unroll axis _) => Kernel.splitOrder (k.rank - k.unrolled) axis

/-- The number of axes that a change unrolls. -/
def unrolls : LayoutEdit → Nat
  | .relayout _ _ => 0
  | .unroll => 1
  | .intervene i => i.unrolls

/-- A change has been made to the whole of a kernel: each operand is reshaped, its axes are put into
the order with those behind that have been unrolled, and the count of unrolled axes agrees. -/
structure Completed (e : LayoutEdit) (k k' : Kernel) : Prop where
  ast : k'.ast = k.ast
  buffers : k'.buffers = k.buffers
  unrolled : k'.unrolled = k.unrolled + e.unrolls
  operands : List.Forall₂ (fun o o' => ∃ shape, e.reshaped o.shape = .ok shape ∧
    o'.shape = (Movement.permute (e.order k ++
      List.range' (e.order k).length (k'.rank - (e.order k).length))).resultShape shape)
    k.operands k'.operands

theorem apply_eq_after (e : LayoutEdit) (k : Kernel) : e.apply k = k.after e.perform := by
  cases e with
  | relayout reshape order => exact (k.after_edit (·.relayout reshape order)).symm
  | unroll => exact (k.after_edit (·.unroll)).symm
  | intervene i => rfl

theorem commits (e : LayoutEdit) (k : Kernel) : Kernel.Commits e.perform k := by
  cases e with
  | relayout reshape order => exact Kernel.commits_edit _ k
  | unroll => exact Kernel.commits_edit _ k
  | intervene i => exact k.commits_intervene i

end LayoutEdit

namespace Kernel

variable {k k' start : Kernel} {e : LayoutEdit}

/-- The axes behind those that are permuted stay where they are. -/
theorem permuted_shapes {order : List Nat} {loops : Nat} (hk : k.Aligned) (hle : loops ≤ k.rank)
    (hperm : order.Perm (List.range loops))
    (h : order = List.range loops ∧ k' = k ∨ k.moveOperands (fun _ =>
      pure (.permute (order ++ List.range' loops (k.rank - loops)))) = .ok k') :
    k'.rank = k.rank ∧ List.Forall₂ (fun o o' => o'.shape =
      (Movement.permute (order ++ List.range' loops (k.rank - loops))).resultShape o.shape)
      k.operands k'.operands := by
  rcases h with ⟨rfl, rfl⟩ | h
  · refine ⟨rfl, List.forall₂_same.mpr fun o ho => ?_⟩
    rw [range_append_range' hle]
    exact (resultShape_range (hk o ho)).symm
  · have hlength := hperm.length_eq
    obtain ⟨-, hrank, -⟩ := rank_permuted h
    refine ⟨?_, (moveOperands_eq_ok h).2.2.imp ?_⟩
    · simp only [List.length_append, List.length_range, List.length_range'] at hlength hrank
      omega
    · rintro o _ ⟨m, t, hm, ht, rfl⟩
      obtain rfl := pure_eq_ok.mp hm
      exact (Tracker.shape_move (.permute _) ht).1

/-- What has become of the shapes of the operands in another layout. -/
theorem relayout_shapes {reshape : Option (List Nat → Checked (List Nat))} {order : List Nat}
    (h : k.relayout reshape order = .ok k') :
    List.Forall₂ (fun o o' => ∃ shape,
      (LayoutEdit.relayout reshape order).reshaped o.shape = .ok shape ∧
      o'.shape = (Movement.permute (order ++
        List.range' order.length (k'.rank - order.length))).resultShape shape)
      k.operands k'.operands := by
  obtain ⟨r, hr, haligned, hperm, h⟩ := relayout_eq_ok h
  have hlength := hperm.length_eq
  rw [List.length_range] at hlength
  obtain ⟨hrank, hpermuted⟩ := permuted_shapes haligned (Nat.sub_le _ _) hperm h
  have hreshaped : List.Forall₂ (fun o r =>
      (LayoutEdit.relayout reshape order).reshaped o.shape = .ok r.shape)
      k.operands r.operands := by
    cases reshape with
    | none =>
      obtain rfl := pure_eq_ok.mp hr
      exact List.forall₂_same.mpr fun o _ => rfl
    | some f =>
      refine (moveOperands_eq_ok hr).2.2.imp ?_
      rintro o _ ⟨m, t, hm, ht, rfl⟩
      obtain ⟨shape, hshape, hm⟩ := bind_eq_ok.mp hm
      obtain rfl := pure_eq_ok.mp hm
      exact hshape.trans (congrArg Except.ok (Tracker.shape_move (.reshape shape) ht).1.symm)
  rw [hlength, hrank]
  refine List.forall₂_iff_get.mpr
    ⟨hreshaped.length_eq.trans hpermuted.length_eq, fun i hi hi' => ?_⟩
  have hi₁ : i < r.operands.length := hreshaped.length_eq ▸ hi
  exact ⟨_, (List.forall₂_iff_get.mp hreshaped).2 i hi hi₁,
    (List.forall₂_iff_get.mp hpermuted).2 i hi₁ hi'⟩

/-- A change that is accepted has been made to the whole kernel. -/
theorem Aligned.completed (hk : k.Aligned) (h : e.apply k = .ok k') : e.Completed k k' := by
  cases e with
  | relayout reshape order =>
    have hcarries := carries_relayout h
    exact ⟨hcarries.ast, hcarries.buffers_eq, hcarries.unrolled, relayout_shapes h⟩
  | unroll =>
    obtain ⟨-, rfl⟩ := of_unroll h
    refine ⟨rfl, rfl, rfl, List.forall₂_same.mpr fun o ho => ⟨o.shape, rfl, ?_⟩⟩
    show o.shape = (Movement.permute (List.range (k.rank - k.unrolled) ++ List.range'
      (List.range _).length (k.rank - (List.range (k.rank - k.unrolled)).length))).resultShape _
    rw [List.length_range, range_append_range' (Nat.sub_le _ _)]
    exact (resultShape_range (hk o ho)).symm
  | intervene i =>
    cases i with
    | swap a b =>
      have h := (swap_eq_ok h).2.2
      have hcarries := carries_relayout h
      exact ⟨hcarries.ast, hcarries.buffers_eq, hcarries.unrolled, relayout_shapes h⟩
    | unroll axis amount =>
      obtain ⟨-, split, hsplit, -, rfl⟩ := unroll_eq_ok h
      have hcarries := carries_relayout hsplit
      exact ⟨hcarries.ast, hcarries.buffers_eq, congrArg (· + 1) hcarries.unrolled,
        relayout_shapes hsplit⟩

/-- Whatever accepted changes have led from the kernel of a tree to this one, a further change is
made to the whole of it, or the kernel stays exactly as it is: its tree, its buffers and trackers,
and its count of unrolled axes. -/
theorem Edited.all_or_nothing {ast : Ast} {output : Buffer} (hstart : ofAst ast output = .ok start)
    (h : start.Edited (fun _ _ => True) k) (e : LayoutEdit) :
    match exec e.perform k with
    | (.ok (), k') => e.apply k = .ok k' ∧ e.Completed k k'
    | (.error cause, k') => e.apply k = .error cause ∧ k' = k := by
  have hcommits := e.commits k
  have happly := e.apply_eq_after k
  rw [after_eq] at happly
  rcases hexec : exec e.perform k with ⟨cause | ⟨⟩, k'⟩
  · rw [hexec] at happly
    exact ⟨happly, hcommits cause k' hexec⟩
  · rw [hexec] at happly
    exact ⟨happly, (h.aligned (consistent_ofAst hstart).aligned).completed happly⟩

/-- The output axes have been exchanged. A split of the axis that is summed along by 4 goes through
for the output, which has size 1 there, and not for the input, which has size 6: nothing is changed.
A split by 3 is made as a whole. -/
theorem all_or_nothing_innerSum :
    ∃ k k' error, innerSum.Edited (fun _ _ => True) k ∧
      exec (LayoutEdit.perform (.intervene (.unroll 2 4))) k = (.error (.refused error), k) ∧
      exec (LayoutEdit.perform (.intervene (.unroll 2 3))) k = (.ok (), k') ∧
      LayoutEdit.Completed (.intervene (.unroll 2 3)) k k' := by
  obtain ⟨k, hk⟩ : ∃ k, LayoutEdit.apply innerSum (.intervene (.swap 0 1)) = .ok k := ⟨_, rfl⟩
  have hedited : innerSum.Edited (fun _ _ => True) k := .step .start trivial hk
  obtain ⟨error, hrefused⟩ : ∃ error,
      LayoutEdit.apply k (.intervene (.unroll 2 4)) = .error (.refused error) := by
    cases hk
    exact ⟨_, rfl⟩
  obtain ⟨k', happlied⟩ : ∃ k', LayoutEdit.apply k (.intervene (.unroll 2 3)) = .ok k' := by
    cases hk
    exact ⟨_, rfl⟩
  have hnothing := hedited.all_or_nothing ofAst_innerSumTree (.intervene (.unroll 2 4))
  have hall := hedited.all_or_nothing ofAst_innerSumTree (.intervene (.unroll 2 3))
  refine ⟨k, k', error, hedited, ?_, ?_⟩
  · rcases hexec : exec (LayoutEdit.perform (.intervene (.unroll 2 4))) k with ⟨cause | ⟨⟩, k₁⟩
    · rw [hexec, hrefused] at hnothing
      obtain ⟨hcause, rfl⟩ := hnothing
      rw [Except.error.inj hcause]
    · rw [hexec, hrefused] at hnothing
      cases hnothing.1
  · rcases hexec : exec (LayoutEdit.perform (.intervene (.unroll 2 3))) k with ⟨cause | ⟨⟩, k₁⟩
    · rw [hexec, happlied] at hall
      cases hall.1
    · rw [hexec, happlied] at hall
      obtain ⟨hsame, hcompleted⟩ := hall
      obtain rfl := Except.ok.inj hsame
      exact ⟨rfl, hcompleted⟩

end Kernel

end TensorLoom
