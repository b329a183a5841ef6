import TensorLoom.Proofs.Kernel.Relayout

/-!
# What interventions do

An intervention that is applied permutes the axes of all operands, after splitting one of them if it
unrolls (`Kernel.Sound.swap`, `Kernel.Sound.unroll`). So it keeps a kernel sound, and the kernel
goes through the same iterations as before (`Kernel.Sound.interveneAll`).
-/

namespace TensorLoom

open Intervention (splitShape exchange)

namespace Kernel

variable {k k' : Kernel}

/-! ## Changes in sequence -/

theorem after_bind (k : Kernel) (first : KernelM Unit) (rest : Unit → KernelM Unit) :
    k.after (first >>= rest) = k.after first >>= fun k₁ => k₁.after (rest ()) := by
  simp only [after, bind, ExceptT.bind, ExceptT.mk, ExceptT.run, StateT.bind, StateT.run,
    ExceptT.bindCont]
  rcases first k with ⟨outcome, k₁⟩
  cases outcome <;> rfl

theorem after_edit (k : Kernel) (change : Kernel → Attempt KernelError Kernel) :
    k.after (edit change) = change k := by
  simp only [after, edit, ExceptT.run, ExceptT.mk, StateT.run]
  cases change k <;> rfl

theorem after_get (k : Kernel) (rest : Kernel → KernelM Unit) :
    k.after (get >>= rest) = k.after (rest k) := rfl

theorem after_attempt {α : Type} (k : Kernel) (x : Attempt KernelError α)
    (rest : α → KernelM Unit) : k.after (liftM x >>= rest) = x >>= fun a => k.after (rest a) := by
  cases x <;> rfl

theorem after_checked {α : Type} (k : Kernel) (x : Checked α) (rest : α → KernelM Unit) :
    k.after (liftM x >>= rest) =
      (liftM x : Attempt KernelError α) >>= fun a => k.after (rest a) := by
  cases x <;> rfl

/-- The order of the axes after a split: the inner part becomes the last that is not unrolled. -/
def splitOrder (loops axis : Nat) : List Nat :=
  (List.range (loops + 1)).filter (· ≠ axis + 1) ++ [axis + 1]

theorem after_swap (k : Kernel) (a b : Nat) :
    k.after (intervene (.swap a b)) = (do
      let loops ← k.loops
      k.checkAxis a
      k.checkAxis b
      k.relayout none (exchange a b (List.range loops))) := by
  rw [intervene, after_get]
  refine (after_checked ..).trans (bind_congr fun loops => ?_)
  refine (after_attempt ..).trans (bind_congr fun _ => ?_)
  refine (after_attempt ..).trans (bind_congr fun _ => ?_)
  exact after_edit ..

theorem after_unroll (k : Kernel) (axis amount : Nat) :
    k.after (intervene (.unroll axis amount)) = (do
      let loops ← k.loops
      k.checkAxis axis
      let split ← k.relayout (some (Intervention.split axis amount)) (splitOrder loops axis)
      split.unroll) := by
  rw [intervene, after_get]
  refine (after_checked ..).trans (bind_congr fun loops => ?_)
  refine (after_attempt ..).trans (bind_congr fun _ => ?_)
  rw [after_bind, after_edit]
  refine bind_congr fun _ => ?_
  exact after_edit ..

/-! ## A change of the layout -/

theorem loops_eq_ok {loops : Nat} (h : k.loops = .ok loops) :
    loops = k.rank - k.unrolled ∧ k.unrolled ≤ k.rank := by
  obtain ⟨hle, hloops⟩ := Word.sub_eq_ok.mp h
  exact ⟨hloops.symm, hle⟩

theorem loops_of_le (h : k.unrolled ≤ k.rank) : k.loops = .ok (k.rank - k.unrolled) :=
  Word.sub_eq_ok.mpr ⟨h, rfl⟩

theorem exists_spanned_of_le (h : k.unrolled ≤ k.rank) : ∃ spanned, k.spanned = .ok spanned :=
  ⟨_, bind_eq_ok.mpr ⟨_, loops_of_le h, rfl⟩⟩

theorem checkAxis_eq_ok {axis : Nat} {u : Unit} (h : k.checkAxis axis = .ok u) :
    axis < k.rank - k.unrolled := by
  obtain ⟨loops, hloops, h⟩ := bind_eq_ok.mp h
  rw [← (loops_eq_ok (liftM_eq_ok.mp hloops)).1]
  split at h
  · assumption
  · cases h

theorem relayout_eq (k : Kernel) (reshape : Option (List Nat → Checked (List Nat)))
    (order : List Nat) :
    k.relayout reshape order = (match reshape with
      | some f => k.moveOperands fun shape => return .reshape (← f shape)
      | none => pure k) >>= fun r =>
        if r.inputs.any (·.shape.length ≠ r.rank) then refuse (.invalidAxisOrder order r.rank)
        else if !Tracker.isPermutation order (r.rank - k.unrolled) then
          refuse (.invalidAxisOrder order (r.rank - k.unrolled))
        else if order = List.range (r.rank - k.unrolled) then pure r
        else r.moveOperands fun _ => pure (.permute (order ++
          List.range' (r.rank - k.unrolled) (r.rank - (r.rank - k.unrolled)))) := by
  cases reshape <;> rfl

/-- A layout is changed in two steps, the reshape first. It has to leave the operands with one
rank. -/
theorem relayout_eq_ok {reshape : Option (List Nat → Checked (List Nat))} {order : List Nat}
    (h : k.relayout reshape order = .ok k') :
    ∃ r, (match reshape with
        | some f => k.moveOperands fun shape => return .reshape (← f shape)
        | none => pure k) = .ok r ∧ r.Aligned ∧
      order.Perm (List.range (r.rank - k.unrolled)) ∧
      (order = List.range (r.rank - k.unrolled) ∧ k' = r ∨
        r.moveOperands (fun _ => pure (.permute (order ++
          List.range' (r.rank - k.unrolled) (r.rank - (r.rank - k.unrolled))))) = .ok k') := by
  rw [relayout_eq] at h
  obtain ⟨r, hr, h⟩ := bind_eq_ok.mp h
  refine ⟨r, hr, ?_⟩
  split at h
  · cases h
  rename_i hranks
  have haligned : r.Aligned := List.forall_mem_cons.mpr ⟨rfl, by simpa using hranks⟩
  refine ⟨haligned, ?_⟩
  split at h
  · cases h
  rename_i hperm
  have hperm := Tracker.isPermutation_iff.mp (by simpa using hperm)
  split at h
  · exact ⟨hperm, .inl ⟨‹_›, (pure_eq_ok.mp h).symm⟩⟩
  · exact ⟨hperm, .inr h⟩

/-- The layout is only permuted. -/
theorem Sound.relayout_none {order : List Nat} (hk : k.Sound)
    (h : k.relayout none order = .ok k') :
    order.Perm (List.range (k.rank - k.unrolled)) ∧
      k.Relaid k' (Movement.permute (k.axisOrder order)).resultShape ∧
      k'.unrolled = k.unrolled ∧ k.Relabels k' := by
  obtain ⟨r, hr, -, hperm, h⟩ := relayout_eq_ok h
  obtain rfl := pure_eq_ok.mp hr
  exact ⟨hperm, hk.permuted hperm h⟩

/-! ## The two interventions -/

/-- An exchange is a permutation of the axes. -/
theorem swap_eq_ok {a b : Nat} (h : k.after (intervene (.swap a b)) = .ok k') :
    a < k.rank - k.unrolled ∧ b < k.rank - k.unrolled ∧
      k.relayout none (exchange a b (List.range (k.rank - k.unrolled))) = .ok k' := by
  rw [after_swap] at h
  obtain ⟨loops, hloops, h⟩ := bind_eq_ok.mp h
  obtain ⟨_, ha, h⟩ := bind_eq_ok.mp h
  obtain ⟨_, hb, h⟩ := bind_eq_ok.mp h
  rw [(loops_eq_ok (liftM_eq_ok.mp hloops)).1] at h
  exact ⟨checkAxis_eq_ok ha, checkAxis_eq_ok hb, h⟩

/-- The last axis can be unrolled of those that are not. -/
theorem of_unroll (h : k.unroll = .ok k') :
    0 < k.rank - k.unrolled ∧ k' = { k with unrolled := k.unrolled + 1 } := by
  obtain ⟨loops, hloops, h⟩ := bind_eq_ok.mp h
  have hloops := loops_eq_ok (liftM_eq_ok.mp hloops)
  split at h
  · exact ⟨by omega, (pure_eq_ok.mp h).symm⟩
  · cases h

/-- A split reshapes every operand, then permutes the axes, and unrolls the last of those that are
not unrolled. -/
theorem unroll_eq_ok {axis amount : Nat} (h : k.after (intervene (.unroll axis amount)) = .ok k') :
    axis < k.rank - k.unrolled ∧ ∃ split,
      k.relayout (some (Intervention.split axis amount))
        (splitOrder (k.rank - k.unrolled) axis) = .ok split ∧
      0 < split.rank - split.unrolled ∧ k' = { split with unrolled := split.unrolled + 1 } := by
  rw [after_unroll] at h
  obtain ⟨loops, hloops, h⟩ := bind_eq_ok.mp h
  obtain ⟨_, haxis, h⟩ := bind_eq_ok.mp h
  obtain ⟨split, hsplit, h⟩ := bind_eq_ok.mp h
  rw [(loops_eq_ok (liftM_eq_ok.mp hloops)).1] at hsplit
  exact ⟨checkAxis_eq_ok haxis, split, hsplit, of_unroll h⟩

/-- An exchange permutes the axes. -/
theorem Sound.swap {a b : Nat} (hk : k.Sound) (h : k.after (intervene (.swap a b)) = .ok k') :
    (exchange a b (List.range (k.rank - k.unrolled))).Perm (List.range (k.rank - k.unrolled)) ∧
      k.Relaid k' (Movement.permute (k.axisOrder
        (exchange a b (List.range (k.rank - k.unrolled))))).resultShape ∧
      k'.unrolled = k.unrolled ∧ k.Relabels k' :=
  hk.relayout_none (swap_eq_ok h).2.2

/-- The order of all the axes after a split, of which there is one more. -/
def splitAxisOrder (k : Kernel) (axis : Nat) : List Nat :=
  splitOrder (k.rank - k.unrolled) axis ++ List.range' (k.rank - k.unrolled + 1) k.unrolled

/-- The order of the axes of a kernel whose axis is split. -/
theorem axisOrder_splitOrder {r : Kernel} (hle : k.unrolled ≤ k.rank) (hrank : r.rank = k.rank + 1)
    (hu : r.unrolled = k.unrolled) (axis : Nat) :
    r.axisOrder (splitOrder (k.rank - k.unrolled) axis) = k.splitAxisOrder axis := by
  rw [axisOrder, splitAxisOrder, hrank, hu, show k.rank + 1 - k.unrolled =
    k.rank - k.unrolled + 1 by omega, show k.rank + 1 - (k.rank - k.unrolled + 1) = k.unrolled by
    omega]

/-- A split puts its inner part behind the axes that are not unrolled, and unrolls it. -/
theorem Sound.unroll {axis amount : Nat} (hk : k.Sound)
    (h : k.after (intervene (.unroll axis amount)) = .ok k') :
    axis < k.rank - k.unrolled ∧
      (k.splitAxisOrder axis).Perm (List.range (k.rank + 1)) ∧
      k.Relaid k' ((Movement.permute (k.splitAxisOrder axis)).resultShape ∘
        splitShape axis amount) ∧
      k'.unrolled = k.unrolled + 1 ∧ k.Relabels k' := by
  obtain ⟨haxis, split, hsplit, hpos, rfl⟩ := unroll_eq_ok h
  obtain ⟨r, hr, -, hperm, hsplit⟩ := relayout_eq_ok hsplit
  obtain ⟨hrelaid, hu, hrelabels⟩ := hk.splitAxis (by omega) hr
  have hrank : r.rank = k.rank + 1 := by
    rw [rank, (List.forall₂_cons.mp hrelaid.operands).1.2.1]
    exact (Intervention.axisMap_split amount (by omega)).length_eq _ rfl
  have horder := axisOrder_splitOrder hk.unrolled_le hrank hu axis
  rw [← hu] at hperm hsplit horder
  obtain ⟨hrelaid', hu', hrelabels'⟩ := hrelaid.sound.permuted hperm hsplit
  have horderPerm := perm_axisOrder hperm
  rw [horder, hrank] at horderPerm
  rw [horder] at hrelaid'
  have hboth := hrelaid.trans hrelaid'
  have hsound := hboth.sound
  obtain ⟨φ, hφ⟩ := hrelabels.trans hrelabels'
  refine ⟨haxis, horderPerm, ⟨⟨hsound.broadcasts, hsound.within, hsound.output, ?_⟩, hboth.ast,
    hboth.space, hboth.operands⟩, ?_, φ, hφ.ast, hφ.space, hφ.result, hφ.operands⟩
  · show split.unrolled + 1 ≤ split.rank
    omega
  · show split.unrolled + 1 = k.unrolled + 1
    rw [hu', hu]

/-- An intervention keeps a kernel sound, and the kernel goes through the same iterations. -/
theorem Sound.intervene {i : Intervention} (hk : k.Sound)
    (h : k.after (Kernel.intervene i) = .ok k') : k'.Sound ∧ k.Relabels k' := by
  cases i with
  | swap a b =>
    obtain ⟨-, hrelaid, -, hrelabels⟩ := hk.swap h
    exact ⟨hrelaid.sound, hrelabels⟩
  | unroll axis amount =>
    obtain ⟨-, -, hrelaid, -, hrelabels⟩ := hk.unroll h
    exact ⟨hrelaid.sound, hrelabels⟩

/-- So do interventions in sequence. -/
theorem Sound.interveneAll {is : List Intervention} (hk : k.Sound)
    (h : k.after (is.forM Kernel.intervene) = .ok k') : k'.Sound ∧ k.Relabels k' := by
  induction is generalizing k with
  | nil =>
    obtain rfl : k = k' := Except.ok.inj h
    exact ⟨hk, .refl k⟩
  | cons i is ih =>
    rw [show (i :: is).forM Kernel.intervene =
      (Kernel.intervene i >>= fun _ => is.forM Kernel.intervene) from rfl, after_bind] at h
    obtain ⟨k₁, h₁, h⟩ := bind_eq_ok.mp h
    obtain ⟨hsound, hrelabels⟩ := hk.intervene h₁
    obtain ⟨hsound', hrelabels'⟩ := ih hsound h
    exact ⟨hsound', hrelabels.trans hrelabels'⟩

end Kernel

end TensorLoom
