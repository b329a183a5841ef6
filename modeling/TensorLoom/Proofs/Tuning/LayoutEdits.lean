import TensorLoom.Proofs.Tuning.Offers

/-!
# Kernels under any accepted change of the layout

A kernel counts its unrolled axes beside the shapes of its operands, and a reshape may change how
many axes these have. The axes that are not unrolled are the difference, which must not be negative:
everything that is asked about the axes of a kernel asks for it first.

* `Kernel.Consistent.apply`: which changes that have been accepted keep the count within the rank,
  namely all but a reshape to fewer axes than are unrolled;
* `Kernel.Edited.axes_consistent`: under any sequence of the others every question about the axes
  has an answer;
* `Kernel.not_forall_axes_consistent`: a reshape to fewer axes is accepted all the same.
-/

namespace TensorLoom

/-- A change of a kernel's layout by one call. -/
inductive LayoutEdit where
  /-- Reshape every operand, if a function of its shape is given, and permute the axes that are not
  unrolled. -/
  | relayout (reshape : Option (List Nat → Checked (List Nat))) (order : List Nat)
  /-- Unroll the last axis that is not unrolled yet. -/
  | unroll
  /-- Apply an intervention. -/
  | intervene (i : Intervention)

namespace LayoutEdit

/-- The kernel that a change leads to. -/
def apply (k : Kernel) : LayoutEdit → Attempt KernelError Kernel
  | .relayout reshape order => k.relayout reshape order
  | .unroll => k.unroll
  | .intervene i => k.after (Kernel.intervene i)

/-- A reshape leaves at least as many axes as are unrolled. -/
def KeepsUnrolled (k : Kernel) : LayoutEdit → Prop
  | .relayout (some f) _ => ∀ shape, f k.output.shape = .ok shape → k.unrolled ≤ shape.length
  | _ => True

end LayoutEdit

namespace Kernel

variable {k k' start : Kernel} {e : LayoutEdit}

/-- The operands have one rank, and no more axes are unrolled than there are. -/
structure Consistent (k : Kernel) : Prop where
  aligned : k.Aligned
  unrolled_le : k.unrolled ≤ k.rank

/-! ## One change -/

theorem aligned_of_moved {n : Nat}
    (h : List.Forall₂ (fun _ (o' : Operand) => o'.shape.length = n) k.operands k'.operands) :
    k'.Aligned ∧ k'.rank = n := by
  have hrank : k'.rank = n := (List.forall₂_cons.mp h).1
  refine ⟨fun o' ho' => ?_, hrank⟩
  obtain ⟨_, -, hn⟩ := exists_of_forall₂_right h ho'
  exact hn.trans hrank.symm

/-- A permutation leaves every operand with as many axes as it names. -/
theorem rank_permuted {axes : List Nat}
    (h : k.moveOperands (fun _ => pure (.permute axes)) = .ok k') :
    k'.Aligned ∧ k'.rank = axes.length ∧ k'.unrolled = k.unrolled := by
  obtain ⟨-, hu, hmoved⟩ := moveOperands_eq_ok h
  obtain ⟨haligned, hrank⟩ := aligned_of_moved (n := axes.length) <| hmoved.imp fun o o' ho => by
    obtain ⟨m, t, hm, ht, rfl⟩ := ho
    obtain rfl := pure_eq_ok.mp hm
    exact (congrArg List.length (Tracker.shape_move (.permute axes) ht).1).trans
      (List.length_map _)
  exact ⟨haligned, hrank, hu⟩

/-- The rank that a reshape leads to. -/
theorem rank_reshaped {f : List Nat → Checked (List Nat)}
    (h : k.moveOperands (fun shape => return .reshape (← f shape)) = .ok k') :
    (∃ shape, f k.output.shape = .ok shape ∧ k'.rank = shape.length) ∧
      k'.unrolled = k.unrolled := by
  obtain ⟨-, hu, hmoved⟩ := moveOperands_eq_ok h
  obtain ⟨m, t, hm, ht, heq⟩ := (List.forall₂_cons.mp hmoved).1
  obtain ⟨shape, hshape, hm⟩ := bind_eq_ok.mp hm
  obtain rfl := pure_eq_ok.mp hm
  refine ⟨⟨shape, hshape, ?_⟩, hu⟩
  rw [rank, heq]
  exact congrArg List.length (Tracker.shape_move (.reshape shape) ht).1

/-- A layout that has been changed has one rank, which the reshape alone decides. -/
theorem relayout_rank {reshape : Option (List Nat → Checked (List Nat))} {order : List Nat}
    (h : k.relayout reshape order = .ok k') :
    k'.Aligned ∧ k'.unrolled = k.unrolled ∧ match reshape with
      | some f => ∃ shape, f k.output.shape = .ok shape ∧ k'.rank = shape.length
      | none => k'.rank = k.rank := by
  obtain ⟨r, hr, haligned, hperm, h⟩ := relayout_eq_ok h
  have hsame : k'.Aligned ∧ k'.rank = r.rank ∧ k'.unrolled = r.unrolled := by
    rcases h with ⟨-, rfl⟩ | h
    · exact ⟨haligned, rfl, rfl⟩
    · obtain ⟨haligned', hrank, hu⟩ := rank_permuted h
      have hlength := hperm.length_eq
      rw [List.length_range] at hlength
      refine ⟨haligned', ?_, hu⟩
      rw [hrank, List.length_append, List.length_range', hlength]
      omega
  obtain ⟨haligned', hrank, hu⟩ := hsame
  cases reshape with
  | none =>
    obtain rfl := pure_eq_ok.mp hr
    exact ⟨haligned', hu, hrank⟩
  | some f =>
    obtain ⟨⟨shape, hshape, hr⟩, hu'⟩ := rank_reshaped hr
    exact ⟨haligned', hu.trans hu', shape, hshape, hrank.trans hr⟩

/-- An accepted change leads to operands of one rank. -/
theorem Aligned.apply (hk : k.Aligned) (h : e.apply k = .ok k') : k'.Aligned := by
  cases e with
  | relayout reshape order => exact (relayout_rank h).1
  | unroll =>
    obtain ⟨-, rfl⟩ := of_unroll h
    exact hk
  | intervene i =>
    cases i with
    | swap a b => exact (relayout_rank (swap_eq_ok h).2.2).1
    | unroll axis amount =>
      obtain ⟨-, split, hsplit, -, rfl⟩ := unroll_eq_ok h
      exact (relayout_rank hsplit).1

/-- An accepted change of a consistent kernel leads to operands of one rank. The axes that are
unrolled are all among theirs, unless it reshapes the operands to fewer axes. -/
theorem Consistent.apply (hk : k.Consistent) (h : e.apply k = .ok k') :
    k'.Aligned ∧ (k'.unrolled ≤ k'.rank ↔ e.KeepsUnrolled k) := by
  have hle := hk.unrolled_le
  refine ⟨hk.aligned.apply h, ?_⟩
  cases e with
  | relayout reshape order =>
    obtain ⟨-, hu, hrank⟩ := relayout_rank h
    cases reshape with
    | none => exact iff_of_true (by rw [hu, hrank]; exact hle) trivial
    | some f =>
      obtain ⟨shape, hshape, hrank⟩ := hrank
      rw [hu, hrank]
      refine ⟨fun hkept shape' hshape' => ?_, fun hkeeps => hkeeps shape hshape⟩
      obtain rfl := Except.ok.inj (hshape.symm.trans hshape')
      exact hkept
  | unroll =>
    obtain ⟨hpos, rfl⟩ := of_unroll h
    refine iff_of_true ?_ trivial
    show k.unrolled + 1 ≤ k.rank
    omega
  | intervene i =>
    cases i with
    | swap a b =>
      obtain ⟨-, hu, hrank⟩ := relayout_rank (swap_eq_ok h).2.2
      exact iff_of_true (by rw [hu, hrank]; exact hle) trivial
    | unroll axis amount =>
      obtain ⟨-, split, hsplit, hpos, rfl⟩ := unroll_eq_ok h
      refine iff_of_true ?_ trivial
      show split.unrolled + 1 ≤ split.rank
      omega

/-! ## Changes in sequence -/

/-- The kernels that accepted changes lead to, each of them of a kind that is allowed where it is
made. -/
inductive Edited (allowed : Kernel → LayoutEdit → Prop) (start : Kernel) : Kernel → Prop
  | start : Edited allowed start start
  | step {k k' : Kernel} {e : LayoutEdit} :
      Edited allowed start k → allowed k e → e.apply k = .ok k' → Edited allowed start k'

theorem Edited.aligned {allowed : Kernel → LayoutEdit → Prop} (h : start.Edited allowed k)
    (hs : start.Aligned) : k.Aligned := by
  induction h with
  | start => exact hs
  | step _ _ happly ih => exact ih.apply happly

theorem Edited.consistent (h : start.Edited LayoutEdit.KeepsUnrolled k) (hs : start.Consistent) :
    k.Consistent := by
  induction h with
  | start => exact hs
  | step _ hkeeps happly ih =>
    obtain ⟨haligned, hiff⟩ := ih.apply happly
    exact ⟨haligned, hiff.mpr hkeeps⟩

/-- The kernel of a tree has no unrolled axes. -/
theorem consistent_ofAst {ast : Ast} {output : Buffer} (h : ofAst ast output = .ok start) :
    start.Consistent :=
  let ⟨hshaped, _⟩ := ordered_ofAst h
  ⟨hshaped.aligned, hshaped.unrolled_le⟩

theorem exists_name (h : k.unrolled ≤ k.rank) : ∃ text, k.name = .ok text :=
  ⟨_, bind_eq_ok.mpr ⟨_, loops_of_le h, rfl⟩⟩

theorem Consistent.exists_interventions (hk : k.Consistent) : ∃ is, k.interventions = .ok is :=
  let ⟨_, hspanned⟩ := exists_spanned_of_le hk.unrolled_le
  ⟨_, hk.aligned.interventions_eq hk.unrolled_le hspanned⟩

/-- However a kernel has been reshaped, permuted, unrolled and tuned, by accepted changes that leave
the axes that are unrolled in place, its operands have one rank and no more axes are unrolled than
that. So the axes that are not unrolled and those that the output spans can be counted, and the
kernel has a name and interventions to be tried. A change that does not leave them in place breaks
the count. -/
theorem Edited.axes_consistent {ast : Ast} {output : Buffer} (hstart : ofAst ast output = .ok start)
    (h : start.Edited LayoutEdit.KeepsUnrolled k) :
    ((∀ o ∈ k.operands, o.shape.length = k.rank) ∧ k.unrolled ≤ k.rank) ∧
      (k.loops = .ok (k.rank - k.unrolled) ∧ (∃ spanned, k.spanned = .ok spanned) ∧
        (∃ text, k.name = .ok text) ∧ ∃ is, k.interventions = .ok is) ∧
      ∀ (e : LayoutEdit) (k' : Kernel), e.apply k = .ok k' →
        (k'.unrolled ≤ k'.rank ↔ e.KeepsUnrolled k) := by
  have hk := h.consistent (consistent_ofAst hstart)
  have hle := hk.unrolled_le
  exact ⟨⟨hk.aligned, hle⟩, ⟨loops_of_le hle, exists_spanned_of_le hle, exists_name hle,
    hk.exists_interventions⟩, fun e k' happly => (hk.apply happly).2⟩

/-- Two axes become one. -/
def mergeOuter : List Nat → Checked (List Nat)
  | a :: b :: rest => pure (a * b :: rest)
  | shape => pure shape

/-- The last axis of three is unrolled, the two others are merged, and part of what they become is
unrolled again. -/
theorem axes_consistent_innerSum :
    ∃ k, innerSum.Edited LayoutEdit.KeepsUnrolled k ∧ k.rank = 3 ∧ k.unrolled = 2 ∧
      k.loops = .ok 1 ∧ ∃ is, k.interventions = .ok is := by
  have hmerge : LayoutEdit.KeepsUnrolled { innerSum with unrolled := 1 }
      (.relayout (some mergeOuter) [0]) := by
    intro shape hshape
    cases hshape
    decide
  have hmerged : innerSum.Edited LayoutEdit.KeepsUnrolled _ :=
    .step (.step (e := .unroll) .start trivial rfl) hmerge rfl
  have hedited : innerSum.Edited LayoutEdit.KeepsUnrolled _ :=
    .step (e := .intervene (.unroll 0 2)) hmerged trivial rfl
  obtain ⟨-, ⟨hloops, -, -, hinterventions⟩, -⟩ := hedited.axes_consistent ofAst_innerSumTree
  exact ⟨_, hedited, rfl, rfl, hloops, hinterventions⟩

/-- A reshape to fewer axes than are unrolled is accepted. Both axes of a matrix are unrolled before
it is flattened, and the number of axes that are not unrolled is below zero. -/
theorem not_forall_axes_consistent :
    ¬ ∀ ast output start k, ofAst ast output = .ok start → start.Edited (fun _ _ => True) k →
      k.unrolled ≤ k.rank ∧ ∃ loops, k.loops = .ok loops := by
  intro h
  have hstart : ofAst (.node 0 (.unary .noop) [.leaf ⟨⟨0, 4⟩, ⟨.row [2, 2], []⟩⟩]) ⟨1, 4⟩ =
      .ok ⟨.node 0 (.unary .noop) [.leaf 1], ⟨⟨1, 4⟩, ⟨.row [2, 2], []⟩⟩,
        [⟨⟨0, 4⟩, ⟨.row [2, 2], []⟩⟩], 0⟩ :=
    (ofAst_single rfl _ _ _).trans rfl
  have hedited : Edited (fun _ _ => True) ⟨.node 0 (.unary .noop) [.leaf 1],
      ⟨⟨1, 4⟩, ⟨.row [2, 2], []⟩⟩, [⟨⟨0, 4⟩, ⟨.row [2, 2], []⟩⟩], 0⟩ _ :=
    .step (e := .relayout (some fun _ => pure [4]) []) (.step (e := .unroll)
      (.step (e := .unroll) .start trivial rfl) trivial rfl) trivial rfl
  have hle := (h _ _ _ _ hstart hedited).1
  revert hle
  decide

end Kernel

end TensorLoom
