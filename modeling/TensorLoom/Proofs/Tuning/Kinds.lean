import TensorLoom.Proofs.Kernel.Axes
import TensorLoom.Proofs.OpTree.MapLeaves

/-!
# Output axes and reduced axes while tuning

The kernel of a tree has the axes that its output spans first, then those that it reduces, and the
unrolled ones last (`Kernel.AxisLayout`). This does not depend on what the operands read, so it
holds of the kernel of every tree. It survives every intervention that leaves each axis among those
of its kind: every split, and an exchange of two output axes or of two reduced ones
(`Kernel.Tuned.axisLayout`).

An exchange is accepted for any two axes that are not unrolled, though. Where it puts an output axis
in the place of a reduced one, the layout is lost (`Kernel.Ordered.swap_iff`).
-/

namespace TensorLoom

namespace Kernel

variable {k k' start : Kernel}

/-! ## The kernel of a tree -/

/-- Operands that broadcast to the space of the inputs. -/
theorem shaped_of_inputs {full : List Nat} (hb : ∀ o ∈ k.inputs, Broadcasts o.shape full)
    (hattained : ∀ i, ∃ o ∈ k.inputs, o.shape.getD i 1 = full.getD i 1)
    (hout : Broadcasts k.output.shape full) (hpos : ∀ d ∈ full, 0 < d)
    (hu : k.unrolled ≤ k.rank) : k.Shaped ∧ k.space = full := by
  have hall : ∀ o ∈ k.operands, Broadcasts o.shape full := by
    intro o ho
    rcases List.mem_cons.mp ho with rfl | ho
    · exact hout
    · exact hb o ho
  obtain ⟨-, hspace⟩ := space_eq hall
    (fun i => let ⟨o, ho, hi⟩ := hattained i; ⟨o, List.mem_cons_of_mem _ ho, hi⟩) hpos
  exact ⟨⟨hspace ▸ hall, hspace ▸ hpos, hu⟩, hspace⟩

theorem Shaped.lt_rank_of_mem_keptAxes (hk : k.Shaped) {i : Nat} (hi : i ∈ k.keptAxes) :
    i < k.rank :=
  hk.length_space ▸ lt_length_of_mem_keptAxes hi

/-- There are no unit axes to drop, or else every shape is squeezed, and the axes that are kept stay
in some order. -/
theorem Shaped.dropUnitAxes_eq_ok (hk : k.Shaped) (hu : k.unrolled = 0)
    (h : k.dropUnitAxes = .ok k') :
    (k.keptAxes.length = k.space.length ∧ k' = k) ∨
      ∃ r axes, k.Reshapes r k.squeezed ∧ axes.Perm (List.range r.rank) ∧
        r.Reshapes k' (Movement.permute axes).resultShape := by
  unfold Kernel.dropUnitAxes at h
  dsimp only at h
  split at h
  · exact .inl ⟨‹_›, (pure_eq_ok.mp h).symm⟩
  obtain ⟨r, hr, -, hperm, h⟩ := relayout_eq_ok h
  obtain ⟨hshapes, hu'⟩ := hk.moveOperands (f := k.squeezed) (fun o _ m hm => by
    obtain rfl := squeeze_eq_ok o.shape hm
    exact ⟨.reshape _, rfl⟩) hr
  have hreshapes : k.Reshapes r k.squeezed :=
    hk.reshapes (axisMap_select fun _ => hk.lt_rank_of_mem_keptAxes) hshapes
      (by rw [hu', hu]; exact Nat.zero_le _)
  rw [← hu'] at hperm h
  exact .inr ⟨r, _, hreshapes, perm_axisOrder hperm, (hreshapes.shaped.permuted hperm h).1⟩

theorem Shaped.dropUnitAxes (hk : k.Shaped) (hu : k.unrolled = 0) (h : k.dropUnitAxes = .ok k') :
    ∃ f, k.Reshapes k' f := by
  rcases hk.dropUnitAxes_eq_ok hu h with ⟨-, rfl⟩ | ⟨r, axes, hr, -, h⟩
  · exact ⟨id, .refl hk⟩
  · exact ⟨_, hr.trans h⟩

theorem Shaped.putReducedLast (hk : k.Shaped) (h : k.putReducedLast = .ok k') :
    ∃ f, k.Reshapes k' f := by
  unfold Kernel.putReducedLast at h
  dsimp only at h
  split at h
  · exact ⟨id, pure_eq_ok.mp h ▸ .refl hk⟩
  · exact ⟨_, (hk.relayout_none h).2.1⟩

/-- The kernel of a tree before its axes are rearranged. -/
theorem shaped_initial (output : Buffer) {root : Ast} {full : List Nat} {tracker : Tracker}
    (hspace : Ast.spaceOf root.leaves = .ok full)
    (hout : Broadcasts (Ast.resultShape root full) full)
    (htracker : tracker.shape = Ast.resultShape root full) :
    { initial root full output with output := ⟨output, tracker⟩ }.Shaped ∧
      { initial root full output with output := ⟨output, tracker⟩ }.space = full := by
  obtain ⟨hb, hattained, hpos⟩ := Ast.spaceOf_eq_ok hspace
  exact shaped_of_inputs (fun o ho => hb o (List.mem_eraseDups.mp ho))
    (fun i => let ⟨o, ho, hi⟩ := hattained i; ⟨o, List.mem_eraseDups.mpr ho, hi⟩)
    (show Broadcasts tracker.shape full from htracker.symm ▸ hout) hpos (Nat.zero_le _)

/-- The kernel of a tree has its axes arranged, whatever the trackers of its leaves read. -/
theorem ordered_ofAst {ast : Ast} {output : Buffer} (h : ofAst ast output = .ok k) :
    k.Shaped ∧ k.Ordered := by
  obtain ⟨full, tracker, k₁, -, hspace, hout, -, htracker, hk₁, hk⟩ := ofAst_stages h
  obtain ⟨hstart, -⟩ := shaped_initial output hspace hout (Tracker.shape_ofShape htracker)
  obtain ⟨f, hf⟩ := hstart.dropUnitAxes rfl hk₁
  obtain ⟨g, hg⟩ := hf.shaped.putReducedLast hk
  exact ⟨hg.shaped, hf.shaped.ordered_putReducedLast hk⟩

/-! ## The layout of the axes -/

/-- The axes of a kernel in three runs: on the leading ones the output has the size of the space, on
the others up to `loops` it has size 1, and the ones behind are unrolled. -/
structure AxisLayout (k : Kernel) (spanned loops : Nat) : Prop where
  spanned_le : spanned ≤ loops
  loops_le : loops ≤ k.rank
  spans : ∀ i < spanned, k.output.shape[i]? = k.space[i]?
  reduced : ∀ i, spanned ≤ i → i < loops → k.output.shape[i]? = some 1
  unrolled : ∀ i, loops ≤ i → i < k.rank →
    k.output.shape[i]? = some 1 ∨ k.output.shape[i]? = k.space[i]?

/-- The runs end where the kernel says that they do. -/
theorem Ordered.exists_axisLayout (ho : k.Ordered) (hk : k.Shaped) :
    ∃ spanned loops, k.spanned = .ok spanned ∧ k.loops = .ok loops ∧
      k.AxisLayout spanned loops := by
  have hloops := loops_of_le hk.unrolled_le
  obtain ⟨spanned, hspanned⟩ := exists_spanned_of_le hk.unrolled_le
  obtain ⟨hle, hspans, -⟩ := spanned_eq_ok hk hspanned
  have hlength := hk.length_space
  -- on every axis the entries of the two shapes are their sizes there
  have hentries : ∀ i < k.rank, k.output.shape[i]? = some (k.output.shape.getD i 1) ∧
      k.space[i]? = some (k.space.getD i 1) := by
    intro i hi
    rw [List.getD_eq_getElem _ _ hi, List.getD_eq_getElem _ _ (hlength ▸ hi)]
    exact ⟨List.getElem?_eq_getElem hi, List.getElem?_eq_getElem (hlength ▸ hi)⟩
  refine ⟨spanned, _, hspanned, hloops, hle, Nat.sub_le _ _, fun i hi => ?_, fun i hi hi' => ?_,
    fun i _ hi => ?_⟩
  · obtain ⟨hout, hspace⟩ := hentries i (by omega)
    rw [hout, hspace, hspans i hi]
  · rw [(hentries i (by omega)).1, ho.reduced hk hspanned hi hi']
  · obtain ⟨hout, hspace⟩ := hentries i hi
    rw [hout, hspace, Option.some.injEq, Option.some.injEq]
    exact (hk.broadcasts _ (mem_output k)).spans i

/-- The kernels that interventions lead to which leave each axis among those of its kind. -/
inductive Tuned (start : Kernel) : Kernel → Prop
  | start : Tuned start start
  | step {k k' : Kernel} {i : Intervention} :
      Tuned start k → k.KeepsKinds i → k.after (intervene i) = .ok k' → Tuned start k'

theorem Tuned.ordered (ht : start.Tuned k) (hs : start.Shaped) (ho : start.Ordered) :
    k.Shaped ∧ k.Ordered := by
  induction ht with
  | start => exact ⟨hs, ho⟩
  | step _ hi hk ih => exact ⟨ih.1.intervene hk, ih.2.intervene ih.1 hi hk⟩

/-- The axes stay in their runs under all interventions that do not mix the kinds. -/
theorem Tuned.axisLayout {ast : Ast} {output : Buffer} (h : ofAst ast output = .ok start)
    (ht : start.Tuned k) :
    ∃ spanned loops, k.spanned = .ok spanned ∧ k.loops = .ok loops ∧
      k.AxisLayout spanned loops := by
  obtain ⟨hs, ho⟩ := ordered_ofAst h
  obtain ⟨hshaped, hordered⟩ := ht.ordered hs ho
  exact hordered.exists_axisLayout hshaped

/-- A kernel that sums along the last axis of three. -/
def innerSum : Kernel :=
  ⟨.node 0 (.reduce .sum [2, 3, 1]) [.leaf 1], ⟨⟨1, 6⟩, ⟨.row [2, 3, 1], []⟩⟩,
    [⟨⟨0, 36⟩, ⟨.row [2, 3, 6], []⟩⟩], 0⟩

/-- The two outer axes are exchanged, and the last one is split by an amount that is not offered. -/
theorem axisLayout_innerSum :
    ∃ k, ofAst (.node 0 (.reduce .sum [2, 3, 1]) [.leaf ⟨⟨0, 36⟩, ⟨.row [2, 3, 6], []⟩⟩]) ⟨1, 6⟩ =
        .ok innerSum ∧
      innerSum.Tuned k ∧ k.unrolled = 1 ∧ ∃ spanned loops, k.spanned = .ok spanned ∧
        k.loops = .ok loops ∧ k.AxisLayout spanned loops := by
  have hstart : ofAst (.node 0 (.reduce .sum [2, 3, 1])
      [.leaf ⟨⟨0, 36⟩, ⟨.row [2, 3, 6], []⟩⟩]) ⟨1, 6⟩ = .ok innerSum :=
    (ofAst_single rfl _ _ _).trans rfl
  have hswap : innerSum.KeepsKinds (.swap 0 1) := ⟨2, rfl, by decide⟩
  have htuned : innerSum.Tuned _ := .step (i := .unroll 2 3) (.step .start hswap rfl) trivial rfl
  exact ⟨_, hstart, htuned, rfl, htuned.axisLayout hstart⟩

/-- Exchanges that mix the kinds are accepted too. Where the rows of a matrix are summed, the axis
of the rows can be exchanged with the one that is summed along. Then the output spans no leading
axis, and has two elements on an axis behind. -/
theorem not_forall_axisLayout :
    ¬ ∀ ast output start k (is : List Intervention), ofAst ast output = .ok start →
      start.after (is.forM intervene) = .ok k → ∃ spanned loops, k.spanned = .ok spanned ∧
        k.loops = .ok loops ∧ k.AxisLayout spanned loops := by
  intro h
  have hstart : ofAst (.node 0 (.reduce .sum [2, 1]) [.leaf ⟨⟨0, 6⟩, ⟨.row [2, 3], []⟩⟩]) ⟨1, 2⟩ =
      .ok ⟨.node 0 (.reduce .sum [2, 1]) [.leaf 1], ⟨⟨1, 2⟩, ⟨.row [2, 1], []⟩⟩,
        [⟨⟨0, 6⟩, ⟨.row [2, 3], []⟩⟩], 0⟩ :=
    (ofAst_single rfl _ _ _).trans rfl
  obtain ⟨spanned, loops, hspanned, hloops, hlayout⟩ := h _ _ _ _ [.swap 0 1] hstart rfl
  obtain rfl : 0 = spanned := Except.ok.inj hspanned
  obtain rfl : 2 = loops := Except.ok.inj hloops
  have hwide := hlayout.reduced 1 (by decide) (by decide)
  revert hwide
  decide

end Kernel

end TensorLoom
