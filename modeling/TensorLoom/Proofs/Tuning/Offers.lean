import TensorLoom.Proofs.Source.Launch
import Mathlib.Algebra.Order.BigOperators.Group.List
import Mathlib.Tactic.IntervalCases

/-!
# Offered interventions apply

What a kernel is offered is exactly what `Kernel.Offers` says
(`Kernel.Shaped.exists_interventions`), and an offered intervention is never refused: an exchange is
a permutation of the axes, and a split is offered only where it divides the size of its axis for
every operand (`Kernel.Shaped.intervene_meets`). It changes neither the number of elements of an
operand nor that of the iteration space (`Kernel.Retunes`).
-/

namespace TensorLoom

namespace Intervention

/-- The number of axes that an intervention unrolls. -/
def unrolls : Intervention → Nat
  | swap _ _ => 0
  | unroll _ _ => 1

theorem exchange_perm {a b n : Nat} (ha : a < n) (hb : b < n) :
    (exchange a b (List.range n)).Perm (List.range n) := by
  have hswap : exchange a b (List.range n) = (List.range n).map (Equiv.swap a b) :=
    List.map_congr_left fun i _ => (Equiv.swap_apply_def a b i).symm
  have hlt : ∀ i, Equiv.swap a b i < n ↔ i < n := fun i => by
    rw [Equiv.swap_apply_def]
    split
    · omega
    · split <;> omega
  rw [hswap]
  refine (List.perm_ext_iff_of_nodup (List.nodup_range.map (Equiv.swap a b).injective)
    List.nodup_range).mpr fun i => ?_
  rw [List.mem_map, List.mem_range]
  constructor
  · rintro ⟨j, hj, rfl⟩
    exact (hlt j).mpr (List.mem_range.mp hj)
  · exact fun hi => ⟨_, List.mem_range.mpr ((hlt i).mpr hi), Equiv.swap_apply_self a b i⟩

theorem split_eq {axis amount : Nat} {shape : List Nat} (ha : axis < shape.length)
    (hamount : amount ≠ 0) : split axis amount shape = .ok (splitShape axis amount shape) := by
  rw [split, splitShape, parts, Kernel.entry_eq_getD ha 1]
  generalize shape.getD axis 1 = size
  by_cases h : 1 < size
  · simp [h, Word.div_eq hamount, bind, Except.bind, pure, Except.pure]
  · simp [h, bind, Except.bind, pure, Except.pure]

/-- Where a split is offered the parts of a size make up the size. -/
theorem parts_mul_of_isSplit {sizes : List Nat} {amount d : Nat} (h : isSplit sizes amount = true)
    (hd : d ∈ sizes) (hpos : 0 < d) : (parts amount d).1 * (parts amount d).2 = d := by
  rw [isSplit, Bool.and_eq_true, List.all_eq_true] at h
  have := h.2 d hd
  rw [Bool.or_eq_true, decide_eq_true_eq, decide_eq_true_eq] at this
  unfold parts
  split
  · exact Nat.div_mul_cancel (Nat.dvd_of_mod_eq_zero (by omega))
  · show 1 * 1 = d
    omega

theorem ne_zero_of_mem_amounts {amount : Nat} (h : amount ∈ amounts) : amount ≠ 0 := by
  rintro rfl
  exact absurd h (by decide)

end Intervention

open Intervention (exchange parts splitShape isSplit amounts axisMap_split)

namespace Kernel

variable {k k' : Kernel}

/-! ## What is offered -/

/-- An exchange of two axes that the output spans, or of two that it does not; or a split that
divides the size of its axis for every operand. -/
def Offers (k : Kernel) : Intervention → Prop
  | .swap a b => ∃ spanned, k.spanned = .ok spanned ∧ a < b ∧
      (b < spanned ∨ spanned ≤ a ∧ b < k.rank - k.unrolled)
  | .unroll axis amount => axis < k.rank - k.unrolled ∧ amount ∈ amounts ∧
      isSplit (k.trackers.map (·.shape.getD axis 1)) amount = true

/-- The splits that are offered of one axis. -/
def splitsOf (k : Kernel) (axis : Nat) : List Intervention :=
  (amounts.filter (isSplit (k.trackers.map (·.shape.getD axis 1)))).map (.unroll axis)

theorem Aligned.splits_eq (hk : k.Aligned) {axis : Nat} (h : axis < k.rank - k.unrolled) :
    (do
      let sizes ← k.trackers.mapM fun t => entry t.shape axis
      return (amounts.filter (isSplit sizes)).map (.unroll axis) : Checked (List Intervention)) =
      .ok (k.splitsOf axis) := by
  rw [mapM_eq_ok_of_forall (g := (·.shape.getD axis 1)) fun t ht => ?_]
  · rfl
  obtain ⟨o, ho, rfl⟩ := List.mem_map.mp ht
  have hrank : o.tracker.shape.length = k.rank := hk o ho
  exact entry_eq_getD (by omega) 1

/-- The interventions offered are exchanges on either side of the axes that the output spans, then
the splits of each axis. -/
theorem Aligned.interventions_eq (hk : k.Aligned) (hle : k.unrolled ≤ k.rank) {spanned : Nat}
    (h : k.spanned = .ok spanned) :
    k.interventions = .ok (Intervention.swapsBetween 0 spanned ++
      Intervention.swapsBetween spanned (k.rank - k.unrolled) ++
        ((List.range (k.rank - k.unrolled)).map k.splitsOf).flatten) :=
  bind_eq_ok.mpr ⟨spanned, h, bind_eq_ok.mpr ⟨_, loops_of_le hle, bind_eq_ok.mpr
    ⟨_, mapM_eq_ok_of_forall fun _ haxis => hk.splits_eq (List.mem_range.mp haxis), rfl⟩⟩⟩

theorem mem_splitsOf {i : Intervention} {axis : Nat} : i ∈ k.splitsOf axis ↔
    ∃ amount ∈ amounts, isSplit (k.trackers.map (·.shape.getD axis 1)) amount = true ∧
      .unroll axis amount = i := by
  simp only [splitsOf, List.mem_map, List.mem_filter, and_assoc]

theorem length_swapsBetween_le (first stop : Nat) :
    (Intervention.swapsBetween first stop).length ≤ (stop - first) * (stop - first) := by
  rw [Intervention.swapsBetween, List.length_flatMap]
  refine (List.sum_le_card_nsmul _ (stop - first) fun n hn => ?_).trans_eq (by simp)
  obtain ⟨a, ha, rfl⟩ := List.mem_map.mp hn
  rw [List.length_map, List.length_range']
  rw [List.mem_range'_1] at ha
  omega

/-- What is offered is no more than three splits of each axis and an exchange of it with each. -/
theorem Shaped.length_interventions_le (hk : k.Shaped) {is : List Intervention}
    (h : k.interventions = .ok is) :
    is.length ≤ (k.rank - k.unrolled) * (k.rank - k.unrolled + 3) := by
  obtain ⟨spanned, hspanned⟩ := hk.exists_spanned
  have hle := (spanned_eq_ok hk hspanned).1
  obtain rfl := Except.ok.inj (h.symm.trans (hk.aligned.interventions_eq hk.unrolled_le hspanned))
  generalize k.rank - k.unrolled = loops at hle ⊢
  have hsplits : ((List.range loops).map k.splitsOf).flatten.length ≤ loops * 3 := by
    rw [List.length_flatten, List.map_map]
    refine (List.sum_le_card_nsmul _ 3 fun n hn => ?_).trans_eq (by simp)
    obtain ⟨axis, -, rfl⟩ := List.mem_map.mp hn
    rw [Function.comp_apply, splitsOf, List.length_map]
    exact List.length_filter_le _ _
  have hbelow := length_swapsBetween_le 0 spanned
  have habove := length_swapsBetween_le spanned loops
  obtain ⟨rest, rfl⟩ := Nat.exists_eq_add_of_le hle
  rw [Nat.sub_zero] at hbelow
  rw [Nat.add_sub_cancel_left] at habove
  rw [List.length_append, List.length_append]
  simp only [Nat.add_mul, Nat.mul_add]
  omega

theorem Shaped.exists_interventions (hk : k.Shaped) :
    ∃ is, k.interventions = .ok is ∧ ∀ i, i ∈ is ↔ k.Offers i := by
  obtain ⟨spanned, hspanned⟩ := hk.exists_spanned
  refine ⟨_, hk.aligned.interventions_eq hk.unrolled_le hspanned, fun i => ?_⟩
  have hle := (spanned_eq_ok hk hspanned).1
  simp only [List.mem_append, mem_swapsBetween, List.mem_flatten, List.mem_map, List.mem_range]
  cases i with
  | swap a b =>
    constructor
    · rintro ((⟨_, _, h, hab⟩ | ⟨_, _, h, hab⟩) | ⟨_, ⟨axis, _, rfl⟩, h⟩)
      · cases h
        exact ⟨spanned, hspanned, by omega, by omega⟩
      · cases h
        exact ⟨spanned, hspanned, by omega, by omega⟩
      · obtain ⟨_, -, -, h⟩ := mem_splitsOf.mp h
        cases h
    · rintro ⟨spanned', hspanned', hab, h⟩
      obtain rfl := Except.ok.inj (hspanned.symm.trans hspanned')
      rcases h with h | h
      · exact .inl (.inl ⟨a, b, rfl, by omega⟩)
      · exact .inl (.inr ⟨a, b, rfl, by omega⟩)
  | unroll axis amount =>
    constructor
    · rintro ((⟨_, _, h, _⟩ | ⟨_, _, h, _⟩) | ⟨_, ⟨axis', haxis, rfl⟩, h⟩)
      · cases h
      · cases h
      · obtain ⟨_, hamount, hsplit, h⟩ := mem_splitsOf.mp h
        cases h
        exact ⟨haxis, hamount, hsplit⟩
    · rintro ⟨haxis, hamount, hsplit⟩
      exact .inr ⟨_, ⟨axis, haxis, rfl⟩, mem_splitsOf.mpr ⟨amount, hamount, hsplit, rfl⟩⟩

/-! ## How it applies -/

/-- An attempt goes on from the number of axes that are not unrolled. -/
theorem Shaped.bind_loops {α : Type} {f : Nat → Attempt KernelError α}
    {allowed : Stop KernelError → Prop} {P : α → Prop} (hk : k.Shaped)
    (h : Meets (f (k.rank - k.unrolled)) allowed P) :
    Meets ((liftM k.loops : Attempt KernelError Nat) >>= f) allowed P := by
  refine .bind (P := (· = k.rank - k.unrolled)) (.of_eq_ok (liftM_eq_ok.mpr hk.loops_eq) rfl) ?_
  rintro _ rfl
  exact h

theorem Shaped.checkAxis_eq (hk : k.Shaped) {axis : Nat} (h : axis < k.rank - k.unrolled) :
    k.checkAxis axis = .ok () :=
  bind_eq_ok.mpr ⟨_, liftM_eq_ok.mpr hk.loops_eq, if_pos h⟩

theorem splitOrder_perm {loops axis : Nat} (h : axis < loops) :
    (splitOrder loops axis).Perm (List.range (loops + 1)) := by
  rw [splitOrder_eq h, ← range_append_range' (show axis + 1 ≤ loops + 1 by omega),
    show loops + 1 - (axis + 1) = loops - (axis + 1) + 1 by omega, List.range'_succ]
  exact (List.perm_append_singleton _ _).append_left _

/-- The sizes of an axis that is split, for an operand. -/
theorem Offers.parts_mul {axis amount : Nat} (h : k.Offers (.unroll axis amount)) (hk : k.Shaped)
    {o : Operand} (ho : o ∈ k.operands) :
    (parts amount (o.shape.getD axis 1)).1 * (parts amount (o.shape.getD axis 1)).2 =
      o.shape.getD axis 1 :=
  Intervention.parts_mul_of_isSplit h.2.2
    (List.mem_map.mpr ⟨o.tracker, List.mem_map_of_mem ho, rfl⟩)
    (Shape.positive_iff_getD.mp (hk.positive_operand ho) axis)

/-- An exchange of axes that are not unrolled moves all operands. -/
theorem Shaped.swap_meets (hk : k.Shaped) {a b : Nat} (ha : a < k.rank - k.unrolled)
    (hb : b < k.rank - k.unrolled) :
    Meets (k.after (Kernel.intervene (.swap a b))) (Stop.OfSize ¬ k.Counted) k.Carries := by
  rw [after_swap]
  refine hk.bind_loops ?_
  refine .bind (P := fun _ => True) (.of_eq_ok (hk.checkAxis_eq ha) trivial) fun _ _ => ?_
  refine .bind (P := fun _ => True) (.of_eq_ok (hk.checkAxis_eq hb) trivial) fun _ _ => ?_
  exact hk.relayout_none_meets (Intervention.exchange_perm ha hb)

/-- A split that is valid for every operand moves all of them, and unrolls an axis then. -/
theorem Shaped.unroll_meets (hk : k.Shaped) {axis amount : Nat}
    (haxis : axis < k.rank - k.unrolled)
    (hsplit : ∀ o ∈ k.operands,
      Intervention.split axis amount o.shape = .ok (splitShape axis amount o.shape) ∧
        (Movement.reshape (splitShape axis amount o.shape)).Valid o.shape) :
    Meets (k.after (Kernel.intervene (.unroll axis amount))) (Stop.OfSize ¬ k.Counted)
      fun k' => ∃ r, k.Carries r ∧ k' = { r with unrolled := k.unrolled + 1 } := by
  have hle := hk.unrolled_le
  have horder : (splitOrder (k.rank - k.unrolled) axis).Perm
      (List.range (k.rank + 1 - k.unrolled)) := by
    rw [show k.rank + 1 - k.unrolled = k.rank - k.unrolled + 1 by omega]
    exact splitOrder_perm haxis
  rw [after_unroll]
  refine hk.bind_loops ?_
  refine .bind (P := fun _ => True) (.of_eq_ok (hk.checkAxis_eq haxis) trivial) fun _ _ => ?_
  refine .bind (hk.relayout_meets (axisMap_split amount (show axis < k.rank by omega))
    (by omega) hsplit horder) ?_
  rintro r ⟨hr, hrank⟩
  have hu := hr.unrolled
  have hloops : r.loops = .ok (r.rank - r.unrolled) := Word.sub_eq_ok.mpr ⟨by omega, rfl⟩
  refine .of_eq_ok (bind_eq_ok.mpr ⟨_, liftM_eq_ok.mpr hloops, if_pos (by omega)⟩) ⟨r, hr, ?_⟩
  rw [hu]

/-- An offered intervention moves all operands, and unrolls an axis if it is a split. -/
theorem Shaped.intervene_meets (hk : k.Shaped) {i : Intervention} (hi : k.Offers i) :
    Meets (k.after (Kernel.intervene i)) (Stop.OfSize ¬ k.Counted)
      fun k' => ∃ r, k.Carries r ∧ k' = { r with unrolled := k.unrolled + i.unrolls } := by
  cases i with
  | swap a b =>
    obtain ⟨spanned, hspanned, hab, hbelow⟩ := hi
    have hle := (spanned_eq_ok hk hspanned).1
    refine (hk.swap_meets (by omega) (by omega)).mono (fun _ => id) fun r hr => ⟨r, hr, ?_⟩
    rw [Intervention.unrolls, Nat.add_zero, ← hr.unrolled]
  | unroll axis amount =>
    obtain ⟨haxis, hamount, -⟩ := id hi
    refine hk.unroll_meets haxis fun o ho => ?_
    have hrank : axis < o.shape.length := by
      rw [hk.aligned o ho]
      omega
    exact ⟨Intervention.split_eq hrank (Intervention.ne_zero_of_mem_amounts hamount),
      valid_split hrank (hk.positive_operand ho) (hi.parts_mul hk ho)⟩

/-! ## What it leaves as it is -/

/-- What a change of the layout leaves as it is: the tree, the buffers, the elements of every
operand and of the iteration space, and the number of axes that are not unrolled. -/
structure Retunes (k k' : Kernel) (unrolled : Nat) : Prop where
  ast : k'.ast = k.ast
  operands : List.Forall₂ (fun o o' => o'.buffer = o.buffer ∧ o'.shape.prod = o.shape.prod)
    k.operands k'.operands
  /-- The operands have one rank, and on each axis the size of the space or 1. -/
  broadcasts : ∀ o ∈ k'.operands, Broadcasts o.shape k'.space
  space : k'.space.prod = k.space.prod
  loops : k'.loops = k.loops
  unrolled : k'.unrolled = k.unrolled + unrolled

theorem Shaped.space_intervene (hk : k.Shaped) {i : Intervention} (hi : k.Offers i)
    (h : k.after (Kernel.intervene i) = .ok k') :
    k'.space.prod = k.space.prod ∧ k'.rank - k'.unrolled = k.rank - k.unrolled := by
  have hlength := hk.length_space
  cases i with
  | swap a b =>
    obtain ⟨hperm, hshapes, hu⟩ := hk.swap h
    have hperm := perm_axisOrder hperm
    rw [hshapes.rank (axisMap_permute hperm), hu, hshapes.space]
    exact ⟨Movement.prod_permute (hlength ▸ hperm), rfl⟩
  | unroll axis amount =>
    obtain ⟨haxis, hperm, hshapes, hu⟩ := hk.unroll h
    have haxis' : axis < k.space.length := by omega
    obtain ⟨o, ho, hsize⟩ := hk.aligned.exists_getD_space axis
    have hsplit := valid_split haxis' hk.positive (hsize ▸ hi.parts_mul hk ho)
    have hsplitRank : (splitShape axis amount k.space).length = k.rank + 1 := by
      rw [Intervention.length_splitShape amount haxis', hlength]
    have hrank : k'.rank = k.rank + 1 := by
      rw [rank, hshapes.output]
      exact (axisMap_permute hperm).length_eq _
        (by rw [Intervention.length_splitShape amount (by rw [← rank]; omega), ← rank])
    rw [hrank, hu, hshapes.space, Function.comp_apply]
    refine ⟨?_, by omega⟩
    rw [Movement.prod_permute (hsplitRank ▸ hperm)]
    exact hsplit.2.symm

theorem Shaped.retunes (hk : k.Shaped) {i : Intervention} (hi : k.Offers i)
    (h : k.after (Kernel.intervene i) = .ok k') : k.Retunes k' i.unrolls := by
  obtain ⟨hspace, hloops⟩ := hk.space_intervene hi h
  have hk' := hk.intervene h
  have hloops : k'.loops = k.loops := by rw [hk'.loops_eq, hk.loops_eq, hloops]
  obtain ⟨r, hr, rfl⟩ := (hk.intervene_meets hi).of_ok h
  exact ⟨hr.ast, hr.operands.imp fun _ _ ho => ⟨ho.buffer, ho.prod⟩, hk'.broadcasts, hspace, hloops,
    rfl⟩

/-! ## After any offered interventions -/

theorem Shaped.offers_of_mem (hk : k.Shaped) {is : List Intervention} {i : Intervention}
    (h : k.interventions = .ok is) (hi : i ∈ is) : k.Offers i := by
  obtain ⟨is', h', hoffers⟩ := hk.exists_interventions
  obtain rfl := Except.ok.inj (h.symm.trans h')
  exact (hoffers i).mp hi

/-- What one offered intervention keeps. -/
theorem Shaped.kept (hk : k.Shaped) {i : Intervention} (hi : k.Offers i)
    (h : k.after (Kernel.intervene i) = .ok k') :
    k'.Shaped ∧ (k.Numbered → k'.Numbered) ∧ (k.Counted → k'.Counted) := by
  obtain ⟨r, hr, hk'⟩ := (hk.intervene_meets hi).of_ok h
  refine ⟨hk.intervene h, fun hn => ?_, fun hc => ?_⟩
  · rw [hk']
    exact hr.numbered hn
  · rw [hk']
    exact hr.counted hc

theorem Offered.kept {start : Kernel} (h : start.Offered k) (hs : start.Shaped) :
    k.Shaped ∧ (start.Numbered → k.Numbered) ∧ (start.Counted → k.Counted) := by
  induction h with
  | start => exact ⟨hs, id, id⟩
  | step _ his hi hk ih =>
    obtain ⟨hshaped, hnumbered, hcounted⟩ := ih.1.kept (ih.1.offers_of_mem his hi) hk
    exact ⟨hshaped, hnumbered ∘ ih.2.1, hcounted ∘ ih.2.2⟩

/-- The points of the iteration space are as many as before, and so are the axes that are not
unrolled. -/
theorem Offered.space_eq {start : Kernel} (h : start.Offered k) (hs : start.Shaped) :
    k.space.prod = start.space.prod ∧ k.rank - k.unrolled = start.rank - start.unrolled := by
  induction h with
  | start => exact ⟨rfl, rfl⟩
  | step hk his hi hafter ih =>
    have hshaped := (hk.kept hs).1
    obtain ⟨hspace, hloops⟩ := hshaped.space_intervene (hshaped.offers_of_mem his hi) hafter
    exact ⟨hspace.trans ih.1, hloops.trans ih.2⟩

/-- A table of unrolled indices is no larger than one of the whole iteration space. -/
theorem Offered.tableFits {start : Kernel} (h : start.Offered k) (hs : start.Shaped)
    (hfits : TableFits start.space) : TableFits k.unrolledSizes := by
  have hspace := (h.space_eq hs).1
  have hpos := (h.kept hs).1.positive
  have hprod : (k.space.take (k.rank - k.unrolled)).prod * k.unrolledSizes.prod = k.space.prod := by
    rw [unrolledSizes, ← List.prod_append, List.take_append_drop]
  have hle : k.unrolledSizes.prod ≤ k.space.prod := hprod ▸ Nat.le_mul_of_pos_left _
    (Shape.prod_pos fun d hd => hpos d (List.mem_of_mem_take hd))
  unfold TableFits at hfits ⊢
  omega

/-- Interventions are offered on every kernel that offered interventions lead to, and each of them
applies. If the table of its unrolled indices is addressable, the kernel that it leads to has a
source with a launch shape, and a device that rejects nothing compiles it as long as there is room
for the source. Otherwise it is never compiled. -/
theorem Offered.interventions_apply {ast : Ast} {output : Buffer} {start : Kernel}
    (hw : ast.WellShared) (hstart : ofAst ast output = .ok start) (hleaves : ast.Counted)
    (hlen : output.len < Word.half) (hk : start.Offered k) :
    ∃ is, k.interventions = .ok is ∧ ∀ i ∈ is, ∃ k', k.after (Kernel.intervene i) = .ok k' ∧
      k.Retunes k' i.unrolls ∧
      (TableFits k'.unrolledSizes → ∃ src launch, k'.source = .ok src ∧
        LaunchShape.ofSizes src.globalSize none = .ok launch ∧
        (Room src → ∀ (τ : Type) (d : Device τ), (∀ text, d.rejects text = false) →
          (DeviceM.exec k'.compile d).1 = .ok ⟨⟨src.name, src.text⟩, launch⟩)) ∧
      (¬ TableFits k'.unrolledSizes →
        ∀ (τ : Type) (d : Device τ), (∀ text, d.rejects text = false) →
          ∃ cause, (DeviceM.exec k'.compile d).1 = .error (.fault cause)) := by
  obtain ⟨hshaped, hnumbered, hcounted⟩ := hk.kept (ordered_ofAst hstart).1
  have hnumbered := hnumbered (numbered_ofAst hw hstart)
  have hcounted := hcounted ((ofAst_meets (resultSize_of_ofAst hstart)).of_ok hstart hleaves hlen)
  obtain ⟨is, his, hoffers⟩ := hshaped.exists_interventions
  refine ⟨is, his, fun i hi => ?_⟩
  have hi := (hoffers i).mp hi
  obtain ⟨k', hk', -⟩ := (hshaped.intervene_meets hi).exists_ok fun _ he => he.cause hcounted
  obtain ⟨hshaped', hnumbered', hcounted'⟩ := hshaped.kept hi hk'
  have hnumbered' := hnumbered' hnumbered
  refine ⟨k', hk', hshaped.retunes hi hk', fun hfits => ?_, fun hfits τ d hd => ?_⟩
  · obtain ⟨src, hsrc, -⟩ := (hshaped'.source_meets hnumbered').exists_ok fun _ he =>
      he.2 ⟨hcounted' hcounted, hfits⟩
    obtain ⟨launch, hlaunch, hcompile⟩ := hshaped'.exec_compile hsrc
    exact ⟨src, launch, hsrc, hlaunch, fun _ => hcompile⟩
  · have hmeets := hshaped'.compile_meets hnumbered' hd
    cases hexec : (DeviceM.exec k'.compile d).1 with
    | ok c => exact absurd (hmeets.of_ok hexec) hfits
    | error e =>
      cases e with
      | fault cause => exact ⟨cause, rfl⟩
      | refused e => exact (hmeets.of_error hexec).elim

/-- A tree that sums along the last axis of three. -/
def innerSumTree : Ast :=
  .node 0 (.reduce .sum [2, 3, 1]) [.leaf ⟨⟨0, 36⟩, ⟨.row [2, 3, 6], []⟩⟩]

theorem wellShared_innerSumTree : innerSumTree.WellShared := OpTree.wellShared_single _ _ _

theorem counted_innerSumTree : innerSumTree.Counted := by
  intro o ho v hv
  obtain rfl := OpTree.subtree_single ho
  obtain rfl := List.mem_singleton.mp hv
  exact ⟨by decide, by decide⟩

theorem ofAst_innerSumTree : ofAst innerSumTree ⟨1, 6⟩ = .ok innerSum :=
  (ofAst_single rfl _ _ _).trans rfl

/-- Part of the axis that is summed along is unrolled, and the output axes are exchanged. -/
theorem interventions_apply_innerSum :
    ∃ k is k' src launch, innerSum.after (Kernel.intervene (.unroll 2 2)) = .ok k ∧
      k.interventions = .ok is ∧ .swap 0 1 ∈ is ∧
      k.after (Kernel.intervene (.swap 0 1)) = .ok k' ∧ k.Retunes k' 0 ∧
      k'.source = .ok src ∧ ∀ d : Device Float, (∀ text, d.rejects text = false) →
        (DeviceM.exec k'.compile d).1 = .ok ⟨⟨src.name, src.text⟩, launch⟩ := by
  obtain ⟨k, hk⟩ : ∃ k, innerSum.after (Kernel.intervene (.unroll 2 2)) = .ok k := ⟨_, rfl⟩
  have hoffered : innerSum.Offered k := .step .start rfl (by decide) hk
  obtain ⟨is, his, happly⟩ := hoffered.interventions_apply wellShared_innerSumTree
    ofAst_innerSumTree counted_innerSumTree (by decide)
  have hswap : .swap 0 1 ∈ is := by
    cases hk
    cases his
    decide
  obtain ⟨k', hk', hretunes, hfits, -⟩ := happly _ hswap
  have hsizes : k'.unrolledSizes = [2] := by
    cases hk
    cases hk'
    rfl
  obtain ⟨src, launch, hsrc, -, hcompile⟩ := hfits (by rw [hsizes]; decide)
  have hroom : Room src := by
    obtain ⟨src', hsrc', hlines, htext⟩ : ∃ src', k'.source = .ok src' ∧ src'.lines.length = 10 ∧
        src'.text.utf8ByteSize < 1000 := by
      cases hk
      cases hk'
      simp only [source, name, reduction?, reduced?, innerSum, OpTree.find?, OpTree.nodes,
        OpTree.walk_single]
      exact ⟨_, rfl, rfl, by decide +kernel⟩
    obtain rfl := Except.ok.inj (hsrc.symm.trans hsrc')
    unfold Room Word.half
    omega
  exact ⟨k, is, k', src, launch, hk, his, hswap, hk', hretunes, hsrc, hcompile hroom Float⟩

/-! ## Tables that are too large -/

/-- A kernel that sums `2 ^ 60` repetitions of one element, of which the innermost `8 ^ n` have been
unrolled. -/
def repeatedSum (n : Nat) : Kernel where
  ast := .node 0 (.reduce .sum [1]) [.leaf 1]
  output := ⟨⟨1, 1⟩, ⟨.row (List.replicate (n + 1) 1), []⟩⟩
  inputs := [⟨⟨0, 1⟩, match n with
    | 0 => ⟨⟨0, [.full (8 ^ 20) 0]⟩, []⟩
    | n + 1 => ⟨.row (8 ^ (19 - n) :: List.replicate (n + 1) 8), [⟨0, [.full (8 ^ 20) 0]⟩]⟩⟩]
  unrolled := n

theorem offered_repeatedSum {n : Nat} (h : n ≤ 20) : (repeatedSum 0).Offered (repeatedSum n) := by
  induction n with
  | zero => exact .start
  | succ n ih =>
    have hn : n < 20 := h
    have hstep : (repeatedSum n).interventions = .ok [.unroll 0 2, .unroll 0 4, .unroll 0 8] ∧
        (repeatedSum n).after (Kernel.intervene (.unroll 0 8)) = .ok (repeatedSum (n + 1)) := by
      interval_cases n <;> exact ⟨rfl, rfl⟩
    exact .step (ih (by omega)) hstep.1 (by decide) hstep.2

/-- An intervention may lead to a kernel that cannot be compiled. The elements of its operands are
counted, but the table of its unrolled indices is too large. -/
theorem not_forall_interventions_compile :
    ¬ ∀ (ast : Ast) (output : Buffer) (start k : Kernel), ast.WellShared →
      ofAst ast output = .ok start → ast.Counted → output.len < Word.half → start.Offered k →
      ∃ is, k.interventions = .ok is ∧ ∀ i ∈ is, ∃ k', k.after (Kernel.intervene i) = .ok k' ∧
        k.Retunes k' i.unrolls ∧
        ∀ (τ : Type) (d : Device τ), (∀ text, d.rejects text = false) →
          ∃ c, (DeviceM.exec k'.compile d).1 = .ok c := by
  intro h
  have hstart : ofAst (.node 0 (.reduce .sum [1])
      [.leaf ⟨⟨0, 1⟩, ⟨⟨0, [.full (8 ^ 20) 0]⟩, []⟩⟩]) ⟨1, 1⟩ = .ok (repeatedSum 0) :=
    (ofAst_single rfl _ _ _).trans rfl
  have hshared : OpTree.WellShared (α := Operand) (.node 0 (.reduce .sum [1])
      [.leaf ⟨⟨0, 1⟩, ⟨⟨0, [.full (8 ^ 20) 0]⟩, []⟩⟩]) := OpTree.wellShared_single _ _ _
  have hleaves : Ast.Counted (.node 0 (.reduce .sum [1])
      [.leaf ⟨⟨0, 1⟩, ⟨⟨0, [.full (8 ^ 20) 0]⟩, []⟩⟩]) := by
    intro o ho
    obtain rfl := OpTree.subtree_single ho
    intro v hv
    obtain rfl := List.mem_singleton.mp hv
    exact ⟨by decide, by decide⟩
  obtain ⟨is, his, happly⟩ := h _ _ _ _ hshared hstart hleaves (by decide)
    (offered_repeatedSum (n := 19) (by decide))
  cases his
  obtain ⟨k', hk', -, hcompile⟩ := happly (.unroll 0 8) (by decide)
  obtain rfl : repeatedSum 20 = k' := Except.ok.inj hk'
  obtain ⟨c, hc⟩ := hcompile Float (.new .sourceLength (fun _ => false) 1) fun _ => rfl
  obtain ⟨hshaped, hnumbered, -⟩ :=
    (offered_repeatedSum (Nat.le_refl 20)).kept (ordered_ofAst hstart).1
  have hfits := (hshaped.compile_meets (hnumbered (numbered_ofAst hshared hstart))
    fun _ => rfl).of_ok hc
  revert hfits
  decide

end Kernel

end TensorLoom
