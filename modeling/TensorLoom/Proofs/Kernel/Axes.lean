import TensorLoom.Proofs.Kernel.Lowering
import TensorLoom.Proofs.Layout.Accepted

/-!
# The sizes of a kernel's axes

What a change of the layout does to the sizes of the axes does not depend on where the operands
read. A reshape or a permutation that is accepted gives an operand the shape that it asks for, so
the operands of a kernel broadcast to its iteration space in every layout (`Kernel.Shaped`).

The axes that are not unrolled are those that the output spans, followed by the reduced ones
(`Kernel.Ordered`). Lowering arranges them so. Exchanges of two axes of one kind keep the
arrangement, and so do splits (`Kernel.Ordered.swap`, `Kernel.Ordered.unroll`).
-/

namespace TensorLoom

open Intervention (exchange parts splitShape split_eq_ok axisMap_split)

/-! ## Changes of the layout -/

namespace Kernel

variable {k k' : Kernel}

/-- A movement of every operand changes the shapes as the movements say. -/
theorem Shaped.moveOperands (hk : k.Shaped) {movement : List Nat → Checked Movement}
    {f : List Nat → List Nat}
    (hmove : ∀ o ∈ k.operands, ∀ m, movement o.shape = .ok m →
      m.Keeps ∧ m.resultShape o.shape = f o.shape)
    (h : k.moveOperands movement = .ok k') :
    List.Forall₂ (fun o o' => o'.shape = f o.shape ∧ ∀ d ∈ o'.shape, 0 < d)
      k.operands k'.operands ∧ k'.unrolled = k.unrolled := by
  obtain ⟨-, hu, hmoved⟩ := moveOperands_eq_ok h
  refine ⟨List.forall₂_iff_get.mpr ⟨hmoved.length_eq, fun i hi hi' => ?_⟩, hu⟩
  have ho := List.getElem_mem hi
  obtain ⟨m, t, hm, ht, heq⟩ := (List.forall₂_iff_get.mp hmoved).2 i hi hi'
  obtain ⟨hkeeps, hresult⟩ := hmove _ ho m hm
  obtain ⟨hshape, hpos⟩ := Tracker.shape_move hkeeps ht
  rw [heq]
  exact ⟨hshape.trans hresult, hpos (hk.positive_operand ho)⟩

theorem Reshapes.refl (hk : k.Shaped) : k.Reshapes k id := ⟨hk, rfl, rfl⟩

theorem Reshapes.trans {k₁ : Kernel} {f g : List Nat → List Nat} (h : k.Reshapes k₁ f)
    (h' : k₁.Reshapes k' g) : k.Reshapes k' (g ∘ f) :=
  ⟨h'.shaped, by rw [h'.output, h.output]; rfl, by rw [h'.space, h.space]; rfl⟩

theorem Shaped.permuted {order : List Nat} (hk : k.Shaped)
    (ho : order.Perm (List.range (k.rank - k.unrolled)))
    (h : order = List.range (k.rank - k.unrolled) ∧ k' = k ∨
      k.moveOperands (fun _ => pure (.permute (k.axisOrder order))) = .ok k') :
    k.Reshapes k' (Movement.permute (k.axisOrder order)).resultShape ∧
      k'.unrolled = k.unrolled := by
  have hperm := perm_axisOrder ho
  rcases h with ⟨rfl, rfl⟩ | h
  · rw [axisOrder_range]
    exact ⟨⟨hk, (resultShape_range rfl).symm, (resultShape_range hk.length_space).symm⟩, rfl⟩
  · obtain ⟨hshapes, hu⟩ := hk.moveOperands
      (f := (Movement.permute (k.axisOrder order)).resultShape) (fun _ _ m hm => by
        obtain rfl := pure_eq_ok.mp hm
        exact ⟨.permute _, rfl⟩) h
    exact ⟨hk.reshapes (axisMap_permute hperm) hshapes (hu ▸ hk.unrolled_le), hu⟩

/-- The axes that are not unrolled are only permuted. -/
theorem Shaped.relayout_none {order : List Nat} (hk : k.Shaped)
    (h : k.relayout none order = .ok k') :
    order.Perm (List.range (k.rank - k.unrolled)) ∧
      k.Reshapes k' (Movement.permute (k.axisOrder order)).resultShape ∧
      k'.unrolled = k.unrolled := by
  obtain ⟨r, hr, -, hperm, h⟩ := relayout_eq_ok h
  obtain rfl := pure_eq_ok.mp hr
  exact ⟨hperm, hk.permuted hperm h⟩

theorem Shaped.swap {a b : Nat} (hk : k.Shaped) (h : k.after (intervene (.swap a b)) = .ok k') :
    (exchange a b (List.range (k.rank - k.unrolled))).Perm (List.range (k.rank - k.unrolled)) ∧
      k.Reshapes k' (Movement.permute (k.axisOrder
        (exchange a b (List.range (k.rank - k.unrolled))))).resultShape ∧
      k'.unrolled = k.unrolled :=
  hk.relayout_none (swap_eq_ok h).2.2

theorem Shaped.unroll {axis amount : Nat} (hk : k.Shaped)
    (h : k.after (intervene (.unroll axis amount)) = .ok k') :
    axis < k.rank - k.unrolled ∧ (k.splitAxisOrder axis).Perm (List.range (k.rank + 1)) ∧
      k.Reshapes k' ((Movement.permute (k.splitAxisOrder axis)).resultShape ∘
        splitShape axis amount) ∧
      k'.unrolled = k.unrolled + 1 := by
  obtain ⟨haxis, split, hsplit, hpos, rfl⟩ := unroll_eq_ok h
  obtain ⟨r, hr, -, hperm, hsplit⟩ := relayout_eq_ok hsplit
  obtain ⟨hshapes, hu⟩ := hk.moveOperands (f := splitShape axis amount) (fun o _ m hm => by
    obtain ⟨target, htarget, hm⟩ := bind_eq_ok.mp hm
    obtain rfl := pure_eq_ok.mp hm
    exact ⟨.reshape _, split_eq_ok htarget⟩) hr
  have hmap := axisMap_split amount (show axis < k.rank by omega)
  have hle := hk.unrolled_le
  have hreshapes := hk.reshapes hmap hshapes (by omega)
  have hrank := hreshapes.rank hmap
  have horder := axisOrder_splitOrder hle hrank hu axis
  rw [← hu] at hperm hsplit horder
  obtain ⟨hpermuted, hu'⟩ := hreshapes.shaped.permuted hperm hsplit
  have horderPerm := perm_axisOrder hperm
  rw [horder, hrank] at horderPerm
  rw [horder] at hpermuted
  have hboth := hreshapes.trans hpermuted
  refine ⟨haxis, horderPerm, ⟨⟨hboth.shaped.broadcasts, hboth.shaped.positive, ?_⟩, hboth.output,
    hboth.space⟩, ?_⟩
  · show split.unrolled + 1 ≤ split.rank
    omega
  · show split.unrolled + 1 = k.unrolled + 1
    rw [hu', hu]

end Kernel

/-! ## The order of the axes -/

namespace Kernel

variable {k k' : Kernel}

/-- Of the axes that are not unrolled the output spans the leading ones and has size 1 on the
others. -/
def Ordered (k : Kernel) : Prop :=
  ∃ t ≤ k.rank - k.unrolled, (∀ i < t, k.output.shape.getD i 1 = k.space.getD i 1) ∧
    ∀ i, t ≤ i → i < k.rank - k.unrolled → k.output.shape.getD i 1 = 1

/-- The number of leading axes that the output spans. -/
theorem spanned_eq_ok (hk : k.Shaped) {spanned : Nat} (h : k.spanned = .ok spanned) :
    spanned ≤ k.rank - k.unrolled ∧
      (∀ i < spanned, k.output.shape.getD i 1 = k.space.getD i 1) ∧
      (spanned < k.rank - k.unrolled →
        k.output.shape.getD spanned 1 ≠ k.space.getD spanned 1) := by
  obtain ⟨loops, hloops, h⟩ := bind_eq_ok.mp h
  obtain ⟨rfl, hle⟩ := loops_eq_ok hloops
  obtain rfl := pure_eq_ok.mp h
  have hlength := hk.length_space
  have hlen : ((k.output.shape.zip k.space).take (k.rank - k.unrolled)).length =
      k.rank - k.unrolled := by
    rw [List.length_take, List.length_zip, hlength, rank]
    omega
  have hget : ∀ i (hi : i < ((k.output.shape.zip k.space).take (k.rank - k.unrolled)).length),
      ((k.output.shape.zip k.space).take (k.rank - k.unrolled))[i] =
        (k.output.shape.getD i 1, k.space.getD i 1) := by
    intro i hi
    have hi' : i < k.rank := by omega
    rw [List.getElem_take, List.getElem_zip, List.getD_eq_getElem _ _ hi',
      List.getD_eq_getElem _ _ (hlength ▸ hi')]
    rfl
  generalize (k.output.shape.zip k.space).take (k.rank - k.unrolled) = axes at hlen hget ⊢
  generalize hfind : axes.findIdx? _ = found
  cases found with
  | none =>
    rw [Option.getD_none]
    refine ⟨Nat.le_refl _, fun i hi => ?_, fun h => absurd h (Nat.lt_irrefl _)⟩
    have hi := hlen ▸ hi
    have := List.findIdx?_eq_none_iff.mp hfind _ (List.getElem_mem hi)
    simpa [hget i hi] using this
  | some n =>
    obtain ⟨hn, hne, hlt⟩ := List.findIdx?_eq_some_iff_getElem.mp hfind
    rw [Option.getD_some]
    refine ⟨by omega, fun i hi => ?_, fun _ => ?_⟩
    · simpa [hget i (Nat.lt_trans hi hn)] using hlt i hi
    · simpa [hget n hn] using hne

/-- In an ordered kernel the axes behind those that the output spans are reduced. -/
theorem Ordered.reduced (ho : k.Ordered) (hk : k.Shaped) {spanned : Nat}
    (h : k.spanned = .ok spanned) {i : Nat} (hi : spanned ≤ i) (hi' : i < k.rank - k.unrolled) :
    k.output.shape.getD i 1 = 1 := by
  obtain ⟨t, ht, hspans, hreduced⟩ := ho
  obtain ⟨-, -, hne⟩ := spanned_eq_ok hk h
  refine hreduced i ?_ hi'
  by_contra hlt
  exact hne (by omega) (hspans spanned (by omega))

theorem getD_axisOrder_of_lt {order : List Nat} {i : Nat} (hi : i < order.length) :
    (k.axisOrder order).getD i 0 = order.getD i 0 := by
  rw [axisOrder, List.getD_append _ _ _ _ hi]

/-- Axes that the output spans, followed by axes that it has size 1 on, are arranged. -/
theorem Shaped.ordered_append {spans ones : List Nat} (hk : k.Shaped)
    (hspans : ∀ i ∈ spans, k.output.shape.getD i 1 = k.space.getD i 1)
    (hones : ∀ i ∈ ones, k.output.shape.getD i 1 = 1)
    (h : k.relayout none (spans ++ ones) = .ok k') : k'.Ordered := by
  obtain ⟨hperm, hshapes, hu⟩ := hk.relayout_none h
  have hmap := axisMap_permute (perm_axisOrder hperm)
  have hlen := hperm.length_eq
  rw [List.length_range, List.length_append] at hlen
  have hrank : k'.rank - k'.unrolled = k.rank - k.unrolled := by rw [hshapes.rank hmap, hu]
  refine ⟨spans.length, by omega, fun i hi => ?_, fun i hi hi' => ?_⟩
  · obtain ⟨hout, hspace⟩ := hshapes.getD hk hmap (i := i) (by omega)
    rw [hout, hspace, getD_axisOrder_of_lt (by rw [List.length_append]; omega),
      List.getD_append _ _ _ _ hi, List.getD_eq_getElem _ _ hi]
    exact hspans _ (List.getElem_mem hi)
  · obtain ⟨hout, -⟩ := hshapes.getD hk hmap (i := i) (by omega)
    have hi'' : i - spans.length < ones.length := by omega
    rw [hout, getD_axisOrder_of_lt (by rw [List.length_append]; omega),
      List.getD_append_right _ _ _ _ hi, List.getD_eq_getElem _ _ hi'']
    exact hones _ (List.getElem_mem hi'')

/-- Putting the reduced axes last arranges the axes. -/
theorem Shaped.ordered_putReducedLast (hk : k.Shaped) (h : k.putReducedLast = .ok k') :
    k'.Ordered := by
  have hlength := hk.length_space
  have hentries : ∀ i ∈ List.range k.space.length,
      k.output.shape[i]? = some (k.output.shape.getD i 1) ∧
        k.space[i]? = some (k.space.getD i 1) :=
    fun i hi => hk.getElem?_eq (List.mem_range.mp hi)
  have hspans : ∀ i ∈ (List.range k.space.length).filter (not ∘ fun i =>
      decide (k.output.shape[i]? = some 1) && decide (k.space[i]? ≠ some 1)),
      k.output.shape.getD i 1 = k.space.getD i 1 := by
    intro i hi
    obtain ⟨hi, hnot⟩ := List.mem_filter.mp hi
    obtain ⟨hout, hspace⟩ := hentries i hi
    have := (hk.broadcasts _ (mem_output k)).spans i
    rw [Function.comp_apply, hout, hspace] at hnot
    simp only [Option.some.injEq, ne_eq, Bool.not_eq_true', Bool.and_eq_false_iff,
      decide_eq_false_iff_not, not_not] at hnot
    omega
  have hones : ∀ i ∈ (List.range k.space.length).filter (fun i =>
      decide (k.output.shape[i]? = some 1) && decide (k.space[i]? ≠ some 1)),
      k.output.shape.getD i 1 = 1 := by
    intro i hi
    obtain ⟨hi, hboth⟩ := List.mem_filter.mp hi
    rw [(hentries i hi).1] at hboth
    simp only [Option.some.injEq, Bool.and_eq_true, decide_eq_true_eq] at hboth
    exact hboth.1
  unfold Kernel.putReducedLast at h
  dsimp only at h
  rw [List.partition_eq_filter_filter] at h
  dsimp only at h
  split at h
  · rename_i hempty
    obtain rfl := pure_eq_ok.mp h
    refine ⟨k.rank - k.unrolled, Nat.le_refl _, fun i hi => hspans i ?_, fun i hi hi' => by omega⟩
    have hmem : i ∈ List.range k.space.length := List.mem_range.mpr (by omega)
    refine List.mem_filter.mpr ⟨hmem, ?_⟩
    have hnot := List.filter_eq_nil_iff.mp (List.isEmpty_iff.mp hempty) i hmem
    rw [Function.comp_apply, Bool.not_eq_true']
    exact Bool.not_eq_true _ ▸ hnot
  · exact hk.ordered_append hspans hones h

/-- Where the sizes of an axis come from after an exchange. -/
theorem Shaped.getD_swap {a b : Nat} (hk : k.Shaped)
    (h : k.after (intervene (.swap a b)) = .ok k') {i : Nat} (hi : i < k.rank - k.unrolled) :
    k'.output.shape.getD i 1 =
        k.output.shape.getD (if i = a then b else if i = b then a else i) 1 ∧
      k'.space.getD i 1 = k.space.getD (if i = a then b else if i = b then a else i) 1 := by
  obtain ⟨hperm, hshapes, -⟩ := hk.swap h
  have horigin : (k.axisOrder (exchange a b (List.range (k.rank - k.unrolled)))).getD i 0 =
      if i = a then b else if i = b then a else i := by
    have hi' : i < (exchange a b (List.range (k.rank - k.unrolled))).length := by
      rwa [hperm.length_eq, List.length_range]
    rw [getD_axisOrder_of_lt hi', List.getD_eq_getElem _ _ hi']
    simp [exchange]
  rw [← horigin]
  exact hshapes.getD hk (axisMap_permute (perm_axisOrder hperm)) (by omega)

/-- An exchange changes neither the number of axes nor how many are unrolled. -/
theorem Shaped.rank_swap {a b : Nat} (hk : k.Shaped)
    (h : k.after (intervene (.swap a b)) = .ok k') :
    k'.rank = k.rank ∧ k'.unrolled = k.unrolled :=
  let ⟨hperm, hshapes, hu⟩ := hk.swap h
  ⟨hshapes.rank (axisMap_permute (perm_axisOrder hperm)), hu⟩

/-- An exchange of two spanned axes, or of two reduced ones, keeps the arrangement. -/
theorem Ordered.swap {a b spanned : Nat} (ho : k.Ordered) (hk : k.Shaped)
    (hspanned : k.spanned = .ok spanned) (hab : a < spanned ↔ b < spanned)
    (h : k.after (intervene (.swap a b)) = .ok k') : k'.Ordered := by
  obtain ⟨hrank, hu⟩ := hk.rank_swap h
  obtain ⟨ha, hb, -⟩ := swap_eq_ok h
  obtain ⟨hle, hspans, -⟩ := spanned_eq_ok hk hspanned
  refine ⟨spanned, by rw [hrank, hu]; exact hle, fun i hi => ?_, fun i hi hi' => ?_⟩
  · obtain ⟨hout, hspace⟩ := hk.getD_swap h (i := i) (by omega)
    rw [hout, hspace]
    refine hspans _ ?_
    split
    · omega
    · split <;> omega
  · rw [hrank, hu] at hi'
    rw [(hk.getD_swap h hi').1]
    refine ho.reduced hk hspanned ?_ ?_
    · split
      · omega
      · split <;> omega
    · split
      · omega
      · split <;> omega

/-- An axis of the output that is not a unit axis can be exchanged only with another one that the
output spans, or else the axes are no longer arranged. -/
theorem Ordered.swap_iff {a b spanned : Nat} (ho : k.Ordered) (hk : k.Shaped)
    (hspanned : k.spanned = .ok spanned) (ha : a < spanned) (hwide : k.output.shape.getD a 1 ≠ 1)
    (h : k.after (intervene (.swap a b)) = .ok k') : k'.Ordered ↔ b < spanned := by
  refine ⟨fun hordered => ?_, fun hb => ho.swap hk hspanned ⟨fun _ => hb, fun _ => ha⟩ h⟩
  by_contra hb
  obtain ⟨hrank, hu⟩ := hk.rank_swap h
  obtain ⟨-, hbl, -⟩ := swap_eq_ok h
  obtain ⟨hle, -, hne⟩ := spanned_eq_ok hk hspanned
  have hne := hne (by omega)
  obtain ⟨t, ht, hspans, hreduced⟩ := hordered
  -- the output has the wide axis in the place of a reduced one, which so has to be spanned
  have hbt : b < t := by
    by_contra hbt
    have hone := hreduced b (by omega) (by omega)
    rw [(hk.getD_swap h hbl).1, if_neg (by omega), if_pos rfl] at hone
    exact hwide hone
  -- but the first reduced axis is now in front of it, or has been put there
  by_cases hbs : b = spanned
  · obtain ⟨hout, hspace⟩ := hk.getD_swap h (i := a) (by omega)
    have := hspans a (by omega)
    rw [hout, hspace, if_pos rfl, hbs] at this
    exact hne this
  · obtain ⟨hout, hspace⟩ := hk.getD_swap h (i := spanned) (by omega)
    have := hspans spanned (by omega)
    rw [hout, hspace, if_neg (by omega), if_neg (by omega)] at this
    exact hne this

/-- The axes after a split that are not the inner part keep their order. -/
theorem splitOrder_eq {loops axis : Nat} (h : axis < loops) :
    splitOrder loops axis = List.range (axis + 1) ++
      (List.range' (axis + 2) (loops - (axis + 1)) ++ [axis + 1]) := by
  have hsplit : List.range (loops + 1) = List.range (axis + 1) ++
      (axis + 1) :: List.range' (axis + 2) (loops - (axis + 1)) := by
    rw [← range_append_range' (show axis + 1 ≤ loops + 1 by omega),
      show loops + 1 - (axis + 1) = loops - (axis + 1) + 1 by omega, List.range'_succ]
  have hbefore : (List.range (axis + 1)).filter (· ≠ axis + 1) = List.range (axis + 1) :=
    List.filter_eq_self.mpr fun i hi => by
      have := List.mem_range.mp hi
      simp
      omega
  have hbehind : (List.range' (axis + 2) (loops - (axis + 1))).filter (· ≠ axis + 1) =
      List.range' (axis + 2) (loops - (axis + 1)) :=
    List.filter_eq_self.mpr fun i hi => by
      have := (List.mem_range'_1.mp hi).1
      simp
      omega
  rw [splitOrder, hsplit, List.filter_append, hbefore, List.filter_cons_of_neg (by simp), hbehind,
    List.append_assoc]

theorem getD_splitOrder {loops axis i : Nat} (h : axis < loops) (hi : i < loops) :
    (splitOrder loops axis).getD i 0 = if i ≤ axis then i else i + 1 := by
  rw [splitOrder_eq h]
  split
  · rw [List.getD_append _ _ _ _ (by rw [List.length_range]; omega),
      List.getD_eq_getElem _ _ (by rw [List.length_range]; omega), List.getElem_range]
  · rw [List.getD_append_right _ _ _ _ (by rw [List.length_range]; omega), List.length_range,
      List.getD_append _ _ _ _ (by rw [List.length_range']; omega),
      List.getD_eq_getElem _ _ (by rw [List.length_range']; omega), List.getElem_range']
    omega

/-- A split keeps the arrangement. -/
theorem Ordered.unroll {axis amount : Nat} (ho : k.Ordered) (hk : k.Shaped)
    (h : k.after (intervene (.unroll axis amount)) = .ok k') : k'.Ordered := by
  obtain ⟨haxis, hperm, hshapes, hu⟩ := hk.unroll h
  have hle := hk.unrolled_le
  have hbelow : ∀ p < k.rank + 1, (k.splitAxisOrder axis).getD p 0 < k.rank + 1 := by
    intro p hp
    have hp' : p < (k.splitAxisOrder axis).length := by rwa [hperm.length_eq, List.length_range]
    rw [List.getD_eq_getElem _ _ hp']
    exact List.mem_range.mp (hperm.mem_iff.mp (List.getElem_mem hp'))
  have haxis' : axis < k.rank := by omega
  have hmap := (Intervention.axisMap_split amount haxis').comp (axisMap_permute hperm) hbelow
  have hget : ∀ i < k.rank - k.unrolled,
      (k'.output.shape.getD i 1 = if i = axis then
        (Intervention.parts amount (k.output.shape.getD i 1)).1 else k.output.shape.getD i 1) ∧
      k'.space.getD i 1 = if i = axis then
        (Intervention.parts amount (k.space.getD i 1)).1 else k.space.getD i 1 := by
    intro i hi
    have horder : (k.splitAxisOrder axis).getD i 0 = if i ≤ axis then i else i + 1 := by
      rw [splitAxisOrder, List.getD_append, getD_splitOrder haxis hi]
      rw [splitOrder_eq haxis]
      simp only [List.length_append, List.length_range, List.length_range', List.length_singleton]
      omega
    obtain ⟨hout, hspace⟩ := hshapes.getD hk hmap (i := i) (by omega)
    rw [hout, hspace, Function.comp_apply, horder]
    rcases Nat.lt_trichotomy i axis with hlt | rfl | hgt
    · simp [Nat.le_of_lt hlt, Nat.ne_of_lt hlt, show i ≠ axis + 1 by omega]
    · simp
    · simp [Nat.not_le.mpr hgt, show i ≠ axis by omega, show i + 1 ≠ axis by omega,
        show ¬ i + 1 ≤ axis by omega]
  obtain ⟨t, ht, hspans, hreduced⟩ := ho
  refine ⟨t, by rw [hshapes.rank hmap, hu]; omega, fun i hi => ?_, fun i hi hi' => ?_⟩
  · rw [(hget i (by omega)).1, (hget i (by omega)).2, hspans i hi]
  · rw [hshapes.rank hmap, hu] at hi'
    rw [(hget i (by omega)).1, hreduced i hi (by omega)]
    split <;> rfl

/-- An intervention that leaves each axis among those of its kind. -/
def KeepsKinds (k : Kernel) : Intervention → Prop
  | .swap a b => ∃ spanned, k.spanned = .ok spanned ∧ (a < spanned ↔ b < spanned)
  | .unroll _ _ => True

/-- Interventions that leave each axis among those of its kind keep the arrangement. -/
theorem Ordered.intervene {i : Intervention} (ho : k.Ordered) (hk : k.Shaped)
    (hi : k.KeepsKinds i) (h : k.after (Kernel.intervene i) = .ok k') : k'.Ordered := by
  cases i with
  | swap a b =>
    obtain ⟨spanned, hspanned, hab⟩ := hi
    exact ho.swap hk hspanned hab h
  | unroll axis amount => exact ho.unroll hk h

/-- An intervention changes the shapes of all operands and the space alike. -/
theorem Shaped.reshapes_intervene {i : Intervention} (hk : k.Shaped)
    (h : k.after (Kernel.intervene i) = .ok k') : ∃ f, k.Reshapes k' f := by
  cases i with
  | swap a b => exact ⟨_, (hk.swap h).2.1⟩
  | unroll axis amount => exact ⟨_, (hk.unroll h).2.2.1⟩

theorem Shaped.intervene {i : Intervention} (hk : k.Shaped)
    (h : k.after (Kernel.intervene i) = .ok k') : k'.Shaped :=
  let ⟨_, hshapes⟩ := hk.reshapes_intervene h
  hshapes.shaped

end Kernel

end TensorLoom
