import TensorLoom.Proofs.Kernel.Relayout

/-!
# Layouts that keep the order of the indices

Two changes of layout that lowering makes keep the row-major order, as far as it matters to a fold.
Dropping the unit axes of a space keeps the position of every index (`Shape.position_restore`), so
all indices stay in order. Permuting the axes does not, but indices that an output does not tell
apart differ on reduced axes only, and these stay in order if the reduced axes do
(`Shape.Precedes.relabel_permute`).
-/

namespace TensorLoom

open Shape (InRange indices)

namespace Shape

/-! ## Maps that keep the position -/

/-- Numbering the indices of a shape by those of another one in order, if positions are kept. -/
theorem map_indices_eq {s s' : List Nat} {φ : List Nat → List Nat} (hs : s'.prod = s.prod)
    (h : ∀ idx, InRange idx s' → InRange (φ idx) s ∧ position s (φ idx) = position s' idx) :
    (indices s').map φ = indices s := by
  rw [indices_eq s, indices_eq s', List.map_map, hs]
  refine List.map_congr_left fun p hp => ?_
  have hp : p < s'.prod := hs ▸ List.mem_range.mp hp
  obtain ⟨hin, hpos⟩ := h _ (mem_indices.mp (List.mem_of_getElem? (getElem?_indices hp)))
  rw [Function.comp_apply, ← indexAt_position hin, hpos, position_indexAt hp]

/-- The index with the given entries on the axes that `squeeze` keeps, and 0 on unit axes. -/
def restore : (space idx : List Nat) → List Nat
  | [], _ => []
  | f :: space, idx =>
    if f = 1 then 0 :: restore space idx else idx.headD 0 :: restore space idx.tail

section UnitAxes

variable {shape space idx : List Nat}

theorem prod_squeeze (h : List.Forall₂ (fun d f => d = 1 ∨ d = f) shape space) :
    (squeeze space shape).prod = shape.prod := by
  induction h with
  | nil => rfl
  | @cons d f shape space hd _ ih =>
    by_cases hf : f = 1
    · rw [squeeze, if_pos hf, List.prod_cons, ih, hd.elim id fun e => e.trans hf, Nat.one_mul]
    · rw [squeeze, if_neg hf, List.prod_cons, List.prod_cons, ih]

theorem position_restore (h : List.Forall₂ (fun d f => d = 1 ∨ d = f) shape space)
    (idx : List Nat) : position shape (restore space idx) = position (squeeze space shape) idx := by
  induction h generalizing idx with
  | nil => rfl
  | @cons d f shape space _ h ih =>
    by_cases hf : f = 1
    · rw [restore, squeeze, if_pos hf, if_pos hf, position, ih, Nat.zero_mul, Nat.zero_add]
    · rw [restore, squeeze, if_neg hf, if_neg hf, position, ih]
      cases idx with
      | nil => cases squeeze space shape <;> simp [position]
      | cons i idx => rw [position, prod_squeeze h, List.headD_cons, List.tail_cons]

theorem inRange_restore (h : List.Forall₂ (fun d f => d = 1 ∨ d = f) shape space)
    (hi : InRange idx (squeeze space shape)) : InRange (restore space idx) shape := by
  induction h generalizing idx with
  | nil => exact .nil
  | @cons d f shape space hd _ ih =>
    by_cases hf : f = 1
    · rw [squeeze, if_pos hf] at hi
      rw [restore, if_pos hf]
      exact .cons (by omega) (ih hi)
    · rw [squeeze, if_neg hf] at hi
      rw [restore, if_neg hf]
      cases hi with
      | cons hi hrest => exact .cons hi (ih hrest)

/-- Sending an index to a smaller shape may wait until the unit axes are there again. -/
theorem restore_broadcast (h : List.Forall₂ (fun d f => d = 1 ∨ d = f) shape space)
    (hi : idx.length = (squeeze space shape).length) :
    restore space (broadcastIndex idx (squeeze space shape)) =
      broadcastIndex (restore space idx) shape := by
  induction h generalizing idx with
  | nil => rfl
  | @cons d f shape space hd _ ih =>
    by_cases hf : f = 1
    · rw [squeeze, if_pos hf] at hi
      rw [squeeze, restore, restore, if_pos hf, if_pos hf, if_pos hf, ih hi, broadcastIndex,
        broadcastIndex, List.zipWith_cons_cons, ite_self]
    · rw [squeeze, if_neg hf] at hi
      rw [squeeze, restore, restore, if_neg hf, if_neg hf, if_neg hf]
      cases idx with
      | nil => cases hi
      | cons i idx => exact congrArg _ (ih (Nat.succ.inj hi))

theorem length_squeeze (h : shape.length = space.length) :
    (squeeze space shape).length = (squeeze space space).length := by
  induction space generalizing shape with
  | nil => rw [List.length_eq_zero_iff.mp h]
  | cons f space ih =>
    cases shape with
    | nil => cases h
    | cons d shape =>
      have ih := ih (Nat.succ.inj h)
      by_cases hf : f = 1
      · rwa [squeeze, squeeze, if_pos hf, if_pos hf]
      · rw [squeeze, squeeze, if_neg hf, if_neg hf, List.length_cons, List.length_cons, ih]

/-- If there are unit axes only, no entry is taken. -/
theorem restore_of_squeeze_eq_nil (hs : squeeze space space = []) (idx : List Nat) :
    restore space idx = restore space [] := by
  induction space with
  | nil => rfl
  | cons f space ih =>
    rw [squeeze] at hs
    by_cases hf : f = 1
    · rw [if_pos hf] at hs
      rw [restore, restore, if_pos hf, if_pos hf, ih hs]
    · rw [if_neg hf] at hs
      cases hs

/-- The sizes of a shape on the axes that are not unit axes of a space. -/
theorem map_getD_filter (h : shape.length = space.length) :
    ((List.range space.length).filter fun i => space[i]? ≠ some 1).map (shape.getD · 1) =
      squeeze space shape := by
  induction space generalizing shape with
  | nil => rw [List.length_eq_zero_iff.mp h]; rfl
  | cons f space ih =>
    cases shape with
    | nil => cases h
    | cons d shape =>
      rw [List.length_cons, List.range_succ_eq_map, squeeze, ← ih (Nat.succ.inj h)]
      by_cases hf : f = 1
      · rw [List.filter_cons_of_neg (by simp [hf]), if_pos hf, List.filter_map, List.map_map]
        rfl
      · rw [List.filter_cons_of_pos (by simp [hf]), if_neg hf, List.filter_map, List.map_cons,
          List.map_map]
        rfl

/-- A shape without the unit axes of a space, but with one axis at least. -/
def withoutUnits (space shape : List Nat) : List Nat :=
  if (squeeze space shape).isEmpty then [1] else squeeze space shape

theorem prod_withoutUnits (h : List.Forall₂ (fun d f => d = 1 ∨ d = f) shape space) :
    (withoutUnits space shape).prod = shape.prod := by
  rw [← prod_squeeze h, withoutUnits]
  split
  · rename_i hs
    rw [List.isEmpty_iff.mp hs]
    rfl
  · rfl

/-- The index with the unit axes again stands at the same position. -/
theorem restore_withoutUnits (h : List.Forall₂ (fun d f => d = 1 ∨ d = f) shape space)
    (hi : InRange idx (withoutUnits space shape)) :
    InRange (restore space idx) shape ∧
      position shape (restore space idx) = position (withoutUnits space shape) idx := by
  rw [withoutUnits] at hi ⊢
  split at hi
  · rename_i hs
    have hs := List.isEmpty_iff.mp hs
    have hunit : squeeze space space = [] :=
      List.length_eq_zero_iff.mp (by rw [← length_squeeze h.length_eq, hs, List.length_nil])
    rw [if_pos (List.isEmpty_iff.mpr hs), restore_of_squeeze_eq_nil hunit, position_restore h, hs]
    cases hi with
    | @cons i _ idx _ hi hrest =>
      cases hrest
      exact ⟨inRange_restore h (by rw [hs]; exact .nil), by simp [position, Nat.lt_one_iff.mp hi]⟩
  · rw [if_neg ‹_›]
    exact ⟨inRange_restore h hi, position_restore h idx⟩

theorem restore_broadcast_withoutUnits
    (h : List.Forall₂ (fun d f => d = 1 ∨ d = f) shape space)
    (hi : InRange idx (withoutUnits space space)) :
    restore space (broadcastIndex idx (withoutUnits space shape)) =
      broadcastIndex (restore space idx) shape := by
  by_cases hunit : squeeze space space = []
  · rw [restore_of_squeeze_eq_nil hunit, restore_of_squeeze_eq_nil hunit idx,
      ← restore_broadcast h (by rw [length_squeeze h.length_eq, hunit])]
    exact (restore_of_squeeze_eq_nil hunit _).symm
  · have hlen := length_squeeze h.length_eq
    have hs : squeeze space shape ≠ [] := fun e => hunit <|
      List.length_eq_zero_iff.mp (by rw [← hlen, e, List.length_nil])
    rw [withoutUnits, if_neg (by simpa using hunit)] at hi
    rw [withoutUnits, if_neg (by simpa using hs),
      restore_broadcast h (hi.length_eq.trans hlen.symm)]

end UnitAxes

/-! ## The row-major order -/

/-- An index comes before another one in row-major order. -/
def Precedes (i j : List Nat) : Prop :=
  ∃ axis, (∀ a < axis, i.getD a 0 = j.getD a 0) ∧ i.getD axis 0 < j.getD axis 0

theorem Precedes.asymm {i j : List Nat} (h : Precedes i j) : ¬ Precedes j i := by
  rintro ⟨q, hbefore', hq⟩
  obtain ⟨p, hbefore, hp⟩ := h
  rcases Nat.lt_trichotomy p q with hlt | rfl | hgt
  · exact Nat.ne_of_gt hp (hbefore' p hlt)
  · exact Nat.lt_asymm hp hq
  · exact Nat.ne_of_gt hq (hbefore q hgt)

theorem Precedes.cons {i j : List Nat} (h : Precedes i j) (a : Nat) :
    Precedes (a :: i) (a :: j) := by
  obtain ⟨p, hbefore, hp⟩ := h
  refine ⟨p + 1, fun q hq => ?_, hp⟩
  cases q with
  | zero => rfl
  | succ q => exact hbefore q (Nat.lt_of_succ_lt_succ hq)

theorem precedes_cons_of_lt {a b : Nat} (h : a < b) (i j : List Nat) :
    Precedes (a :: i) (b :: j) :=
  ⟨0, fun _ hq => absurd hq (Nat.not_lt_zero _), h⟩

/-- The indices of a shape are listed in row-major order. -/
theorem pairwise_indices (shape : List Nat) : (indices shape).Pairwise Precedes := by
  induction shape with
  | nil => exact List.pairwise_singleton _ _
  | cons d shape ih =>
    rw [indices, List.pairwise_flatMap]
    refine ⟨fun a _ => ?_, List.pairwise_lt_range.imp fun hab x hx y hy => ?_⟩
    · rw [List.pairwise_map]
      exact ih.imp fun h => h.cons a
    · obtain ⟨x, -, rfl⟩ := List.mem_map.mp hx
      obtain ⟨y, -, rfl⟩ := List.mem_map.mp hy
      exact precedes_cons_of_lt hab x y

/-- A space has several indices on an axis on which an output has one. -/
def IsReduced (out full : List Nat) (axis : Nat) : Prop :=
  out.getD axis 1 = 1 ∧ full.getD axis 1 ≠ 1

section Permuted

variable {axes full out i j : List Nat} (h : axes.Perm (List.range full.length))
  (hout : Broadcasts out full) (hi : InRange i ((Movement.permute axes).resultShape full))
  (hj : InRange j ((Movement.permute axes).resultShape full))
  (hsame : broadcastIndex i ((Movement.permute axes).resultShape out) =
    broadcastIndex j ((Movement.permute axes).resultShape out))

include h hout hi hj hsame

/-- Indices that an output does not tell apart differ on reduced axes only. -/
theorem isReduced_of_ne {p : Nat} (hp : p < axes.length) (hne : i.getD p 0 ≠ j.getD p 0) :
    IsReduced out full axes[p] := by
  have hmap := axisMap_permute h
  have hlen : axes.length = full.length := by simpa using h.length_eq
  obtain ⟨hli, hlti⟩ := inRange_iff_getD.mp hi
  obtain ⟨hlj, hltj⟩ := inRange_iff_getD.mp hj
  have hp' : p < full.length := hlen ▸ hp
  have haxis : axes.getD p 0 = axes[p] := List.getD_eq_getElem _ _ hp
  have hsame := congrArg (·.getD p 0) hsame
  rw [hmap.length_eq _ rfl] at hli hlj
  rw [Broadcasts.getD_index (by rw [hli, hmap.length_eq _ hout.rank]),
    Broadcasts.getD_index (by rw [hlj, hmap.length_eq _ hout.rank]),
    hmap.getD_eq _ hout.rank p hp', haxis] at hsame
  have hi := hlti p
  have hj := hltj p
  rw [hmap.getD_eq _ rfl p hp', haxis] at hi hj
  refine ⟨?_, fun h1 => hne (by omega)⟩
  by_contra h1
  rw [if_neg h1, if_neg h1] at hsame
  exact hne hsame

/-- They keep their order when the axes are permuted, if the reduced axes do. -/
theorem Precedes.relabel_permute
    (hsorted : axes.Pairwise fun a b => IsReduced out full a → IsReduced out full b → a < b)
    (hij : Precedes i j) :
    Precedes ((Movement.permute axes).relabel full i) ((Movement.permute axes).relabel full j) := by
  have hlen : axes.length = full.length := by simpa using h.length_eq
  have hreduced := fun q hq hne => isReduced_of_ne h hout hi hj hsame (p := q) hq hne
  obtain ⟨p, hbefore, hlt⟩ := hij
  have hp : p < axes.length := by
    have hlj := hj.length_eq.trans ((axisMap_permute h).length_eq _ rfl)
    by_contra hp
    rw [getD_of_length_le (s := j) (by omega)] at hlt
    exact absurd hlt (Nat.not_lt_zero _)
  have hnodup : axes.Nodup := h.nodup_iff.mpr List.nodup_range
  have ha : axes[p] < full.length := Movement.getElem_lt_of_perm h hp
  refine ⟨axes[p], fun a haxis => ?_, ?_⟩
  · have hafull : a < full.length := by omega
    have hq := Movement.idxOf_lt_of_perm h hafull
    have hget : axes[axes.idxOf a] = a := List.getElem_idxOf hq
    rw [Kernel.getD_relabel_permute hafull, Kernel.getD_relabel_permute hafull]
    by_contra hne
    have hred := hreduced _ hq hne
    rcases Nat.lt_trichotomy (axes.idxOf a) p with hlt' | heq | hgt
    · exact hne (hbefore _ hlt')
    · have : axes[p] = a := by simpa only [heq] using hget
      omega
    · have := List.pairwise_iff_getElem.mp hsorted _ _ hp hq hgt (hreduced p hp (Nat.ne_of_lt hlt))
        hred
      omega
  · rw [Kernel.getD_relabel_permute ha, Kernel.getD_relabel_permute ha, hnodup.idxOf_getElem p hp]
    exact hlt

end Permuted

end Shape

end TensorLoom
