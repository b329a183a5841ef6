import TensorLoom.Proofs.Layout.Folding

/-!
# Movements that keep every element

A reshape or a permutation of axes has as many indices after it as before and takes each from an
index of its own (`Movement.perm_indices`). A tracker moved so reads what it read before, in another
order (`Tracker.Moves.perm_readings`); one that lists the positions of a buffer goes on doing so.
-/

namespace TensorLoom

open Shape (InRange indexAt indices)

namespace Shape

/-- A way to number the indices of one shape by those of another of the same size. -/
theorem perm_map_indices {s s' : List Nat} {φ : List Nat → List Nat}
    (inRange : ∀ idx, InRange idx s' → InRange (φ idx) s)
    (inj : ∀ i, InRange i s' → ∀ j, InRange j s' → φ i = φ j → i = j) (hs : s'.prod = s.prod) :
    ((indices s').map φ).Perm (indices s) := by
  have hnodup : ((indices s').map φ).Nodup :=
    (nodup_indices s').map_on fun i hi j hj => inj i (mem_indices.mp hi) j (mem_indices.mp hj)
  have hsub : (indices s').map φ ⊆ indices s := by
    intro _ h
    obtain ⟨idx, hidx, rfl⟩ := List.mem_map.mp h
    exact mem_indices.mpr (inRange idx (mem_indices.mp hidx))
  refine (List.subperm_of_subset hnodup hsub).perm_of_length_le ?_
  rw [List.length_map, length_indices, length_indices, hs]

end Shape

namespace Movement

/-- The movements that keep every element and put none twice. -/
inductive Keeps : Movement → Prop
  | reshape (shape : List Nat) : Keeps (.reshape shape)
  | permute (axes : List Nat) : Keeps (.permute axes)

/-- The source of an index, for a movement that gives each index one. -/
def relabel (shape : List Nat) (m : Movement) (idx : List Nat) : List Nat :=
  (m.source shape idx).getD []

theorem Keeps.source_eq {m : Movement} (h : m.Keeps) (shape idx : List Nat) :
    m.source shape idx = some (m.relabel shape idx) := by
  cases h <;> rfl

theorem relabel_reshape (shape target idx : List Nat) :
    (Movement.reshape target).relabel shape idx = indexAt (Shape.position target idx) shape := rfl

theorem relabel_permute (shape axes idx : List Nat) :
    (Movement.permute axes).relabel shape idx =
      (List.range shape.length).map fun axis => idx.getD (axes.idxOf axis) 0 := rfl

section Permute

variable {shape axes : List Nat} (h : axes.Perm (List.range shape.length))

include h

theorem prod_permute : ((Movement.permute axes).resultShape shape).prod = shape.prod := by
  rw [resultShape, (h.map _).prod_eq, ← View.eq_map_range_getD]

theorem getElem_lt_of_perm {p : Nat} (hp : p < axes.length) : axes[p] < shape.length :=
  List.mem_range.mp (h.mem_iff.mp (List.getElem_mem hp))

theorem idxOf_lt_of_perm {axis : Nat} (ha : axis < shape.length) : axes.idxOf axis < axes.length :=
  List.idxOf_lt_length_of_mem (h.mem_iff.mpr (List.mem_range.mpr ha))

theorem relabel_permute_inRange {idx : List Nat}
    (hi : InRange idx ((Movement.permute axes).resultShape shape)) :
    InRange ((Movement.permute axes).relabel shape idx) shape := by
  rw [resultShape] at hi
  have hl : idx.length = axes.length := by rw [hi.length_eq, List.length_map]
  refine List.forall₂_iff_get.mpr ⟨by simp [relabel_permute], fun axis hs ha => ?_⟩
  have hpos := idxOf_lt_of_perm h ha
  have := (List.forall₂_iff_get.mp hi).2 (axes.idxOf axis) (hl ▸ hpos) (by simpa using hpos)
  simpa [relabel_permute, hl, hpos, ha] using this

theorem relabel_permute_inj {i j : List Nat}
    (hi : InRange i ((Movement.permute axes).resultShape shape))
    (hj : InRange j ((Movement.permute axes).resultShape shape))
    (e : (Movement.permute axes).relabel shape i = (Movement.permute axes).relabel shape j) :
    i = j := by
  have hli : i.length = axes.length := by rw [hi.length_eq, resultShape, List.length_map]
  have hlj : j.length = axes.length := by rw [hj.length_eq, resultShape, List.length_map]
  refine List.ext_getElem (hli.trans hlj.symm) fun p hp hj' => ?_
  have ha := getElem_lt_of_perm h (hli ▸ hp)
  have hp' : p < axes.length := hli ▸ hp
  have hget := congrArg (·[axes[p]]?) e
  have hnodup : axes.Nodup := h.nodup_iff.mpr List.nodup_range
  simpa [relabel_permute, ha, hnodup.idxOf_getElem, hp, hj'] using hget

end Permute

/-- The indices of the result are those of the operand, each taken once. -/
theorem perm_indices {m : Movement} (hm : m.Keeps) {shape : List Nat} (hv : m.Valid shape)
    (hp : ∀ d ∈ shape, 0 < d) :
    ((indices (m.resultShape shape)).map (m.relabel shape)).Perm (indices shape) := by
  cases hm with
  | reshape target =>
    refine Shape.perm_map_indices (fun idx _ => Shape.indexAt_inRange _ hp)
      (fun i hi j hj e => Shape.position_inj hi hj ?_) hv.2.symm
    have hlt : ∀ idx, InRange idx target → Shape.position target idx < shape.prod :=
      fun idx h => hv.2 ▸ Shape.position_lt h
    calc Shape.position target i
        = Shape.position shape ((Movement.reshape target).relabel shape i) :=
          (Shape.position_indexAt (hlt i hi)).symm
      _ = Shape.position shape ((Movement.reshape target).relabel shape j) := by rw [e]
      _ = Shape.position target j := Shape.position_indexAt (hlt j hj)
  | permute axes =>
    exact Shape.perm_map_indices (fun _ => relabel_permute_inRange hv)
      (fun _ hi _ hj => relabel_permute_inj hv hi hj) (prod_permute hv)

end Movement

namespace Tracker

variable {bound len : Nat} {t t' : Tracker} {m : Movement}

theorem Moves.read_relabel (h : Moves bound t t' m) (hm : m.Keeps) {idx : List Nat}
    (hi : InRange idx t'.shape) : t'.read idx = t.read (m.relabel t.shape idx) := by
  rw [h.read idx hi, hm.source_eq]
  rfl

/-- All the positions that a tracker reads, in the order of its indices. -/
def readings (t : Tracker) : List (Option Nat) := (indices t.shape).map t.read

/-- The same positions are read, in another order. -/
theorem Moves.perm_readings (h : Moves bound t t' m) (hm : m.Keeps) (hp : ∀ d ∈ t.shape, 0 < d) :
    t'.readings.Perm t.readings := by
  have hperm := (Movement.perm_indices hm h.valid hp).map t.read
  rw [List.map_map] at hperm
  refine List.Perm.trans (List.Perm.of_eq ?_) hperm
  rw [readings, h.shape]
  refine List.map_congr_left fun idx hi => ?_
  rw [← h.shape] at hi
  exact h.read_relabel hm (Shape.mem_indices.mp hi)

/-- A tracker reads no position outside a buffer. -/
def StaysIn (t : Tracker) (len : Nat) : Prop := ∀ n, some n ∈ t.readings → n < len

theorem StaysIn.lt (h : t.StaysIn len) {idx : List Nat} (hi : InRange idx t.shape) {n : Nat}
    (hn : t.read idx = some n) : n < len :=
  h n (List.mem_map.mpr ⟨idx, Shape.mem_indices.mpr hi, hn⟩)

theorem StaysIn.perm (h : t.StaysIn len) (hperm : t'.readings.Perm t.readings) : t'.StaysIn len :=
  fun n hn => h n (hperm.mem_iff.mp hn)

/-- A tracker reads every position of a buffer once. -/
def Enumerates (t : Tracker) (len : Nat) : Prop := t.readings.Perm ((List.range len).map some)

namespace Enumerates

theorem perm (h : t.Enumerates len) (hperm : t'.readings.Perm t.readings) : t'.Enumerates len :=
  hperm.trans h

theorem exists_read (h : t.Enumerates len) {idx : List Nat} (hi : InRange idx t.shape) :
    ∃ n < len, t.read idx = some n := by
  have hmem : t.read idx ∈ t.readings := List.mem_map_of_mem (Shape.mem_indices.mpr hi)
  obtain ⟨n, hn, e⟩ := List.mem_map.mp (h.mem_iff.mp hmem)
  exact ⟨n, List.mem_range.mp hn, e.symm⟩

theorem read_inj (h : t.Enumerates len) {i j : List Nat} (hi : InRange i t.shape)
    (hj : InRange j t.shape) (e : t.read i = t.read j) : i = j := by
  have hnodup : t.readings.Nodup :=
    h.nodup_iff.mpr (List.nodup_range.map (Option.some_injective _))
  exact List.inj_on_of_nodup_map hnodup (Shape.mem_indices.mpr hi) (Shape.mem_indices.mpr hj) e

/-- The row-major tracker of a shape lists the positions in order. -/
theorem row (shape : List Nat) : Enumerates ⟨.row shape, []⟩ shape.prod := by
  refine List.Perm.of_eq ?_
  rw [readings, show Tracker.shape ⟨.row shape, []⟩ = shape from View.shape_row shape,
    Shape.indices_eq, List.map_map]
  refine List.map_congr_left fun p hp => ?_
  have hp := List.mem_range.mp hp
  have hi : InRange (indexAt p shape) shape :=
    Shape.mem_indices.mp (List.mem_of_getElem? (Shape.getElem?_indices hp))
  rw [Function.comp_apply, read_row hi, Shape.position_indexAt hp]

end Enumerates

end Tracker

end TensorLoom
