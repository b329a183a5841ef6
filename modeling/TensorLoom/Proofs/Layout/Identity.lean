import TensorLoom.Proofs.Layout.Bounds
import TensorLoom.Proofs.Layout.Collapsing

/-!
# Movements that change nothing

A movement fixes a shape if it keeps the shape and takes every index from itself (`Movement.Fixes`).
Whether it does is a matter of all indices. A tracker is asked something else: whether it is a
single view with offset 0, no mask and row-major strides. Both come to the same for what a movement
makes of a row-major buffer (`Tracker.isRow_iff_fixes`), since

* such a tracker is always a single view (`Tracker.below_move`), and
* among the views with tidy axes only the row-major one reads the row-major positions
  (`View.isRow_of_read`): the first index gives the offset, the steps along one axis at a time give
  the strides, and the first and the last position of each axis exclude a mask.

Unit axes take part in none of this, because their stride is kept at 0 and they have one position.
-/

namespace TensorLoom

open Shape (InRange position indexAt rowStrides)

/-! ## The row-major view is determined by what it reads -/

namespace View

variable {axes : List Axis}

theorem inRange_indexAt_zero (h : ∀ a ∈ axes, 0 < a.size) :
    InRange (indexAt 0 (axes.map (·.size))) (axes.map (·.size)) :=
  Shape.indexAt_inRange 0 (List.forall_mem_map.mpr h)

theorem steps_indexAt_zero (axes : List Axis) : steps (indexAt 0 (axes.map (·.size))) axes = 0 := by
  induction axes with
  | nil => simp
  | cons a axes ih => simp [indexAt, ih]

/-- Bounds that admit every index leave out no position. -/
theorem covered_of_admits (hp : ∀ a ∈ axes, 0 < a.size)
    (h : ∀ idx, InRange idx (axes.map (·.size)) → admits idx axes = true) :
    ∀ a ∈ axes, a.isCovered = true := by
  induction axes with
  | nil => nofun
  | cons a axes ih =>
    have hpos := hp a List.mem_cons_self
    have hp := fun b hb => hp b (List.mem_cons_of_mem _ hb)
    have hcons : ∀ i < a.size, ∀ idx, InRange idx (axes.map (·.size)) →
        a.admits i = true ∧ admits idx axes = true := fun i hi idx hidx => by
      simpa using h (i :: idx) (.cons hi hidx)
    refine List.forall_mem_cons.mpr ⟨?_, ih hp fun idx hidx => (hcons 0 hpos idx hidx).2⟩
    obtain ⟨hfirst, -⟩ := hcons 0 hpos _ (inRange_indexAt_zero hp)
    obtain ⟨hlast, -⟩ := hcons (a.size - 1) (by omega) _ (inRange_indexAt_zero hp)
    rw [Axis.admits_iff] at hfirst hlast
    exact Axis.isCovered_iff.mpr ⟨by omega, by omega⟩

/-- The steps along the axes determine the strides of those that are not unit axes. -/
theorem strides_eq_of_steps (hp : ∀ a ∈ axes, 0 < a.size)
    (hstill : ∀ a ∈ axes, a.size = 1 → a.stride = 0)
    (h : ∀ idx, InRange idx (axes.map (·.size)) →
      steps idx axes = position (axes.map (·.size)) idx) :
    axes.map (·.stride) = rowStrides (axes.map (·.size)) := by
  induction axes with
  | nil => rfl
  | cons a axes ih =>
    have hpos := hp a List.mem_cons_self
    have hp := fun b hb => hp b (List.mem_cons_of_mem _ hb)
    have hcons : ∀ i < a.size, ∀ idx, InRange idx (axes.map (·.size)) →
        (i : Int) * a.stride + steps idx axes =
          (i * (axes.map (·.size)).prod + position (axes.map (·.size)) idx : Nat) :=
      fun i hi idx hidx => by simpa [position] using h (i :: idx) (.cons hi hidx)
    have hinner : ∀ idx, InRange idx (axes.map (·.size)) →
        steps idx axes = position (axes.map (·.size)) idx :=
      fun idx hidx => by simpa using hcons 0 hpos idx hidx
    rw [List.map_cons, List.map_cons, rowStrides,
      ih hp (fun b hb => hstill b (List.mem_cons_of_mem _ hb)) hinner]
    congr 1
    split
    · exact hstill a List.mem_cons_self ‹_›
    · -- along an axis that is not a unit axis there is a second index
      have hzero := inRange_indexAt_zero hp
      have hstep := hcons 1 (by omega) _ hzero
      rw [hinner _ hzero] at hstep
      omega

/-- A view with tidy axes that reads the row-major positions is the row-major view. -/
theorem isRow_of_read {v : View} (ht : ∀ a ∈ v.axes, a.Tidy)
    (h : ∀ idx, InRange idx v.shape → v.read idx = some (position v.shape idx : Int)) :
    v.isRow = true := by
  have hp : ∀ a ∈ v.axes, 0 < a.size := fun a ha => (ht a ha).positive
  have hread : ∀ idx, InRange idx v.shape →
      admits idx v.axes = true ∧ v.offset + steps idx v.axes = position v.shape idx := by
    intro idx hidx
    have hidx := h idx hidx
    rw [read] at hidx
    split at hidx
    · exact ⟨‹_›, Option.some.inj hidx⟩
    · cases hidx
  have hoffset : v.offset = 0 := by
    have hzero := (hread _ (inRange_indexAt_zero hp)).2
    have hprod := Shape.prod_pos (List.forall_mem_map.mpr hp)
    rw [steps_indexAt_zero, View.shape, Shape.position_indexAt hprod] at hzero
    simpa using hzero
  have hcovered : v.isMasked = false := by
    rw [isMasked, Bool.not_eq_false']
    exact List.all_eq_true.mpr (covered_of_admits hp fun idx hidx => (hread idx hidx).1)
  refine decide_eq_true ⟨hoffset, hcovered, ?_⟩
  refine strides_eq_of_steps hp (fun a ha => (ht a ha).still) fun idx hidx => ?_
  have hsum := (hread idx hidx).2
  rwa [hoffset, Int.zero_add] at hsum

end View

namespace Tracker

variable {t t' : Tracker} {m : Movement}

/-! ## Shapes without empty dimensions -/

theorem ne_zero_of_stride {steps : List Int} (h : t.stride steps = .ok t') :
    ∀ s ∈ steps, s ≠ 0 := by
  obtain ⟨_, -, h⟩ := bind_eq_ok.mp h
  split at h
  · cases h
  · rename_i hnone
    exact fun s hs => of_decide_eq_false (List.findIdx?_eq_none_iff.mp hnone s hs)

theorem checkShape_of_expand {shape : List Nat} (h : t.expand shape = .ok t') :
    ∀ d ∈ shape, 0 < d := by
  obtain ⟨_, -, h⟩ := bind_eq_ok.mp h
  obtain ⟨_, hcheck, -⟩ := bind_eq_ok.mp h
  exact View.checkShape_eq_ok hcheck

theorem positive_stepBy {v w : View} {steps : List Int} (hp : ∀ d ∈ v.shape, 0 < d)
    (hl : v.shape.length = steps.length) (hs : ∀ s ∈ steps, s ≠ 0) (h : v.stepBy steps = .ok w) :
    ∀ d ∈ w.shape, 0 < d := by
  obtain ⟨o, -, h⟩ := bind_eq_ok.mp h
  obtain ⟨axes, haxes, h⟩ := bind_eq_ok.mp h
  cases h
  obtain rfl := (View.mapM_edit_yields fun x _ => Axis.step_yields x.1 x.2).eq_of_ok haxes
  rw [View.shape_normalize]
  have hl : v.axes.length = steps.length := by simpa [View.shape] using hl
  refine View.forall_shape (View.forall_zipWith (List.forall₂_iff_zip.mpr ⟨hl, ?_⟩))
  intro a pace hap
  obtain ⟨ha, hpace⟩ := List.of_mem_zip hap
  have hsize := hp _ (List.mem_map_of_mem ha)
  have hpace := Int.natAbs_pos.mpr (hs pace hpace)
  exact Nat.div_pos (by omega) hpace

/-- A movement leads from a shape without empty dimensions to another one. -/
theorem positive_move (hp : ∀ d ∈ t.shape, 0 < d) (h : t.move m = .ok t') :
    ∀ d ∈ t'.shape, 0 < d := by
  obtain ⟨moved, hcollapse, hmoved⟩ := move_eq_ok h
  have haxes : ∀ a ∈ t.top.axes, 0 < a.size := fun a ha => hp _ (List.mem_map_of_mem ha)
  cases m with
  | reshape shape => exact (shape_move (.reshape shape) h).2 hp
  | permute axes => exact (shape_move (.permute axes) h).2 hp
  | expand shape =>
    rw [shape_collapse hcollapse]
    obtain ⟨hsizes, rfl⟩ := expand_eq_ok hmoved
    have hsizes : List.Forall₂ (fun (a : Axis) d => a.size = d ∨ a.size = 1) t.top.axes shape :=
      List.forall₂_map_left_iff.mp hsizes
    show ∀ d ∈ (View.normalize _).shape, 0 < d
    rw [View.shape_normalize]
    refine View.forall_shape (View.forall_zipWith (List.forall₂_iff_zip.mpr
      ⟨hsizes.length_eq, fun {a d} had => ?_⟩))
    rw [Axis.size_expand]
    exact checkShape_of_expand hmoved d (List.of_mem_zip had).2
  | pad amounts =>
    rw [shape_collapse hcollapse]
    obtain ⟨hl, ⟨-, rfl⟩ | ⟨w, hw, rfl⟩⟩ := pad_eq_ok hmoved
    · exact hp
    · show ∀ d ∈ w.shape, 0 < d
      rw [(View.pad_congruent hw).shape]
      refine View.forall_shape (View.forall_zipWith (List.forall₂_iff_zip.mpr
        ⟨(length_axes t).trans hl, fun {a r} har => ?_⟩))
      exact Nat.add_pos_left (haxes a (List.of_mem_zip har).1) _
  | shrink ranges =>
    rw [shape_collapse hcollapse]
    obtain ⟨hr, w, hw, rfl⟩ := shrink_eq_ok hmoved
    have hr : List.Forall₂ (fun (a : Axis) r => r.1 < r.2 ∧ r.2 ≤ a.size) t.top.axes ranges :=
      List.forall₂_map_left_iff.mp hr
    show ∀ d ∈ w.shape, 0 < d
    rw [(View.shrink_congruent hw).shape]
    refine View.forall_shape (View.forall_zipWith (hr.imp fun a r hr => ?_))
    rw [Axis.size_shrink]
    exact Nat.sub_pos_of_lt hr.1
  | stride steps =>
    rw [shape_collapse hcollapse]
    obtain ⟨hl, u, w, rfl, hw, hu⟩ := stride_eq_ok hmoved
    have hshape : u.top.shape = t.shape := by
      rcases hu with ⟨-, rfl⟩ | ⟨-, row, hrow, rfl⟩
      · rfl
      · exact (View.contiguous_eq_ok hrow).2.1
    exact positive_stepBy (hshape ▸ hp) (hshape ▸ hl) (ne_zero_of_stride hmoved) hw

/-! ## Movements of a row-major buffer -/

/-- A movement of a single row-major view gives a single view. -/
theorem below_move (hb : t.below = []) (hc : t.top.isContiguous = .ok true)
    (h : t.move m = .ok t') : t'.below = [] := by
  obtain ⟨moved, h, hmoved⟩ := move_eq_ok h
  have hmoved : moved.below = [] := by
    -- a view is added by reshapes of a view that is not row-major, and by steps through a mask
    cases m with
    | reshape shape =>
      cases (reshape_eq_ok hmoved).2.2 with
      | same _ | row _ _ | edited _ => exact hb
      | pushed hflat _ =>
        rw [hc] at hflat
        cases hflat
    | permute axes => exact (permute_eq_ok hmoved).2 ▸ hb
    | expand shape => exact (expand_eq_ok hmoved).2 ▸ hb
    | pad amounts =>
      obtain ⟨-, ⟨-, rfl⟩ | ⟨w, -, rfl⟩⟩ := pad_eq_ok hmoved
      · exact hb
      · exact hb
    | shrink ranges =>
      obtain ⟨-, w, -, rfl⟩ := shrink_eq_ok hmoved
      exact hb
    | stride steps =>
      obtain ⟨-, u, w, rfl, -, ⟨-, rfl⟩ | ⟨hm, -⟩⟩ := stride_eq_ok hmoved
      · exact hb
      · rw [View.isMasked_of_isContiguous hc] at hm
        cases hm
  rw [collapse, hmoved] at h
  exact pure_eq_ok.mp h ▸ rfl

end Tracker

/-- A movement keeps a shape and takes every index from itself. -/
structure Movement.Fixes (m : Movement) (dims : List Nat) : Prop where
  shape : m.resultShape dims = dims
  source : ∀ idx, InRange idx dims → m.source dims idx = some idx

theorem Movement.fixes_iff {m : Movement} {dims : List Nat} :
    m.Fixes dims ↔
      m.resultShape dims = dims ∧ ∀ idx ∈ Shape.indices dims, m.source dims idx = some idx :=
  ⟨fun h => ⟨h.shape, fun idx hi => h.source idx (Shape.mem_indices.mp hi)⟩,
    fun h => ⟨h.1, fun idx hi => h.2 idx (Shape.mem_indices.mpr hi)⟩⟩

instance (m : Movement) (dims : List Nat) : Decidable (m.Fixes dims) :=
  decidable_of_iff _ Movement.fixes_iff.symm

namespace Tracker

variable {t : Tracker} {m : Movement} {shape : List Nat}

theorem read_single (hb : t.below = []) {idx : List Nat} {p : Nat} :
    t.read idx = some p ↔ t.top.read idx = some (p : Int) := by
  rw [Tracker.read, hb, readFrom, Option.bind_eq_some_iff]
  constructor
  · rintro ⟨o, ho, hp⟩
    rw [ho, position_eq_some.mp hp]
  · exact fun h => ⟨p, h, position_natCast p⟩

theorem isIdentity_yields (hb : t.below = []) (hf : ∀ d ∈ t.shape, d < Word.half) :
    Yields (t.isIdentity shape) (decide (t.top.isRow = true ∧ t.shape = shape)) := by
  have hc : Yields t.isContiguous t.top.isRow := by
    rw [isContiguous, hb]
    exact View.isContiguous_yields hf
  refine .bind hc (Yields.of_eq (.pure _) ?_)
  rw [Bool.decide_and, Bool.decide_eq_true]

/-- What a movement makes of a row-major buffer is row-major and of the same shape exactly if the
movement changes nothing. -/
theorem isRow_iff_fixes (hb : t.below = []) (h : Moves shape.prod ⟨.row shape, []⟩ t m) :
    (t.top.isRow = true ∧ t.shape = shape) ↔ m.Fixes shape := by
  have hrow : (⟨.row shape, []⟩ : Tracker).shape = shape := View.shape_row shape
  obtain ⟨-, hshape, hwithin, hin, hread⟩ := h
  rw [hrow] at hshape hin hread
  constructor
  · rintro ⟨hr, hs⟩
    refine ⟨hshape.symm.trans hs, fun idx hi => ?_⟩
    rw [← hs] at hi
    have hposition := (read_single hb).mpr (View.read_of_isRow hr hi)
    rw [hread idx hi] at hposition
    obtain ⟨i, hsource, hi'⟩ := Option.bind_eq_some_iff.mp hposition
    have hini := hin idx hi i hsource
    rw [read_row hini, Option.some.injEq] at hi'
    rw [show t.top.shape = shape from hs] at hi'
    rw [hsource, Shape.position_inj hini (hs ▸ hi) hi']
  · intro hfixes
    have hs : t.shape = shape := hshape.trans hfixes.shape
    refine ⟨View.isRow_of_read hwithin.top.tidy fun idx hi => (read_single hb).mp ?_, hs⟩
    have hi' : InRange idx shape := hs ▸ hi
    rw [hread idx hi, hfixes.source idx hi', show t.top.shape = shape from hs]
    exact read_row hi'

end Tracker

end TensorLoom
