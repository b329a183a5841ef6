import TensorLoom.Proofs.Kernel.Axes
import Mathlib.Algebra.BigOperators.Group.List.Lemmas

/-!
# Trackers whose elements are counted

A signed word counts the elements of a shape (`Shape.Counted`) and of every view of a tracker
(`Tracker.Counted`). The sizes and strides of such a shape do not overflow, and neither do
reshapes and permutations of such a tracker, whatever its views read.

`Tracker.move_meets` says both what happens in general and what happens then: a valid reshape or
permutation is never refused, it makes a tracker of the right shape whose elements are counted if
they have been before, and it ends with an overflow only if they have not.
-/

namespace TensorLoom

/-! ## Shapes -/

namespace Shape

/-- A shape has no empty dimension, and a signed word counts its elements. -/
structure Counted (shape : List Nat) : Prop where
  positive : ∀ d ∈ shape, 0 < d
  fits : shape.prod < Word.half

variable {shape : List Nat}

theorem Counted.of_cons {dim : Nat} {inner : List Nat} (h : Counted (dim :: inner)) :
    Counted inner ∧ dim < Word.half := by
  have hdim := h.positive dim List.mem_cons_self
  have hinner : ∀ d ∈ inner, 0 < d := fun d hd => h.positive d (List.mem_cons_of_mem _ hd)
  have hprod := h.fits
  rw [List.prod_cons] at hprod
  have hleft := Nat.le_mul_of_pos_left inner.prod hdim
  have hright := Nat.le_mul_of_pos_right dim (prod_pos hinner)
  exact ⟨⟨hinner, by omega⟩, by omega⟩

theorem Counted.take_drop (h : Counted shape) (n : Nat) :
    Counted (shape.take n) ∧ Counted (shape.drop n) := by
  have htake : ∀ d ∈ shape.take n, 0 < d := fun d hd => h.positive d (List.mem_of_mem_take hd)
  have hdrop : ∀ d ∈ shape.drop n, 0 < d := fun d hd => h.positive d (List.mem_of_mem_drop hd)
  have hprod := h.fits
  rw [← List.take_append_drop n shape, List.prod_append] at hprod
  exact ⟨⟨htake, Nat.lt_of_le_of_lt (Nat.le_mul_of_pos_right _ (prod_pos hdrop)) hprod⟩,
    ⟨hdrop, Nat.lt_of_le_of_lt (Nat.le_mul_of_pos_left _ (prod_pos htake)) hprod⟩⟩

/-- A shape of as many elements is counted too. -/
theorem Counted.of_prod_eq {shape' : List Nat} (h : Counted shape) (hp : ∀ d ∈ shape', 0 < d)
    (hprod : shape'.prod = shape.prod) : Counted shape' :=
  ⟨hp, hprod ▸ h.fits⟩

/-- Every dimension fits into a signed word. -/
theorem Counted.dimension_fits (h : Counted shape) : ∀ d ∈ shape, d < Word.half := fun _ hd =>
  Nat.lt_of_le_of_lt (Nat.le_of_dvd (prod_pos h.positive) (List.dvd_prod hd)) h.fits

theorem foldlM_mul_eq {start : Nat} (hp : ∀ d ∈ shape, 0 < d)
    (h : start * shape.prod < Word.bound) :
    shape.foldlM Word.mul start = .ok (start * shape.prod) := by
  induction shape generalizing start with
  | nil => simp [pure, Except.pure]
  | cons dim inner ih =>
    have hinner : ∀ d ∈ inner, 0 < d := fun d hd => hp d (List.mem_cons_of_mem _ hd)
    rw [List.prod_cons, ← Nat.mul_assoc] at h ⊢
    have hle := Nat.le_mul_of_pos_right (start * dim) (prod_pos hinner)
    rw [List.foldlM_cons, Word.mul_eq (by omega)]
    exact ih hinner h

/-- The elements of a shape are counted from the outermost dimension inwards, and no partial product
is larger than the whole. -/
theorem size_eq (hp : ∀ d ∈ shape, 0 < d) (h : shape.prod < Word.bound) :
    size shape = .ok shape.prod := by
  have hsize : shape.foldlM Word.mul 1 = .ok (1 * shape.prod) :=
    foldlM_mul_eq hp (by rwa [Nat.one_mul])
  rwa [Nat.one_mul] at hsize

theorem half_lt_bound : Word.half < Word.bound := by decide

theorem Counted.size_eq (h : Counted shape) : size shape = .ok shape.prod :=
  Shape.size_eq h.positive (Nat.lt_trans h.fits half_lt_bound)

theorem size_meets (shape : List Nat) :
    Meets (size shape) (Fault.OfSize ¬ Counted shape) (· = shape.prod) :=
  .of_yields (size_yields shape) fun h => (not_not.mp h).size_eq

/-- Strides overflow only if the elements are not counted. A dimension that does not fit into a
signed word is read as another number, so the span says something of counted shapes alone. -/
theorem stridesAndSpan_meets (shape : List Nat) :
    Meets (stridesAndSpan shape) (Fault.OfSize ¬ Counted shape)
      fun r => Counted shape → r.2 = shape.prod := by
  induction shape with
  | nil => exact fun _ => rfl
  | cons dim inner ih =>
    have hinner : ¬ Counted inner → ¬ Counted (dim :: inner) := mt fun h => h.of_cons.1
    refine .bind (ih.mono (fun _ => Fault.OfSize.mono hinner) fun _ => id) ?_
    rintro ⟨strides, span⟩ hspan
    have hwhole : Counted (dim :: inner) →
        span * Signed.ofSize dim = ((dim :: inner).prod : Nat) := fun h => by
      rw [Signed.ofSize_eq h.of_cons.2, show span = inner.prod from hspan h.of_cons.1,
        List.prod_cons, Int.natCast_mul, Int.mul_comm]
    refine .bind (P := (· = span * Signed.ofSize dim)) ?_ ?_
    · refine .of_yields (Signed.mul_yields _ _) fun h => ?_
      have h := not_not.mp h
      have hfits := h.fits
      exact Signed.mul_eq (by rw [hwhole h]; omega) (by rw [hwhole h]; omega)
    · rintro _ rfl
      exact .pure hwhole

theorem strides_meets (shape : List Nat) :
    Meets (strides shape) (Fault.OfSize ¬ Counted shape) fun _ => True := by
  rw [strides, map_eq_pure_bind]
  exact .bind (stridesAndSpan_meets shape) fun _ _ => .pure trivial

end Shape

open Shape (Counted)

/-- A movement that keeps the elements keeps their number. -/
theorem Movement.Keeps.prod_resultShape {m : Movement} {shape : List Nat} (hm : m.Keeps)
    (hv : m.Valid shape) : (m.resultShape shape).prod = shape.prod := by
  cases hm with
  | reshape target => exact hv.2.symm
  | permute axes => exact Movement.prod_permute hv

/-- A movement that keeps the elements keeps them counted. -/
theorem Shape.Counted.resultShape {m : Movement} {shape : List Nat} (h : Counted shape)
    (hm : m.Keeps) (hv : m.Valid shape) : Counted (m.resultShape shape) := by
  refine h.of_prod_eq ?_ (hm.prod_resultShape hv)
  cases hm with
  | reshape target => exact hv.1
  | permute axes =>
    intro d hd
    obtain ⟨i, hi, rfl⟩ := List.mem_map.mp hd
    have hi : i < shape.length := List.mem_range.mp (hv.mem_iff.mp hi)
    rw [List.getD_eq_getElem _ _ hi]
    exact h.positive _ (List.getElem_mem hi)

namespace View

theorem isContiguous_meets (v : View) :
    Meets v.isContiguous (Fault.OfSize ¬ Counted v.shape) fun _ => True := by
  unfold isContiguous
  split
  · exact .bind (Shape.strides_meets _) fun _ _ => .pure trivial
  · exact .pure trivial

theorem contiguous_meets {shape : List Nat} (hp : ∀ d ∈ shape, 0 < d) :
    Meets (contiguous shape) (Stop.OfSize ¬ Counted shape) fun v => v.shape = shape := by
  have hcheck : checkShape shape = .ok () := by
    rw [checkShape, if_pos (Shape.isPositive_iff.mpr hp)]
    rfl
  have hmeets : Meets (contiguous shape) (Stop.OfSize ¬ Counted shape) fun _ => True :=
    .bind (P := fun _ => True) (.of_eq_ok hcheck trivial) fun _ _ =>
      .bind (.lift (Shape.strides_meets shape)) fun _ _ => .pure trivial
  exact (hmeets.and_of_ok fun _ hv => (contiguous_eq_ok hv).2.1).mono (fun _ => id)
    fun _ => And.right

end View

/-! ## Trackers -/

namespace Tracker

variable {t : Tracker}

/-- A signed word counts the elements of every view. -/
def Counted (t : Tracker) : Prop := ∀ v ∈ t.top :: t.below, Shape.Counted v.shape

theorem Counted.shape (h : t.Counted) : Shape.Counted t.shape := h _ List.mem_cons_self

theorem Counted.withTop (h : t.Counted) {top : View} (htop : Shape.Counted top.shape) :
    (t.withTop top).Counted :=
  forall_withTop h htop

theorem Counted.push (h : t.Counted) {top : View} (htop : Shape.Counted top.shape) :
    (t.push top).Counted :=
  forall_push h htop

theorem collapse_meets (t : Tracker) :
    Meets t.collapse (Fault.OfSize ¬ t.Counted)
      fun t' => t'.shape = t.shape ∧ (t.Counted → t'.Counted) := by
  obtain ⟨top, below⟩ := t
  rw [collapse]
  induction below generalizing top with
  | nil => exact ⟨rfl, id⟩
  | cons next below ih =>
    have hnext : Counted ⟨top, next :: below⟩ → Shape.Counted next.shape :=
      fun h => h next (List.mem_cons_of_mem _ List.mem_cons_self)
    have hskip : Counted ⟨top, next :: below⟩ → Counted ⟨top, below⟩ := fun h v hv =>
      h v (List.mem_cons.mpr ((List.mem_cons.mp hv).imp_right (List.mem_cons_of_mem _)))
    have hdrop : Counted ⟨top, next :: below⟩ → Counted ⟨next, below⟩ := fun h v hv =>
      h v (List.mem_cons_of_mem _ hv)
    have htop : Counted ⟨top, next :: below⟩ → Shape.Counted top.shape := fun h => h.shape
    refine .bind ((View.isContiguous_meets next).mono
      (fun _ => Fault.OfSize.mono (mt hnext)) fun _ => id) fun flat _ => ?_
    split
    · exact (ih top).mono (fun _ => Fault.OfSize.mono (mt hskip))
        fun _ h => ⟨h.1, fun hc => h.2 (hskip hc)⟩
    refine .bind ((View.isContiguous_meets top).mono
      (fun _ => Fault.OfSize.mono (mt htop)) fun _ => id) fun flat _ => ?_
    split
    · rename_i hsame
      rw [Bool.and_eq_true, decide_eq_true_eq] at hsame
      exact (ih next).mono (fun _ => Fault.OfSize.mono (mt hdrop))
        fun _ h => ⟨h.1.trans hsame.2.symm, fun hc => h.2 (hdrop hc)⟩
    · exact .pure ⟨rfl, id⟩

theorem reshape_meets {shape : List Nat} (hv : (Movement.reshape shape).Valid t.shape) :
    Meets (t.reshape shape) (Stop.OfSize ¬ t.Counted)
      fun t' => t'.shape = shape ∧ (t.Counted → t'.Counted) := by
  obtain ⟨hp, hprod⟩ := hv
  have hshape : t.Counted → Shape.Counted shape := fun h => h.shape.of_prod_eq hp hprod.symm
  have hcheck : View.checkShape shape = .ok () := by
    rw [View.checkShape, if_pos (Shape.isPositive_iff.mpr hp)]
    rfl
  have hrow : Meets (View.contiguous shape) (Stop.OfSize ¬ t.Counted) fun v => v.shape = shape :=
    (View.contiguous_meets hp).mono (fun _ => Stop.OfSize.mono (mt hshape)) fun _ => id
  refine .bind (P := fun _ => True) (.of_eq_ok hcheck trivial) fun _ _ => ?_
  refine .bind (.lift ((Shape.size_meets t.shape).mono
    (fun _ => Fault.OfSize.mono (mt Counted.shape)) fun _ => id)) ?_
  rintro _ rfl
  refine .bind (.lift ((Shape.size_meets shape).mono
    (fun _ => Fault.OfSize.mono (mt hshape)) fun _ => id)) ?_
  rintro _ rfl
  rw [if_neg (not_not.mpr hprod)]
  split
  · exact .pure ⟨‹_›, id⟩
  refine .bind (.lift ((View.isContiguous_meets t.top).mono
    (fun _ => Fault.OfSize.mono (mt Counted.shape)) fun _ => id)) fun flat _ => ?_
  split
  · refine .bind hrow fun v hv => .pure ⟨hv, fun h => h.withTop ?_⟩
    exact hv ▸ hshape h
  split
  · rename_i top htop
    have htop := View.shape_of_reshape? htop
    refine .pure ⟨htop, fun h => h.withTop ?_⟩
    exact htop ▸ hshape h
  · refine .bind hrow fun v hv => .pure ⟨hv, fun h => h.push ?_⟩
    exact hv ▸ hshape h

theorem permute_meets {axes : List Nat} (hv : (Movement.permute axes).Valid t.shape) :
    Meets (t.permute axes) (Stop.OfSize ¬ t.Counted)
      fun t' => t'.shape = (Movement.permute axes).resultShape t.shape ∧
        (t.Counted → t'.Counted) := by
  unfold Tracker.permute
  dsimp only
  rw [if_pos (isPermutation_iff.mpr hv)]
  have hshape := View.shape_permute (v := t.top) hv
  exact .pure ⟨hshape, fun h => h.withTop (hshape ▸ h.shape.resultShape (.permute axes) hv)⟩

/-- A valid reshape or permutation makes what it should, unless a number is too large. -/
theorem move_meets {m : Movement} (hm : m.Keeps) (hv : m.Valid t.shape) :
    Meets (t.move m) (Stop.OfSize ¬ t.Counted)
      fun t' => t'.shape = m.resultShape t.shape ∧ (t.Counted → t'.Counted) := by
  have hcollapse : ∀ moved : Tracker,
      moved.shape = m.resultShape t.shape ∧ (t.Counted → moved.Counted) →
        Meets (liftM moved.collapse : Attempt LayoutError Tracker) (Stop.OfSize ¬ t.Counted)
          fun t' => t'.shape = m.resultShape t.shape ∧ (t.Counted → t'.Counted) :=
    fun moved h => .lift (moved.collapse_meets.mono (fun _ => Fault.OfSize.mono (mt h.2))
      fun _ h' => ⟨h'.1.trans h.1, fun hc => h'.2 (h.2 hc)⟩)
  cases hm with
  | reshape shape => exact .bind (reshape_meets hv) hcollapse
  | permute axes => exact .bind (permute_meets hv) hcollapse

theorem ofShape_meets {shape : List Nat} (hp : ∀ d ∈ shape, 0 < d) :
    Meets (ofShape shape) (Stop.OfSize ¬ Shape.Counted shape)
      fun t => t.shape = shape ∧ (Shape.Counted shape → t.Counted) := by
  refine .bind (View.contiguous_meets hp) fun v hv => .pure ⟨hv, fun h w hw => ?_⟩
  obtain rfl := List.mem_singleton.mp hw
  exact hv ▸ h

end Tracker

end TensorLoom
