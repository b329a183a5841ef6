import TensorLoom.Shape
import TensorLoom.Proofs.Checked
import Mathlib.Algebra.BigOperators.Group.List.Basic
import Mathlib.Data.List.Forall2
import Mathlib.Data.List.Nodup
import Mathlib.Tactic.Ring

/-!
# Row-major positions

An index of a shape and its position in row-major order determine each other: `position` and
`indexAt` are inverse on what is in range (`indexAt_position`, `position_indexAt`), and
`indices_eq` says that `Shape.indices` lists the indices in the order of their positions. The
positions and the indices of two shapes joined are put together from those of either part
(`position_append`, `indices_append`).

The definitions of `Shape` compute the same in machine words: `splitPosition_eq`,
`stridesAndSpan_yields` and `size_yields`.
-/

namespace TensorLoom.Shape

/-- An index of a shape has one entry below each dimension. -/
abbrev InRange (idx shape : List Nat) : Prop := List.Forall₂ (· < ·) idx shape

/-- The row-major position of an index. -/
def position : (shape idx : List Nat) → Nat
  | _ :: inner, i :: idx => i * inner.prod + position inner idx
  | _, _ => 0

/-- The index at a row-major position, which wraps around at the end of the shape. -/
def indexAt (p : Nat) : List Nat → List Nat
  | [] => []
  | dim :: inner => p / inner.prod % dim :: indexAt p inner

/-- The row-major strides of a shape, with 0 for unit dimensions. -/
def rowStrides : List Nat → List Int
  | [] => []
  | dim :: inner => (if dim = 1 then 0 else (inner.prod : Int)) :: rowStrides inner

theorem prod_pos {shape : List Nat} (h : ∀ d ∈ shape, 0 < d) : 0 < shape.prod :=
  List.prod_pos_iff_forall_pos_nat.mpr h

theorem length_indexAt (p : Nat) (shape : List Nat) : (indexAt p shape).length = shape.length := by
  induction shape with
  | nil => rfl
  | cons dim inner ih => simp [indexAt, ih]

theorem position_lt {shape idx : List Nat} (h : InRange idx shape) :
    position shape idx < shape.prod := by
  induction h with
  | nil => simp [position]
  | @cons i dim idx inner hi _ ih =>
    have := Nat.mul_le_mul_right inner.prod (Nat.succ_le_of_lt hi)
    rw [position, List.prod_cons]
    rw [Nat.succ_mul] at this
    omega

theorem indexAt_inRange (p : Nat) {shape : List Nat} (h : ∀ d ∈ shape, 0 < d) :
    InRange (indexAt p shape) shape := by
  induction shape with
  | nil => exact .nil
  | cons dim inner ih =>
    exact .cons (Nat.mod_lt _ (h dim List.mem_cons_self))
      (ih fun d hd => h d (List.mem_cons_of_mem _ hd))

/-- Whole repetitions of a shape do not change the index. -/
theorem indexAt_add_mul (p k : Nat) (shape : List Nat) :
    indexAt (p + k * shape.prod) shape = indexAt p shape := by
  induction shape generalizing k with
  | nil => rfl
  | cons dim inner ih =>
    rcases Nat.eq_zero_or_pos inner.prod with h | h
    · simp [h]
    · rw [List.prod_cons, ← Nat.mul_assoc, indexAt, indexAt, ih, Nat.add_mul_div_right _ _ h,
        Nat.add_mul_mod_self_right]

/-- The index at a position that lies `q` places into block `i` of the outermost dimension. -/
theorem indexAt_block {dim i q : Nat} {inner : List Nat} (hi : i < dim) (hq : q < inner.prod) :
    indexAt (i * inner.prod + q) (dim :: inner) = i :: indexAt q inner := by
  rw [indexAt, Nat.add_comm, indexAt_add_mul, Nat.add_mul_div_right _ _ (Nat.zero_lt_of_lt hq),
    Nat.div_eq_of_lt hq, Nat.zero_add, Nat.mod_eq_of_lt hi]

theorem indexAt_position {shape idx : List Nat} (h : InRange idx shape) :
    indexAt (position shape idx) shape = idx := by
  induction h with
  | nil => rfl
  | cons hi h ih => rw [position, indexAt_block hi (position_lt h), ih]

theorem position_indexAt {p : Nat} {shape : List Nat} (h : p < shape.prod) :
    position shape (indexAt p shape) = p := by
  -- a position below the outer dimension splits into whole inner spans and a position inside one
  suffices ∀ p, position shape (indexAt p shape) = p % shape.prod by
    rw [this, Nat.mod_eq_of_lt h]
  clear h p
  intro p
  induction shape with
  | nil => simp [position, Nat.mod_one]
  | cons dim inner ih =>
    rw [indexAt, position, ih, List.prod_cons, Nat.mul_comm dim, Nat.mod_mul, Nat.mul_comm,
      Nat.add_comm]

theorem position_inj {shape idx idx' : List Nat} (h : InRange idx shape) (h' : InRange idx' shape)
    (e : position shape idx = position shape idx') : idx = idx' := by
  rw [← indexAt_position h, e, indexAt_position h']

/-! ## The list of all indices -/

theorem indices_eq (shape : List Nat) :
    indices shape = (List.range shape.prod).map (indexAt · shape) := by
  induction shape with
  | nil => rfl
  | cons dim inner ih =>
    -- the first `m` blocks of the list are the positions below `m` inner spans
    suffices ∀ m ≤ dim, ((List.range m).flatMap fun i => (indices inner).map (i :: ·)) =
        (List.range (m * inner.prod)).map (indexAt · (dim :: inner)) by
      rw [indices, List.prod_cons]
      exact this dim (Nat.le_refl _)
    intro m hm
    induction m with
    | zero => simp
    | succ m ihm =>
      rw [List.range_succ, List.flatMap_append, ihm (by omega), Nat.succ_mul, List.range_add,
        List.map_append, List.map_map, List.flatMap_singleton, ih, List.map_map]
      congr 1
      exact List.map_congr_left fun q hq => (indexAt_block hm (List.mem_range.mp hq)).symm

theorem length_indices (shape : List Nat) : (indices shape).length = shape.prod := by
  rw [indices_eq, List.length_map, List.length_range]

theorem mem_indices {idx shape : List Nat} : idx ∈ indices shape ↔ InRange idx shape := by
  induction shape generalizing idx with
  | nil => simp [indices, InRange]
  | cons dim inner ih =>
    simp only [indices, List.mem_flatMap, List.mem_range, List.mem_map, ih, InRange,
      List.forall₂_cons_right_iff]
    constructor
    · rintro ⟨i, hi, rest, hrest, rfl⟩
      exact ⟨i, rest, hi, hrest, rfl⟩
    · rintro ⟨i, rest, hi, hrest, rfl⟩
      exact ⟨i, hi, rest, hrest, rfl⟩

theorem getElem?_indices {p : Nat} {shape : List Nat} (h : p < shape.prod) :
    (indices shape)[p]? = some (indexAt p shape) := by
  rw [indices_eq, List.getElem?_map, List.getElem?_range h, Option.map_some]

theorem getElem?_indices_position {idx shape : List Nat} (h : InRange idx shape) :
    (indices shape)[position shape idx]? = some idx := by
  rw [getElem?_indices (position_lt h), indexAt_position h]

theorem nodup_indices (shape : List Nat) : (indices shape).Nodup := by
  rw [indices_eq]
  refine List.Nodup.map_on (fun p hp q hq e => ?_) List.nodup_range
  rw [← position_indexAt (List.mem_range.mp hp), e, position_indexAt (List.mem_range.mp hq)]

/-! ## Joined shapes -/

theorem inRange_append {outer inner i j : List Nat} (hi : InRange i outer) (hj : InRange j inner) :
    InRange (i ++ j) (outer ++ inner) :=
  List.rel_append hi hj

/-- An index of a joined shape is an index of either part. -/
theorem inRange_append_iff {outer inner idx : List Nat} :
    InRange idx (outer ++ inner) ↔
      ∃ i j, idx = i ++ j ∧ InRange i outer ∧ InRange j inner := by
  constructor
  · intro h
    refine ⟨idx.take outer.length, idx.drop outer.length, (List.take_append_drop ..).symm, ?_, ?_⟩
    · exact List.forall₂_take_append idx outer inner h
    · exact List.forall₂_drop_append idx outer inner h
  · rintro ⟨i, j, rfl, hi, hj⟩
    exact inRange_append hi hj

theorem position_append {outer i : List Nat} (hi : InRange i outer) (inner j : List Nat) :
    position (outer ++ inner) (i ++ j) = position outer i * inner.prod + position inner j := by
  induction hi with
  | nil => simp [position]
  | @cons i dim idx outer _ _ ih =>
    rw [List.cons_append, List.cons_append, position, position, ih, List.prod_append]
    ring

theorem indices_append (outer inner : List Nat) :
    indices (outer ++ inner) = (indices outer).flatMap fun i => (indices inner).map (i ++ ·) := by
  induction outer with
  | nil => simp [indices]
  | cons dim outer ih =>
    rw [List.cons_append, indices, indices, ih, List.flatMap_assoc]
    refine List.flatMap_congr fun i _ => ?_
    rw [List.map_flatMap, List.flatMap_map]
    refine List.flatMap_congr fun idx _ => ?_
    rw [List.map_map]
    rfl

/-! ## Machine words -/

theorem isPositive_iff {shape : List Nat} : isPositive shape = true ↔ ∀ d ∈ shape, 0 < d := by
  simp [isPositive]

theorem size_yields (shape : List Nat) : Yields (size shape) shape.prod := by
  rw [List.prod_eq_foldl]
  exact Yields.foldlM (fun b a _ => Word.mul_yields b a) 1

/-- Elements that have been counted are not too many for a machine word. -/
theorem size_lt {shape : List Nat} {n : Nat} (h : size shape = .ok n) :
    shape.prod < Word.bound := by
  suffices ∀ b < Word.bound, shape.foldlM Word.mul b = .ok n → n < Word.bound by
    rw [← (size_yields shape).eq_of_ok h]
    exact this 1 (by decide) h
  clear h
  induction shape with
  | nil =>
    intro b hb h
    exact pure_eq_ok.mp h ▸ hb
  | cons d shape ih =>
    intro b _ h
    rw [List.foldlM_cons] at h
    obtain ⟨c, hc, h⟩ := bind_eq_ok.mp h
    refine ih c ?_ h
    unfold Word.mul Word.check at hc
    split at hc
    · cases hc
      assumption
    · cases hc

/-- Splitting a position never overflows. -/
theorem splitPosition_eq (p : Nat) {shape : List Nat} (h : ∀ d ∈ shape, 0 < d) :
    splitPosition p shape = .ok (indexAt p shape, p / shape.prod) := by
  induction shape with
  | nil => simp [splitPosition, indexAt]
  | cons dim inner ih =>
    have hd := h dim List.mem_cons_self
    rw [splitPosition, ih fun d hd => h d (List.mem_cons_of_mem _ hd)]
    change (Word.div (p / inner.prod) dim >>= _) = _
    rw [Word.div_eq (Nat.ne_of_gt hd), Nat.div_div_eq_div_mul, List.prod_cons, Nat.mul_comm dim]
    rfl

theorem unravel_eq (p : Nat) {shape : List Nat} (h : ∀ d ∈ shape, 0 < d) :
    unravel p shape = .ok (indexAt p shape) := by
  rw [unravel, splitPosition_eq p h]
  rfl

theorem stridesAndSpan_yields {shape : List Nat} (h : ∀ d ∈ shape, d < Word.half) :
    Yields (stridesAndSpan shape) (rowStrides shape, (shape.prod : Int)) := by
  induction shape with
  | nil => exact .pure _
  | cons dim inner ih =>
    refine .bind (ih fun d hd => h d (List.mem_cons_of_mem _ hd)) ?_
    refine .bind (Signed.mul_yields _ _) ?_
    rw [Signed.ofSize_eq (h dim List.mem_cons_self), rowStrides, List.prod_cons, Nat.cast_mul,
      Int.mul_comm]
    exact .pure _

theorem strides_yields {shape : List Nat} (h : ∀ d ∈ shape, d < Word.half) :
    Yields (strides shape) (rowStrides shape) :=
  (stridesAndSpan_yields h).map Prod.fst

theorem strides_eq_ok {shape : List Nat} {strides : List Int}
    (h : Shape.strides shape = .ok strides) :
    ∃ span, stridesAndSpan shape = .ok (strides, span) := by
  unfold Shape.strides at h
  cases hspan : stridesAndSpan shape with
  | error e =>
    rw [hspan] at h
    cases h
  | ok r =>
    rw [hspan] at h
    cases h
    exact ⟨_, rfl⟩

end TensorLoom.Shape
