import TensorLoom.Proofs.Kernel.Order
import TensorLoom.Proofs.Layout.Forward

/-!
# Three ways to count through a shape

Stepping from index to index, splitting a position and adding up row-major strides are separate
computations. `Shape.advance_eq` is one step of the first, a carry from the innermost dimension
outwards: it leads to the index at the next position, and says whether there was one. From this
`Shape.visits_iff` tells all that a loop of steps meets, which is the list `Shape.indices`.

`Shape.advance_unravel_contiguous` puts the three together for every shape whose elements a signed
word counts.
-/

namespace TensorLoom.Shape

variable {shape idx : List Nat}

/-! ## One step -/

theorem indexAt_zero (shape : List Nat) : indexAt 0 shape = List.replicate shape.length 0 := by
  induction shape with
  | nil => rfl
  | cons dim inner ih =>
    rw [indexAt, ih, Nat.zero_div, Nat.zero_mod, List.length_cons, List.replicate_succ]

/-- The position after the last is the first again. -/
theorem indexAt_prod (shape : List Nat) : indexAt shape.prod shape = indexAt 0 shape := by
  rw [← indexAt_add_mul 0 1 shape, Nat.one_mul, Nat.zero_add]

/-- A step leads to the index at the next position, and from the last position to the first. -/
theorem advance_eq (h : Counted shape) (hi : InRange idx shape) :
    advance shape idx = .ok (decide (position shape idx + 1 < shape.prod),
      indexAt (position shape idx + 1) shape) := by
  induction hi with
  | nil => rfl
  | @cons i dim idx inner hi hrest ih =>
    have hq := position_lt hrest
    rw [advance, ih h.of_cons.1, position, List.prod_cons]
    simp only [bind, Except.bind, decide_eq_true_eq]
    split
    · -- the step ends further in
      rename_i hnext
      have hle := Nat.mul_le_mul_right inner.prod (Nat.succ_le_of_lt hi)
      rw [Nat.succ_mul] at hle
      rw [decide_eq_true (by omega), Nat.add_assoc, indexAt_block hi hnext]
      rfl
    · -- everything further in starts again, and one is carried
      rename_i hlast
      have hend : i * inner.prod + position inner idx + 1 = (i + 1) * inner.prod := by
        rw [Nat.succ_mul]
        omega
      have hwrap : indexAt (position inner idx + 1) inner = indexAt 0 inner := by
        rw [← indexAt_prod inner]
        congr 1
        omega
      have hadd : Word.add i 1 = .ok (i + 1) :=
        if_pos (Nat.lt_of_le_of_lt hi (Nat.lt_trans h.of_cons.2 half_lt_bound))
      rw [hadd, hend, hwrap]
      simp only
      split
      · rename_i hcarry
        have hpos : 0 < inner.prod := Nat.zero_lt_of_lt hq
        have hblock : indexAt ((i + 1) * inner.prod) (dim :: inner) = (i + 1) :: indexAt 0 inner :=
          indexAt_block hcarry hpos
        rw [decide_eq_true (Nat.mul_lt_mul_of_pos_right hcarry hpos), hblock]
        rfl
      · rename_i hcarry
        have hdim : i + 1 = dim := by omega
        rw [hdim, decide_eq_false (Nat.lt_irrefl _), ← List.prod_cons, indexAt_prod, indexAt,
          Nat.zero_div, Nat.zero_mod]
        rfl

/-! ## All steps -/

/-- A loop that uses an index and steps on as long as there is a next one. Started at an index it
uses those in `visited`: all steps but the last answer yes, and the last leaves `left` behind. -/
inductive Visits (shape : List Nat) : List Nat → List (List Nat) → List Nat → Prop
  | last {idx left : List Nat} (h : advance shape idx = .ok (false, left)) :
    Visits shape idx [idx] left
  | next {idx next left : List Nat} {visited : List (List Nat)}
    (h : advance shape idx = .ok (true, next)) (rest : Visits shape next visited left) :
    Visits shape idx (idx :: visited) left

/-- There is one way to run the loop. -/
theorem Visits.unique {visited visited' : List (List Nat)} {left left' : List Nat}
    (h : Visits shape idx visited left) (h' : Visits shape idx visited' left') :
    visited = visited' ∧ left = left' := by
  induction h generalizing visited' with
  | last h =>
    cases h' with
    | last h' =>
      rw [h] at h'
      cases h'
      exact ⟨rfl, rfl⟩
    | next h' =>
      rw [h] at h'
      cases h'
  | next h _ ih =>
    cases h' with
    | last h' =>
      rw [h] at h'
      cases h'
    | next h' rest =>
      rw [h] at h'
      cases h'
      obtain ⟨rfl, rfl⟩ := ih rest
      exact ⟨rfl, rfl⟩

/-- From the index at a position on, the loop visits what the list of indices has from there on. -/
theorem visits_indexAt (h : Counted shape) {p : Nat} (hp : p < shape.prod) :
    Visits shape (indexAt p shape) ((indices shape).drop p) (List.replicate shape.length 0) := by
  -- the induction is on the number of positions that follow
  obtain ⟨after, hafter⟩ : ∃ after, p + after + 1 = shape.prod := ⟨shape.prod - p - 1, by omega⟩
  have hstep : advance shape (indexAt p shape) =
      .ok (decide (p + 1 < shape.prod), indexAt (p + 1) shape) := by
    rw [advance_eq h (indexAt_inRange p h.positive), position_indexAt hp]
  have hlength : p < (indices shape).length := by rwa [length_indices]
  have hget : (indices shape)[p] = indexAt p shape :=
    (List.getElem_eq_iff hlength).mpr (getElem?_indices hp)
  rw [List.drop_eq_getElem_cons hlength, hget]
  induction after generalizing p with
  | zero =>
    rw [List.drop_eq_nil_of_le (by rw [length_indices]; omega)]
    refine .last ?_
    rw [hstep, decide_eq_false (by omega), show p + 1 = shape.prod by omega, indexAt_prod,
      indexAt_zero]
  | succ after ih =>
    have hnext : p + 1 < shape.prod := by omega
    rw [decide_eq_true hnext] at hstep
    refine .next hstep ?_
    have hlength' : p + 1 < (indices shape).length := by rwa [length_indices]
    have hget' : (indices shape)[p + 1] = indexAt (p + 1) shape :=
      (List.getElem_eq_iff hlength').mpr (getElem?_indices hnext)
    rw [List.drop_eq_getElem_cons hlength', hget']
    refine ih hnext (by omega) ?_ hlength' hget'
    rw [advance_eq h (indexAt_inRange _ h.positive), position_indexAt hnext]

/-- Started at the first index, the loop visits the indices of the shape in order, and it leaves the
first index behind. -/
theorem visits_iff (h : Counted shape) {visited : List (List Nat)} {left : List Nat} :
    Visits shape (List.replicate shape.length 0) visited left ↔
      visited = indices shape ∧ left = List.replicate shape.length 0 := by
  have hall := visits_indexAt h (prod_pos h.positive)
  rw [List.drop_zero, indexAt_zero] at hall
  constructor
  · exact fun h => h.unique hall
  · rintro ⟨rfl, rfl⟩
    exact hall

/-! ## The row-major view -/

/-- The row-major view sends an index to its position. -/
theorem contiguous_index (h : Counted shape) :
    ∃ v, View.contiguous shape = .ok v ∧
      ∀ idx, InRange idx shape → v.index idx = .ok (some (position shape idx : Int)) := by
  obtain ⟨v, hv, -⟩ := (View.contiguous_meets h.positive).exists_ok
    fun _ he => he.cause h
  obtain ⟨-, rfl⟩ := (View.contiguous_settles h.dimension_fits).of_ok hv
  refine ⟨_, hv, fun idx hi => ?_⟩
  have hwithin := View.within_row h.positive h.dimension_fits (Nat.le_refl shape.prod)
  rw [(View.forward_row shape).index_eq hwithin (Nat.le_of_lt h.fits)
    (by rwa [View.shape_row]), View.read_row hi]

/-- Stepping, splitting positions and row-major strides agree on the order of the indices. Stepping
on from the first index meets one index for each position, the one that the position is split into,
and it ends at the first index again; these are all indices in lexicographic order, each of them
once. The row-major view of the shape sends them back to their positions. -/
theorem advance_unravel_contiguous (h : Counted shape) :
    (∃ visited, Visits shape (List.replicate shape.length 0) visited
        (List.replicate shape.length 0) ∧
      visited.length = shape.prod ∧
      (∀ (k : Nat) (idx : List Nat), visited[k]? = some idx → unravel k shape = .ok idx) ∧
      (∀ idx, idx ∈ visited ↔ InRange idx shape) ∧
      visited.Nodup ∧ visited.Pairwise Precedes) ∧
    ∃ v, View.contiguous shape = .ok v ∧
      (∀ k < shape.prod, ∃ idx, unravel k shape = .ok idx ∧ InRange idx shape ∧
        v.index idx = .ok (some (k : Int))) ∧
      ∀ idx, InRange idx shape → ∃ k < shape.prod,
        v.index idx = .ok (some (k : Int)) ∧ unravel k shape = .ok idx := by
  constructor
  · refine ⟨indices shape, (visits_iff h).mpr ⟨rfl, rfl⟩, length_indices shape, ?_,
      fun idx => mem_indices, nodup_indices shape, pairwise_indices shape⟩
    intro k idx hk
    have hlt : k < shape.prod := by
      rw [← length_indices]
      exact (List.getElem?_eq_some_iff.mp hk).1
    rw [getElem?_indices hlt] at hk
    rw [unravel_eq k h.positive, Option.some.inj hk]
  · obtain ⟨v, hv, hindex⟩ := contiguous_index h
    refine ⟨v, hv, fun k hk => ?_, fun idx hi => ?_⟩
    · have hi := indexAt_inRange k h.positive
      refine ⟨indexAt k shape, unravel_eq k h.positive, hi, ?_⟩
      rw [hindex _ hi, position_indexAt hk]
    · refine ⟨position shape idx, position_lt hi, hindex idx hi, ?_⟩
      rw [unravel_eq _ h.positive, indexAt_position hi]

/-- Six indices, none of them lost at the axis of one position. -/
theorem advance_unravel_contiguous_unit_axis :
    ∃ visited, Visits [2, 1, 3] [0, 0, 0] visited [0, 0, 0] ∧ visited.length = 6 := by
  have hcounted : Counted [2, 1, 3] := ⟨by decide, by decide⟩
  obtain ⟨⟨visited, hvisits, hlength, -⟩, -⟩ := advance_unravel_contiguous hcounted
  exact ⟨visited, hvisits, hlength⟩

end TensorLoom.Shape
