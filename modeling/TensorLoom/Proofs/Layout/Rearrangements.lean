import TensorLoom.Proofs.Layout.Edits

/-!
# Edits that rearrange axes

A permutation reads the same steps along the same axes in another order (`View.gathers_permute`). A
reshape in which only unit axes come and go keeps the others in their order, and the row-major
position of an index does not depend on its entries on unit axes (`View.gathers_of_reshape?`).
-/

namespace TensorLoom

open Shape (InRange position indexAt)

/-! ## Permutations -/

namespace View

variable {γ : Type}

/-- A list written out by its positions. -/
theorem eq_map_range_getD (xs : List γ) (d : γ) :
    xs = (List.range xs.length).map (xs.getD · d) := by
  refine List.ext_getElem (by simp) fun i h _ => ?_
  simp [h]

/-- Entries listed in the order of a permutation, looked up by axis. -/
theorem eq_map_idxOf {axes : List Nat} (h : axes.Nodup) {xs : List Nat}
    (hl : xs.length = axes.length) : xs = axes.map fun axis => xs.getD (axes.idxOf axis) 0 := by
  refine List.ext_getElem (by simp [hl]) fun i hi ha => ?_
  rw [List.length_map] at ha
  rw [List.getElem_map, List.Nodup.idxOf_getElem h i ha]
  simp [hi]

theorem axes_permute {v : View} {axes : List Nat}
    (h : axes.Perm (List.range v.shape.length)) :
    (v.permute axes).axes = axes.map (v.axes.getD · Axis.unit) := by
  have hmem : ∀ a ∈ axes, a < v.axes.length := fun a ha => by
    simpa [shape] using h.mem_iff.mp ha
  rw [permute, ← List.filterMap_eq_map]
  refine List.filterMap_congr fun a ha => ?_
  simp [hmem a ha]

theorem shape_permute {v : View} {axes : List Nat}
    (h : axes.Perm (List.range v.shape.length)) :
    (v.permute axes).shape = axes.map (v.shape.getD · 0) := by
  rw [shape, axes_permute h, List.map_map]
  refine List.map_congr_left fun a ha => ?_
  have : a < v.axes.length := by simpa [shape] using h.mem_iff.mp ha
  simp [shape, this]

theorem mem_axes_permute {v : View} {axes : List Nat} {a : Axis} (h : a ∈ (v.permute axes).axes) :
    a ∈ v.axes := by
  obtain ⟨i, -, hi⟩ := List.mem_filterMap.mp h
  exact List.mem_of_getElem? hi

/-- An index of the permuted axes and its source are the same pairs of an entry and an axis. -/
theorem zip_axes_permute {v : View} {axes : List Nat}
    (h : axes.Perm (List.range v.shape.length)) {idx : List Nat} (hl : idx.length = axes.length) :
    (idx.zip (v.permute axes).axes).Perm
      (((List.range v.shape.length).map fun axis => idx.getD (axes.idxOf axis) 0).zip v.axes) := by
  have hidx : idx = axes.map fun axis => idx.getD (axes.idxOf axis) 0 :=
    eq_map_idxOf (h.nodup_iff.mpr List.nodup_range) hl
  have haxes : v.axes = (List.range v.shape.length).map (v.axes.getD · Axis.unit) := by
    rw [shape, List.length_map]
    exact eq_map_range_getD _ _
  generalize hg : (fun axis => idx.getD (axes.idxOf axis) 0) = g at hidx ⊢
  generalize hf : (fun axis => v.axes.getD axis Axis.unit) = f at haxes
  rw [axes_permute h, hf, hidx, haxes, List.zip_map', List.zip_map']
  exact h.map _

theorem gathers_permute {v : View} {axes : List Nat}
    (h : axes.Perm (List.range v.shape.length)) :
    v.Gathers (v.permute axes) ((Movement.permute axes).source v.shape) where
  inRange idx hi src hs := by
    obtain rfl := Option.some.inj hs
    have hl : idx.length = axes.length := by
      rw [hi.length_eq, shape_permute h, List.length_map]
    refine List.forall₂_iff_get.mpr ⟨by simp, fun i hs hv => ?_⟩
    have hmem : i ∈ axes := h.mem_iff.mpr (List.mem_range.mpr hv)
    have hpos : axes.idxOf i < idx.length := by rw [hl]; exact List.idxOf_lt_length_of_mem hmem
    have := (List.forall₂_iff_get.mp hi).2 (axes.idxOf i) hpos (by rw [← hi.length_eq]; exact hpos)
    simp only [shape_permute h, List.get_eq_getElem, List.getElem_map] at this ⊢
    simpa [hpos, hv] using this
  read idx hi := by
    have hl : idx.length = axes.length := by
      rw [hi.length_eq, shape_permute h, List.length_map]
    have hperm := zip_axes_permute h hl
    refine read_congr ?_ (congrArg (v.offset + ·) ?_)
    · exact hperm.all_eq
    · exact (hperm.map _).sum_eq

end View

/-! ## Unit axes -/

namespace Shape

/-- The entries of an index on the axes that are not unit axes. -/
def squeeze : (shape idx : List Nat) → List Nat
  | dim :: shape, i :: idx => if dim = 1 then squeeze shape idx else i :: squeeze shape idx
  | _, _ => []

theorem prod_filter (shape : List Nat) : (shape.filter (· ≠ 1)).prod = shape.prod := by
  induction shape with
  | nil => rfl
  | cons dim shape ih =>
    by_cases h : dim = 1
    · rw [List.filter_cons_of_neg (by simpa using h), ih, List.prod_cons, h, Nat.one_mul]
    · rw [List.filter_cons_of_pos (by simpa using h), List.prod_cons, List.prod_cons, ih]

theorem squeeze_inRange {shape idx : List Nat} (h : InRange idx shape) :
    InRange (squeeze shape idx) (shape.filter (· ≠ 1)) := by
  induction h with
  | nil => exact .nil
  | @cons i dim idx shape hi _ ih =>
    by_cases hd : dim = 1
    · rwa [List.filter_cons_of_neg (by simpa using hd), squeeze, if_pos hd]
    · rw [List.filter_cons_of_pos (by simpa using hd), squeeze, if_neg hd]
      exact .cons hi ih

/-- The entries on unit axes do not count for the position. -/
theorem position_squeeze {shape idx : List Nat} (h : InRange idx shape) :
    position (shape.filter (· ≠ 1)) (squeeze shape idx) = position shape idx := by
  induction h with
  | nil => rfl
  | @cons i dim idx shape hi _ ih =>
    by_cases hd : dim = 1
    · rw [List.filter_cons_of_neg (by simpa using hd), squeeze, if_pos hd, ih, position,
        show i = 0 by omega, Nat.zero_mul, Nat.zero_add]
    · rw [List.filter_cons_of_pos (by simpa using hd), squeeze, if_neg hd, position, position,
        ih, prod_filter]

end Shape

namespace View

open Shape (squeeze)

theorem steps_squeeze {axes : List Axis} {idx : List Nat} (hi : InRange idx (axes.map (·.size))) :
    steps (squeeze (axes.map (·.size)) idx) (axes.filter (·.size ≠ 1)) = steps idx axes := by
  induction axes generalizing idx with
  | nil => simp
  | cons a axes ih =>
    rw [List.map_cons] at hi ⊢
    cases hi with
    | @cons i _ idx _ hi hr =>
      by_cases h : a.size = 1
      · rw [List.filter_cons_of_neg (by simpa using h), squeeze, if_pos h, ih hr, steps_cons,
          show i = 0 by omega]
        simp
      · rw [List.filter_cons_of_pos (by simpa using h), squeeze, if_neg h, steps_cons, ih hr,
          steps_cons]

theorem admits_squeeze {axes : List Axis} (hu : ∀ a ∈ axes, a.size = 1 → a.admits 0 = true)
    {idx : List Nat} (hi : InRange idx (axes.map (·.size))) :
    admits (squeeze (axes.map (·.size)) idx) (axes.filter (·.size ≠ 1)) = admits idx axes := by
  induction axes generalizing idx with
  | nil => simp
  | cons a axes ih =>
    have ih := @ih fun b hb => hu b (List.mem_cons_of_mem _ hb)
    rw [List.map_cons] at hi ⊢
    cases hi with
    | @cons i _ idx _ hi hr =>
      by_cases h : a.size = 1
      · rw [List.filter_cons_of_neg (by simpa using h), squeeze, if_pos h, ih hr, admits_cons,
          show i = 0 by omega, hu a List.mem_cons_self h, Bool.true_and]
      · rw [List.filter_cons_of_pos (by simpa using h), squeeze, if_neg h, admits_cons, ih hr,
          admits_cons]

/-- Views read the same at indices of one position if they have the same axes but for unit axes
that admit their position. -/
theorem read_eq_of_wide {v w : View} (ho : v.offset = w.offset)
    (hw : v.axes.filter (·.size ≠ 1) = w.axes.filter (·.size ≠ 1))
    (hv : ∀ a ∈ v.axes, a.size = 1 → a.admits 0 = true)
    (hw' : ∀ a ∈ w.axes, a.size = 1 → a.admits 0 = true) {i j : List Nat}
    (hi : InRange i v.shape) (hj : InRange j w.shape)
    (hp : Shape.position v.shape i = Shape.position w.shape j) : v.read i = w.read j := by
  have hshape : v.shape.filter (· ≠ 1) = w.shape.filter (· ≠ 1) := by
    rw [shape, shape, List.filter_map, List.filter_map]
    exact congrArg (List.map (·.size)) hw
  have hsq : squeeze v.shape i = squeeze w.shape j := by
    refine Shape.position_inj (Shape.squeeze_inRange hi) ?_ ?_
    · rw [hshape]
      exact Shape.squeeze_inRange hj
    · rw [Shape.position_squeeze hi, hshape, Shape.position_squeeze hj, hp]
  rw [shape, shape] at hsq
  refine read_congr ?_ ?_
  · rw [← admits_squeeze hv hi, ← admits_squeeze hw' hj, hsq, hw]
  · rw [ho, ← steps_squeeze hi, ← steps_squeeze hj, hsq, hw]

/-! ### Moving them -/

theorem respace_unit (shape : List Nat) (axes : List Axis) :
    respace (1 :: shape) axes = Axis.unit :: respace shape axes := by
  cases axes <;> rfl

theorem respace_wide {dim : Nat} (h : dim ≠ 1) (shape : List Nat) (a : Axis) (axes : List Axis) :
    respace (dim :: shape) (a :: axes) = a :: respace shape axes := if_neg h

theorem map_size_respace {shape : List Nat} {axes : List Axis}
    (h : axes.map (·.size) = shape.filter (· ≠ 1)) :
    (respace shape axes).map (·.size) = shape := by
  induction shape generalizing axes with
  | nil => cases axes <;> rfl
  | cons dim shape ih =>
    by_cases hd : dim = 1
    · rw [List.filter_cons_of_neg (by simpa using hd)] at h
      subst hd
      rw [respace_unit, List.map_cons, ih h]
      rfl
    · rw [List.filter_cons_of_pos (by simpa using hd)] at h
      obtain ⟨a, axes, rfl, ha, haxes⟩ := List.map_eq_cons_iff.mp h
      rw [respace_wide hd, List.map_cons, ih haxes, ha]

theorem filter_respace {shape : List Nat} {axes : List Axis}
    (h : axes.map (·.size) = shape.filter (· ≠ 1)) :
    (respace shape axes).filter (·.size ≠ 1) = axes := by
  induction shape generalizing axes with
  | nil =>
    obtain rfl : axes = [] := by simpa using h
    rfl
  | cons dim shape ih =>
    by_cases hd : dim = 1
    · rw [List.filter_cons_of_neg (by simpa using hd)] at h
      subst hd
      rw [respace_unit, List.filter_cons_of_neg (by decide), ih h]
    · rw [List.filter_cons_of_pos (by simpa using hd)] at h
      obtain ⟨a, axes, rfl, rfl, haxes⟩ := List.map_eq_cons_iff.mp h
      rw [respace_wide hd, List.filter_cons_of_pos (by simpa using hd), ih haxes]

theorem mem_respace {shape : List Nat} {axes : List Axis} {a : Axis} (h : a ∈ respace shape axes) :
    a = Axis.unit ∨ a ∈ axes := by
  induction shape generalizing axes with
  | nil => cases h
  | cons dim shape ih =>
    unfold respace at h
    split at h
    · rcases List.mem_cons.mp h with rfl | h
      · exact .inl rfl
      · exact ih h
    · cases axes with
      | nil => cases h
      | cons b axes =>
        rcases List.mem_cons.mp h with rfl | h
        · exact .inr List.mem_cons_self
        · exact (ih h).imp_right (List.mem_cons_of_mem _)

theorem bounded_unit : Axis.unit.Bounded := ⟨by decide, by decide, by decide⟩

/-- What is known of a view that a reshape can edit: the unit axes admit their position, and those
of another size are the ones of the shape. -/
theorem reshape?_eq_some {v w : View} {shape : List Nat} (h : v.reshape? shape = some w) :
    (v.axes.filter (·.size ≠ 1)).map (·.size) = shape.filter (· ≠ 1) ∧
      (∀ a ∈ v.axes, a.size = 1 → a.admits 0 = true) ∧
      w = normalize { v with axes := respace shape (v.axes.filter (·.size ≠ 1)) } := by
  unfold reshape? at h
  dsimp only at h
  split at h
  · cases h
  rename_i hsizes
  split at h
  · cases h
  rename_i hunits
  refine ⟨not_not.mp hsizes, fun a ha h1 => ?_, (Option.some.inj h).symm⟩
  rw [Bool.and_eq_true, not_and_or, Bool.not_eq_true, Bool.not_eq_true] at hunits
  rcases hunits with hm | hm
  · refine Axis.admits_of_isCovered ?_ (by omega)
    rw [isMasked, Bool.not_eq_false'] at hm
    exact List.all_eq_true.mp hm a ha
  · have := List.any_eq_false.mp hm a ha
    simp only [h1, decide_true, Bool.true_and, decide_eq_true_eq, not_not, Prod.mk.injEq,
      ne_eq] at this
    simp [Axis.admits, this]

theorem bounded_respace {axes : List Axis} (h : ∀ a ∈ axes, a.Bounded) (shape : List Nat) :
    ∀ a ∈ respace shape (axes.filter (·.size ≠ 1)), a.Bounded := by
  intro a ha
  rcases mem_respace ha with rfl | ha
  · exact bounded_unit
  · exact h a (List.mem_of_mem_filter ha)

theorem shape_of_reshape? {v w : View} {shape : List Nat} (h : v.reshape? shape = some w) :
    w.shape = shape := by
  obtain ⟨hsizes, -, rfl⟩ := reshape?_eq_some h
  rw [shape_normalize]
  exact map_size_respace hsizes

theorem gathers_of_reshape? {v w : View} {shape : List Nat} (hp : ∀ d ∈ v.shape, 0 < d)
    (h : v.reshape? shape = some w) :
    v.Gathers w ((Movement.reshape shape).source v.shape) := by
  have hw := shape_of_reshape? h
  obtain ⟨hsizes, hunits, rfl⟩ := reshape?_eq_some h
  rw [shape_normalize] at hw
  refine Gathers.normalize ⟨fun idx _ src hs => ?_, fun idx hi => ?_⟩
  · obtain rfl := Option.some.inj hs
    exact Shape.indexAt_inRange _ hp
  · have hprod : v.shape.prod = shape.prod := by
      rw [← Shape.prod_filter shape, ← hsizes, ← Shape.prod_filter v.shape, View.shape,
        List.filter_map]
      rfl
    refine read_eq_of_wide (w := v) ?_ (filter_respace hsizes) (fun a ha _ => ?_) hunits hi
      (Shape.indexAt_inRange _ hp) ?_
    · rfl
    · rcases mem_respace ha with rfl | ha
      · rfl
      · exact absurd ‹a.size = 1› (by simpa using (List.mem_filter.mp ha).2)
    · rw [hw, Shape.position_indexAt]
      rw [hprod, ← hw]
      exact Shape.position_lt hi

end View

end TensorLoom
