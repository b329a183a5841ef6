import TensorLoom.Layout.Tracker
import TensorLoom.Proofs.Layout.RowMajor
import Mathlib.Tactic.Ring

/-!
# What a tracker reads

`View.read` and `Tracker.read` are the mathematical side of `View.index` and `Tracker.index`: the
same positions, computed with integers of any size.

A tracker built by movements keeps one invariant, `Tracker.Within`: the axes of every view are tidy,
and where its masks admit an index a view stays inside the shape below it, the lowest one inside
the buffer. Under it the index of a position is what the tracker reads, unless the arithmetic
overflows (`Tracker.index_yields`).
-/

namespace TensorLoom

open Shape (InRange position indexAt rowStrides)

/-! ## Axes -/

namespace Axis

/-- The bounds of an axis end inside it, and its positions can be read as signed words. -/
structure Bounded (a : Axis) : Prop where
  positive : 0 < a.size
  fits : a.size < Word.half
  high_le : a.high ≤ a.size

/-- How the axes of a view are kept: bounded, and without a stride on a unit axis. -/
structure Tidy (a : Axis) : Prop extends Bounded a where
  still : a.size = 1 → a.stride = 0

theorem admits_iff {a : Axis} {i : Nat} : a.admits i = true ↔ a.low ≤ i ∧ i < a.high := by
  simp [admits]

theorem isCovered_iff {a : Axis} : a.isCovered = true ↔ a.low = 0 ∧ a.size ≤ a.high := by
  simp [isCovered]

theorem admits_of_isCovered {a : Axis} {i : Nat} (h : a.isCovered = true) (hi : i < a.size) :
    a.admits i = true := by
  have := isCovered_iff.mp h
  exact admits_iff.mpr ⟨by omega, by omega⟩

end Axis

/-! ## Views -/

namespace View

/-- Whether every entry of an index is admitted by its axis. -/
def admits (idx : List Nat) (axes : List Axis) : Bool :=
  (idx.zip axes).all fun (i, a) => a.admits i

/-- The sum of the steps that an index takes along the axes. -/
def steps (idx : List Nat) (axes : List Axis) : Int :=
  ((idx.zip axes).map fun (i, a) => (i : Int) * a.stride).sum

/-- The offset of an index, or `none` where the bounds leave it out. -/
def read (v : View) (idx : List Nat) : Option Int :=
  if admits idx v.axes then some (v.offset + steps idx v.axes) else none

@[simp] theorem admits_nil (idx : List Nat) : admits idx [] = true := by simp [admits]

@[simp] theorem admits_cons (i : Nat) (idx : List Nat) (a : Axis) (axes : List Axis) :
    admits (i :: idx) (a :: axes) = (a.admits i && admits idx axes) := rfl

@[simp] theorem steps_nil (idx : List Nat) : steps idx [] = 0 := by simp [steps]

@[simp] theorem steps_cons (i : Nat) (idx : List Nat) (a : Axis) (axes : List Axis) :
    steps (i :: idx) (a :: axes) = i * a.stride + steps idx axes := by
  simp [steps]

theorem read_of_admits {v : View} {idx : List Nat} (h : admits idx v.axes = true) :
    v.read idx = some (v.offset + steps idx v.axes) := if_pos h

/-- Views whose bounds and steps agree at an index read the same there. -/
theorem read_congr {v w : View} {idx idx' : List Nat}
    (ha : admits idx v.axes = admits idx' w.axes)
    (hs : v.offset + steps idx v.axes = w.offset + steps idx' w.axes) :
    v.read idx = w.read idx' := by
  rw [read, read, ha, hs]

theorem admits_of_covered {axes : List Axis} (h : axes.all Axis.isCovered = true) {idx : List Nat}
    (hi : InRange idx (axes.map (·.size))) : admits idx axes = true := by
  induction axes generalizing idx with
  | nil => simp
  | cons a axes ih =>
    rw [List.map_cons] at hi
    cases hi with
    | cons hi hr =>
      simp only [List.all_cons, Bool.and_eq_true] at h
      rw [admits_cons, Axis.admits_of_isCovered h.1 hi, ih h.2 hr]
      rfl

theorem admits_of_isMasked {v : View} (h : v.isMasked = false) {idx : List Nat}
    (hi : InRange idx v.shape) : admits idx v.axes = true :=
  admits_of_covered (by simpa [isMasked] using h) hi

/-- A view stays inside a shape of `bound` elements where its bounds admit an index. -/
structure Within (v : View) (bound : Nat) : Prop where
  tidy : ∀ a ∈ v.axes, a.Tidy
  inside : ∀ idx, InRange idx v.shape → ∀ o, v.read idx = some o → 0 ≤ o ∧ o < bound

theorem forall_shape {v : View} {P : Nat → Prop} (h : ∀ a ∈ v.axes, P a.size) :
    ∀ d ∈ v.shape, P d := by
  intro d hd
  obtain ⟨a, ha, rfl⟩ := List.mem_map.mp hd
  exact h a ha

theorem Within.positive {v : View} {bound : Nat} (h : v.Within bound) : ∀ d ∈ v.shape, 0 < d :=
  forall_shape fun a ha => (h.tidy a ha).positive

theorem Within.fits {v : View} {bound : Nat} (h : v.Within bound) :
    ∀ d ∈ v.shape, d < Word.half :=
  forall_shape fun a ha => (h.tidy a ha).fits

/-- The steps of an index, summed up in machine words. -/
theorem foldlM_steps_yields {axes : List Axis} (hf : ∀ a ∈ axes, a.size < Word.half)
    {idx : List Nat} (hi : InRange idx (axes.map (·.size))) (start : Int) :
    Yields ((idx.zip axes).foldlM (fun sum (x : Nat × Axis) => do
        Signed.add sum (← Signed.mul (Signed.ofSize x.1) x.2.stride)) start)
      (start + steps idx axes) := by
  induction axes generalizing idx start with
  | nil => simpa using Yields.pure start
  | cons a axes ih =>
    rw [List.map_cons] at hi
    cases hi with
    | @cons i _ idx _ hi hr =>
      rw [List.zip_cons_cons, List.foldlM_cons, steps_cons, ← Int.add_assoc]
      have ha := hf a List.mem_cons_self
      refine .bind ?_ (ih (fun b hb => hf b (List.mem_cons_of_mem _ hb)) hr _)
      rw [Signed.ofSize_eq (Nat.lt_trans hi ha)]
      exact .bind (Signed.mul_yields _ _) (Signed.add_yields _ _)

/-- The bounds decide whether an index has an offset, also in a view without a mask. -/
theorem index_eq {v : View} {idx : List Nat} (hi : InRange idx v.shape) :
    v.index idx = if admits idx v.axes then do
        let steps ← (idx.zip v.axes).foldlM (fun sum (x : Nat × Axis) => do
          Signed.add sum (← Signed.mul (Signed.ofSize x.1) x.2.stride)) 0
        some <$> Signed.add v.offset steps
      else pure none := by
  unfold index
  cases hm : v.isMasked with
  | false =>
    rw [admits_of_isMasked hm hi]
    rfl
  | true =>
    rw [Bool.true_and]
    show (if (!admits idx v.axes) = true then _ else _) = _
    cases admits idx v.axes <;> rfl

theorem index_yields {v : View} (hf : ∀ d ∈ v.shape, d < Word.half) {idx : List Nat}
    (hi : InRange idx v.shape) : Yields (v.index idx) (v.read idx) := by
  have hsteps := foldlM_steps_yields (fun a ha => hf _ (List.mem_map_of_mem ha)) hi 0
  rw [Int.zero_add] at hsteps
  rw [index_eq hi, read]
  split
  · exact .bind hsteps ((Signed.add_yields _ _).map some)
  · exact .pure none

/-! ## Row-major views -/

/-- The row-major view of a shape. -/
def row (shape : List Nat) : View := ⟨0, List.zipWith Axis.full shape (rowStrides shape)⟩

theorem shape_row (shape : List Nat) : (row shape).shape = shape := by
  induction shape with
  | nil => rfl
  | cons dim inner ih => exact congrArg (dim :: ·) ih

theorem strides_row (shape : List Nat) : (row shape).strides = rowStrides shape := by
  induction shape with
  | nil => rfl
  | cons dim inner ih => exact congrArg (_ :: ·) ih

theorem isMasked_row (shape : List Nat) : (row shape).isMasked = false := by
  induction shape with
  | nil => rfl
  | cons dim inner ih =>
    simp only [isMasked, row, Bool.not_eq_false'] at ih ⊢
    simp [rowStrides, ih, Axis.isCovered, Axis.full]

theorem tidy_row {shape : List Nat} (hp : ∀ d ∈ shape, 0 < d) (hf : ∀ d ∈ shape, d < Word.half) :
    ∀ a ∈ (row shape).axes, a.Tidy := by
  induction shape with
  | nil => intro a ha; cases ha
  | cons dim inner ih =>
    intro a ha
    rcases List.mem_cons.mp ha with rfl | ha
    · exact ⟨⟨hp dim List.mem_cons_self, hf dim List.mem_cons_self, Nat.le_refl _⟩,
        fun h => if_pos h⟩
    · exact ih (fun d hd => hp d (List.mem_cons_of_mem _ hd))
        (fun d hd => hf d (List.mem_cons_of_mem _ hd)) a ha

/-- Row-major strides lead to the row-major position. -/
theorem steps_eq_position {axes : List Axis}
    (h : axes.map (·.stride) = rowStrides (axes.map (·.size))) {idx : List Nat}
    (hi : InRange idx (axes.map (·.size))) :
    steps idx axes = position (axes.map (·.size)) idx := by
  induction axes generalizing idx with
  | nil => simp [position]
  | cons a axes ih =>
    simp only [List.map_cons, rowStrides, List.cons.injEq] at h hi ⊢
    cases hi with
    | @cons i _ idx _ hi hr =>
      rw [steps_cons, ih h.2 hr, h.1, position]
      split
      · rw [show i = 0 by omega]; simp
      · push_cast; rfl

/-- Whether a view is the row-major view of its shape. -/
def isRow (v : View) : Bool :=
  v.offset = 0 ∧ v.isMasked = false ∧ v.strides = rowStrides v.shape

theorem isRow_row (shape : List Nat) : (row shape).isRow = true := by
  simp [isRow, isMasked_row, strides_row, shape_row, show (row shape).offset = 0 from rfl]

theorem isContiguous_yields {v : View} (hf : ∀ d ∈ v.shape, d < Word.half) :
    Yields v.isContiguous v.isRow := by
  unfold isContiguous
  split
  · rename_i h
    refine .bind (Shape.strides_yields hf) ?_
    rw [isRow]
    simp only [h, true_and]
    exact .pure _
  · rename_i h
    refine Yields.of_eq (.pure false) (Eq.symm ?_)
    rw [isRow, decide_eq_false_iff_not]
    exact fun hr => h ⟨hr.1, hr.2.1⟩

theorem read_of_isRow {v : View} (h : v.isRow = true) {idx : List Nat} (hi : InRange idx v.shape) :
    v.read idx = some (position v.shape idx : Int) := by
  obtain ⟨ho, hm, hs⟩ := of_decide_eq_true h
  rw [read_of_admits (admits_of_isMasked hm hi), ho, Int.zero_add, steps_eq_position hs hi]
  rfl

theorem read_row {shape idx : List Nat} (hi : InRange idx shape) :
    (row shape).read idx = some (position shape idx : Int) := by
  rw [read_of_isRow (isRow_row shape) (by rwa [shape_row]), shape_row]

theorem within_row {shape : List Nat} (hp : ∀ d ∈ shape, 0 < d) (hf : ∀ d ∈ shape, d < Word.half)
    {bound : Nat} (hb : shape.prod ≤ bound) : (row shape).Within bound where
  tidy := tidy_row hp hf
  inside idx hi o ho := by
    rw [shape_row] at hi
    have := Shape.position_lt hi
    rw [read_row hi, Option.some.injEq] at ho
    omega

theorem prod_le_of_isRow {v : View} {bound : Nat} (h : v.Within bound) (hr : v.isRow = true) :
    v.shape.prod ≤ bound := by
  have hp := Shape.prod_pos h.positive
  have hi := Shape.indexAt_inRange (v.shape.prod - 1) h.positive
  have ho := (h.inside _ hi _ (read_of_isRow hr hi)).2
  rw [Shape.position_indexAt (by omega)] at ho
  omega

theorem checkShape_settles (shape : List Nat) :
    Settles (checkShape shape) (¬ ∀ d ∈ shape, 0 < d) fun _ => ∀ d ∈ shape, 0 < d := by
  unfold checkShape
  split
  · exact .pure (Shape.isPositive_iff.mp ‹_›)
  · exact .refuse (mt Shape.isPositive_iff.mpr ‹_›)

theorem contiguous_settles {shape : List Nat} (hf : ∀ d ∈ shape, d < Word.half) :
    Settles (contiguous shape) (¬ ∀ d ∈ shape, 0 < d) fun v =>
      (∀ d ∈ shape, 0 < d) ∧ v = row shape := by
  refine .bind (checkShape_settles shape) fun _ hp => ?_
  exact .lift_bind (Shape.strides_yields hf) (.pure ⟨hp, rfl⟩)

end View

/-! ## Stacks of views -/

namespace Tracker

/-- The position that an index of the top view is sent to by the views below. -/
def readFrom (idx : List Nat) (top : View) : List View → Option Nat
  | [] => (top.read idx).bind position
  | next :: below =>
    (top.read idx).bind fun offset => (position offset).bind fun flat =>
      if flat < next.shape.prod then readFrom (indexAt flat next.shape) next below else none

/-- The position in the buffer of an index, or `none` where it reads as zero. -/
def read (t : Tracker) (idx : List Nat) : Option Nat := readFrom idx t.top t.below

/-- Every view of a stack stays inside the one below, the lowest inside `bound` elements. -/
def WithinFrom (bound : Nat) (top : View) : List View → Prop
  | [] => top.Within bound
  | next :: below => top.Within next.shape.prod ∧ WithinFrom bound next below

/-- Every view of a tracker stays inside the one below, and the lowest inside a buffer of `bound`
elements. -/
def Within (t : Tracker) (bound : Nat) : Prop := WithinFrom bound t.top t.below

variable {bound : Nat}

/-- The number of elements that the top of a stack addresses. -/
def room (bound : Nat) : List View → Nat
  | [] => bound
  | next :: _ => next.shape.prod

theorem WithinFrom.top {top : View} {below : List View} (h : WithinFrom bound top below) :
    top.Within (room bound below) := by
  cases below with
  | nil => exact h
  | cons next below => exact h.1

/-- Another view that fits into the same room can take the place of the top. -/
theorem WithinFrom.replace {top top' : View} {below : List View} (h : WithinFrom bound top below)
    (h' : top'.Within (room bound below)) : WithinFrom bound top' below := by
  cases below with
  | nil => exact h'
  | cons next below => exact ⟨h', h.2⟩

theorem Within.top {t : Tracker} (h : t.Within bound) : t.top.Within (room bound t.below) :=
  WithinFrom.top h

theorem Within.positive {t : Tracker} (h : t.Within bound) : ∀ d ∈ t.shape, 0 < d :=
  h.top.positive

theorem Within.fits {t : Tracker} (h : t.Within bound) : ∀ d ∈ t.shape, d < Word.half :=
  h.top.fits

@[simp] theorem position_natCast (n : Nat) : Tracker.position (n : Int) = some n := by
  simp [Tracker.position]

theorem position_eq_some {o : Int} {n : Nat} : Tracker.position o = some n ↔ o = n := by
  unfold Tracker.position
  split
  · rw [Option.some.injEq]; omega
  · simp only [reduceCtorEq, false_iff]; omega

/-- A tracker whose top reads like a view at another index reads like it. -/
theorem readFrom_congr {top top' : View} {idx idx' : List Nat} (h : top.read idx = top'.read idx')
    (below : List View) : readFrom idx top below = readFrom idx' top' below := by
  cases below <;> simp only [readFrom, h]

theorem readFrom_eq_none {top : View} {idx : List Nat} (h : top.read idx = none)
    (below : List View) : readFrom idx top below = none := by
  cases below <;> simp [readFrom, h]

theorem readFrom_cons {top next : View} {below : List View} {idx : List Nat} {flat : Nat}
    (h : top.read idx = some (flat : Int)) (hb : flat < next.shape.prod) :
    readFrom idx top (next :: below) = readFrom (indexAt flat next.shape) next below := by
  simp [readFrom, h, hb]

theorem indexFrom_yields {top : View} {below : List View} (h : WithinFrom bound top below)
    {idx : List Nat} (hi : InRange idx top.shape) :
    Yields (indexFrom idx top below) (readFrom idx top below) := by
  induction below generalizing top idx with
  | nil =>
    refine .bind (View.index_yields h.top.fits hi) ?_
    cases ho : top.read idx <;> simp only [readFrom, ho] <;> exact .pure _
  | cons next below ih =>
    refine .bind (View.index_yields h.top.fits hi) ?_
    cases ho : top.read idx with
    | none => simp only [readFrom, ho]; exact .pure _
    | some o =>
      obtain ⟨h0, -⟩ := h.1.inside idx hi o ho
      obtain ⟨flat, rfl⟩ := Int.eq_ofNat_of_zero_le h0
      simp only [readFrom, ho, Option.bind_some, position_natCast]
      refine .bind (Shape.size_yields _) ?_
      split
      · rw [Shape.unravel_eq flat h.2.top.positive]
        exact ih h.2 (Shape.indexAt_inRange flat h.2.top.positive)
      · exact .pure _

/-- Unless the arithmetic overflows, the index of a position is what the tracker reads. -/
theorem index_yields {t : Tracker} (h : t.Within bound) {idx : List Nat}
    (hi : InRange idx t.shape) : Yields (t.index idx) (t.read idx) :=
  indexFrom_yields h hi

theorem readFrom_lt {top : View} {below : List View} (h : WithinFrom bound top below)
    {idx : List Nat} (hi : InRange idx top.shape) {n : Nat} (hn : readFrom idx top below = some n) :
    n < bound := by
  induction below generalizing top idx with
  | nil =>
    obtain ⟨o, ho, hp⟩ := Option.bind_eq_some_iff.mp hn
    have := (h.inside idx hi o ho).2
    rw [position_eq_some] at hp
    omega
  | cons next below ih =>
    obtain ⟨o, -, hn⟩ := Option.bind_eq_some_iff.mp hn
    obtain ⟨flat, -, hn⟩ := Option.bind_eq_some_iff.mp hn
    split at hn
    · exact ih h.2 (Shape.indexAt_inRange flat h.2.top.positive) hn
    · cases hn

/-- A tracker reads inside its buffer. -/
theorem read_lt {t : Tracker} (h : t.Within bound) {idx : List Nat} (hi : InRange idx t.shape)
    {n : Nat} (hn : t.read idx = some n) : n < bound :=
  readFrom_lt h hi hn

/-- The tracker of a row-major buffer reads the row-major position. -/
theorem read_row {shape idx : List Nat} (hi : InRange idx shape) :
    read ⟨.row shape, []⟩ idx = some (Shape.position shape idx) := by
  simp [read, readFrom, View.read_row hi]

theorem within_row {shape : List Nat} (hp : ∀ d ∈ shape, 0 < d) (hf : ∀ d ∈ shape, d < Word.half) :
    Within ⟨.row shape, []⟩ shape.prod :=
  View.within_row hp hf (Nat.le_refl _)

theorem ofShape_settles {shape : List Nat} (hf : ∀ d ∈ shape, d < Word.half) :
    Settles (ofShape shape) (¬ ∀ d ∈ shape, 0 < d) fun t =>
      (∀ d ∈ shape, 0 < d) ∧ t = ⟨.row shape, []⟩ := by
  refine .bind (View.contiguous_settles hf) ?_
  rintro _ ⟨hp, rfl⟩
  exact .pure ⟨hp, rfl⟩

end Tracker

end TensorLoom
