import TensorLoom.Proofs.Layout.Reading
import TensorLoom.Proofs.Layout.Gather

/-!
# Edits of views

Each movement edits the axes of the top view in place. Here each edit is shown to gather: where the
textbook source of an index is `idx`, the edited view reads what the view read at `idx`, and where
the movement puts a zero its bounds leave the index out (`View.Gathers`).

Four of the movements treat each axis by itself. `Axis.Follows` is what such an edit has to keep for
one axis, and `View.gathers_axiswise` puts the axes together; permutations and reshapes that only
move unit axes have theorems of their own, `View.gathers_permute` and `View.gathers_reshape?`.
-/

namespace TensorLoom

open Shape (InRange position indexAt)
open Movement (axiswise)

/-! ## Normal forms -/

namespace Axis

theorem Bounded.settle {a : Axis} (h : a.Bounded) : a.settle.Tidy := by
  unfold Axis.settle
  split
  · exact ⟨⟨h.positive, h.fits, h.high_le⟩, fun _ => rfl⟩
  · exact ⟨h, fun h1 => absurd h1 ‹_›⟩

theorem Tidy.unbounded {a : Axis} (h : a.Tidy) : a.unbounded.Tidy :=
  ⟨⟨h.positive, h.fits, Nat.le_refl _⟩, h.still⟩

theorem bounded_full {size : Nat} (stride : Int) (hp : 0 < size) (hf : size < Word.half) :
    (full size stride).Bounded := ⟨hp, hf, Nat.le_refl _⟩

@[simp] theorem settle_size (a : Axis) : a.settle.size = a.size := by
  unfold settle; split <;> rfl

@[simp] theorem settle_admits (a : Axis) (i : Nat) : a.settle.admits i = a.admits i := by
  unfold settle; split <;> rfl

theorem settle_step (a : Axis) {i : Nat} (hi : i < a.size) :
    (i : Int) * a.settle.stride = i * a.stride := by
  unfold settle
  split
  · rw [show i = 0 by omega]; simp
  · rfl

end Axis

namespace View

theorem shape_normalize (v : View) : v.normalize.shape = v.shape := by
  unfold normalize shape
  dsimp only
  split <;> simp [Function.comp_def, Axis.unbounded]

theorem tidy_normalize {v : View} (h : ∀ a ∈ v.axes, a.Bounded) :
    ∀ a ∈ v.normalize.axes, a.Tidy := by
  have hs : ∀ a ∈ v.axes.map Axis.settle, a.Tidy := by
    intro a ha
    obtain ⟨b, hb, rfl⟩ := List.mem_map.mp ha
    exact (h b hb).settle
  intro a ha
  unfold normalize at ha
  dsimp only at ha
  split at ha
  · obtain ⟨b, hb, rfl⟩ := List.mem_map.mp ha
    exact (hs b hb).unbounded
  · exact hs a ha

theorem steps_settle {axes : List Axis} {idx : List Nat} (hi : InRange idx (axes.map (·.size))) :
    steps idx (axes.map Axis.settle) = steps idx axes := by
  induction axes generalizing idx with
  | nil => rfl
  | cons a axes ih =>
    rw [List.map_cons] at hi
    cases hi with
    | cons hi hr => rw [List.map_cons, steps_cons, steps_cons, ih hr, Axis.settle_step a hi]

theorem admits_settle (idx : List Nat) (axes : List Axis) :
    admits idx (axes.map Axis.settle) = admits idx axes := by
  induction axes generalizing idx with
  | nil => simp
  | cons a axes ih =>
    cases idx with
    | nil => rfl
    | cons i idx => rw [List.map_cons, admits_cons, admits_cons, ih, Axis.settle_admits]

theorem steps_unbounded (idx : List Nat) (axes : List Axis) :
    steps idx (axes.map Axis.unbounded) = steps idx axes := by
  induction axes generalizing idx with
  | nil => rfl
  | cons a axes ih =>
    cases idx with
    | nil => rfl
    | cons i idx => rw [List.map_cons, steps_cons, steps_cons, ih]; rfl

/-- The normal form of a view reads like the view. -/
theorem read_normalize {v : View} {idx : List Nat} (hi : InRange idx v.shape) :
    v.normalize.read idx = v.read idx := by
  have hi' : InRange idx ((v.axes.map Axis.settle).map (·.size)) := by
    simpa [Function.comp_def, shape] using hi
  unfold normalize
  dsimp only
  split
  · rename_i hc
    -- bounds that leave nothing out admit what the full ranges admit
    refine read_congr ?_ ?_
    · dsimp only
      rw [← admits_settle idx v.axes, admits_of_covered hc hi']
      refine admits_of_covered ?_ (by simpa [Function.comp_def, Axis.unbounded] using hi')
      simp [Axis.unbounded, Axis.isCovered]
    · dsimp only
      rw [steps_unbounded, steps_settle hi]
  · exact read_congr (admits_settle idx v.axes) (congrArg (v.offset + ·) (steps_settle hi))

/-! ## Edits that gather -/

/-- One view reads what another reads at the source of an index, and nothing where there is no
source. -/
structure Gathers (v w : View) (source : List Nat → Option (List Nat)) : Prop where
  inRange : ∀ idx, InRange idx w.shape → ∀ i, source idx = some i → InRange i v.shape
  read : ∀ idx, InRange idx w.shape → w.read idx = (source idx).bind v.read

theorem Gathers.normalize {v w : View} {source : List Nat → Option (List Nat)}
    (h : v.Gathers w source) : v.Gathers w.normalize source where
  inRange idx hi := h.inRange idx (by rwa [shape_normalize] at hi)
  read idx hi := by
    rw [shape_normalize] at hi
    rw [read_normalize hi, h.read idx hi]

/-- A view that gathers from another stays where the other stays. -/
theorem Gathers.within {v w : View} {source : List Nat → Option (List Nat)} {bound : Nat}
    (h : v.Gathers w source) (hv : v.Within bound) (tidy : ∀ a ∈ w.axes, a.Tidy) :
    w.Within bound where
  tidy := tidy
  inside idx hi o ho := by
    rw [h.read idx hi] at ho
    obtain ⟨i, hs, hr⟩ := Option.bind_eq_some_iff.mp ho
    exact hv.inside i (h.inRange idx hi i hs) o hr

end View

/-! ## Edits of each axis by itself -/

/-- What an edit of one axis keeps, `rule` being where its positions come from and `shift` the way
that the edit moves the offset of the view. -/
structure Axis.Follows (a a' : Axis) (shift : Int) (rule : Nat → Option Nat) : Prop where
  skip : ∀ i < a'.size, rule i = none → a'.admits i = false
  take : ∀ i < a'.size, ∀ j, rule i = some j →
    j < a.size ∧ a'.admits i = a.admits j ∧ shift + i * a'.stride = j * a.stride

namespace View

variable {β : Type} {rule : Nat → β → Nat → Option Nat} {edit : Axis → β → Axis}
  {shift : Axis → β → Int}

/-- Edits of the axes one by one, along an index. -/
theorem axiswise_cases {axes : List Axis} {args : List β}
    (h : List.Forall₂ (fun a b => Axis.Follows a (edit a b) (shift a b) (rule a.size b)) axes args)
    {idx : List Nat} (hi : InRange idx ((List.zipWith edit axes args).map (·.size))) :
    match axiswise rule (axes.map (·.size)) args idx with
    | none => admits idx (List.zipWith edit axes args) = false
    | some src => InRange src (axes.map (·.size)) ∧
        admits idx (List.zipWith edit axes args) = admits src axes ∧
        (List.zipWith shift axes args).sum + steps idx (List.zipWith edit axes args) =
          steps src axes := by
  induction h generalizing idx with
  | nil => cases hi; simp [axiswise]
  | @cons a b axes args hab _ ih =>
    simp only [List.zipWith_cons_cons, List.map_cons] at hi
    cases hi with
    | @cons i _ idx _ hi hr =>
      have ih := ih hr
      simp only [List.map_cons, axiswise, List.zipWith_cons_cons, admits_cons, List.sum_cons,
        steps_cons]
      cases hj : rule a.size b i with
      | none => simp [hab.skip i hi hj]
      | some j =>
        obtain ⟨hja, hadm, hstep⟩ := hab.take i hi j hj
        cases hs : axiswise rule (axes.map (·.size)) args idx with
        | none =>
          rw [hs] at ih
          simp [ih]
        | some src =>
          rw [hs] at ih
          obtain ⟨hin, hadms, hsteps⟩ := ih
          refine ⟨.cons hja hin, by rw [admits_cons, hadm, hadms], ?_⟩
          rw [steps_cons, ← hstep, ← hsteps]
          ring

theorem gathers_axiswise {v : View} {args : List β}
    (h : List.Forall₂ (fun a b => Axis.Follows a (edit a b) (shift a b) (rule a.size b))
      v.axes args) :
    v.Gathers ⟨v.offset + (List.zipWith shift v.axes args).sum, List.zipWith edit v.axes args⟩
      (axiswise rule v.shape args) where
  inRange idx hi src hs := by
    have := axiswise_cases h hi
    rw [shape] at hs
    rw [hs] at this
    exact this.1
  read idx hi := by
    have := axiswise_cases h hi
    rw [shape]
    cases hs : axiswise rule (v.axes.map (·.size)) args idx with
    | none =>
      rw [hs] at this
      rw [View.read, if_neg (by rw [this]; exact Bool.false_ne_true)]
      rfl
    | some src =>
      rw [hs] at this
      obtain ⟨-, hadm, hsteps⟩ := this
      exact read_congr hadm (by dsimp only; rw [Int.add_assoc, hsteps])

/-- The offset of an edited view, moved axis by axis in machine words. -/
theorem foldlM_shift_yields (shift : Axis → β → Int) {f : Int → Axis × β → Checked Int}
    {axes : List Axis} {args : List β}
    (h : ∀ o, ∀ x ∈ axes.zip args, Yields (f o x) (o + shift x.1 x.2)) (o : Int) :
    Yields ((axes.zip args).foldlM f o) (o + (List.zipWith shift axes args).sum) := by
  induction axes generalizing args o with
  | nil => simpa using Yields.pure o
  | cons a axes ih =>
    cases args with
    | nil => simpa using Yields.pure o
    | cons b args =>
      rw [List.zip_cons_cons] at h ⊢
      rw [List.foldlM_cons, List.zipWith_cons_cons, List.sum_cons, ← Int.add_assoc]
      exact .bind (h o _ List.mem_cons_self)
        (ih (fun o x hx => h o x (List.mem_cons_of_mem _ hx)) _)

theorem mapM_edit_yields {f : Axis × β → Checked Axis} {axes : List Axis} {args : List β}
    (h : ∀ x ∈ axes.zip args, Yields (f x) (edit x.1 x.2)) :
    Yields ((axes.zip args).mapM f) (List.zipWith edit axes args) := by
  rw [← List.map_uncurry_zip_eq_zipWith]
  exact .mapM h

theorem forall_zipWith {α γ : Type} {f : α → β → γ} {P : γ → Prop} {xs : List α} {ys : List β}
    (h : List.Forall₂ (fun x y => P (f x y)) xs ys) : ∀ z ∈ List.zipWith f xs ys, P z := by
  induction h with
  | nil => intro z hz; cases hz
  | cons hxy _ ih =>
    intro z hz
    rcases List.mem_cons.mp hz with rfl | hz
    · exact hxy
    · exact ih z hz

theorem exists_of_mem_zipWith {α γ : Type} {f : α → β → γ} {xs : List α} {ys : List β} {z : γ}
    (h : z ∈ List.zipWith f xs ys) : ∃ x ∈ xs, ∃ y, f x y = z := by
  rw [← List.map_uncurry_zip_eq_zipWith] at h
  obtain ⟨⟨x, y⟩, hxy, rfl⟩ := List.mem_map.mp h
  exact ⟨x, (List.of_mem_zip hxy).1, y, rfl⟩

end View

/-! ## The four edits of an axis -/

namespace Axis

theorem size_expand (a : Axis) (size : Nat) : (a.expand size).size = size := by
  unfold Axis.expand
  split
  · assumption
  · split <;> rfl

/-- A unit axis can be repeated if its bounds end inside it, or else if they make no difference
between the positions that it is repeated at. -/
theorem follows_expand_iff {a : Axis} (hpos : 0 < a.size) {size : Nat}
    (h : a.size = size ∨ a.size = 1) :
    a.Follows (a.expand size) 0 (Movement.expandRule a.size size) ↔
      a.size = size ∨ a.high ≤ a.size ∨ ∀ i < size, a.admits i = a.admits 0 := by
  by_cases hs : a.size = size
  · refine ⟨fun _ => .inl hs, fun _ => ⟨fun i hi hn => (nomatch hn), fun i hi j hj => ?_⟩⟩
    obtain rfl := Option.some.inj hj
    rw [Axis.expand, if_pos hs] at hi ⊢
    by_cases h1 : a.size = 1
    · rw [if_pos h1, show i = 0 by omega]
      exact ⟨hpos, rfl, Int.zero_add _⟩
    · rw [if_neg h1]
      exact ⟨hi, rfl, Int.zero_add _⟩
  have h1 : a.size = 1 := h.resolve_left hs
  have hrule (i : Nat) : Movement.expandRule a.size size i = some 0 := by
    rw [Movement.expandRule, if_pos h1]
  unfold Axis.expand
  rw [if_neg hs]
  split
  · rename_i hm
    simp only [Prod.mk.injEq] at hm
    refine ⟨fun _ => .inr (.inl (by omega)), fun _ => ⟨fun i hi hn => ?_, fun i hi j hj => ?_⟩⟩
    · rw [hrule] at hn
      cases hn
    · obtain rfl := Option.some.inj ((hrule i).symm.trans hj)
      exact ⟨hpos, by simp [admits, hm, show i < size from hi], by simp⟩
  · rename_i hm
    simp only [Prod.mk.injEq] at hm
    constructor
    · exact fun hf => .inr (.inr fun i hi => (hf.take i hi 0 (hrule i)).2.1)
    · intro hb
      refine ⟨fun i hi hn => ?_, fun i hi j hj => ?_⟩
      · rw [hrule] at hn
        cases hn
      · obtain rfl := Option.some.inj ((hrule i).symm.trans hj)
        refine ⟨hpos, ?_, by simp⟩
        rcases hb.resolve_left hs with hhigh | hb
        · -- the bounds of a unit axis that are not (0, 1) leave out every position
          rw [Bool.eq_iff_iff, admits_iff, admits_iff]
          dsimp only
          omega
        · exact hb i hi

theorem follows_expand {a : Axis} (ha : a.Tidy) {size : Nat} (h : a.size = size ∨ a.size = 1) :
    a.Follows (a.expand size) 0 (Movement.expandRule a.size size) :=
  (follows_expand_iff ha.positive h).mpr (.inr (.inl ha.high_le))

theorem bounded_expand {a : Axis} (ha : a.Tidy) {size : Nat} (h : a.size = size ∨ a.size = 1)
    (hp : 0 < size) (hf : size < Word.half) : (a.expand size).Bounded := by
  have hhigh := ha.high_le
  unfold Axis.expand
  split
  · exact ha.toBounded
  split
  · exact ⟨hp, hf, Nat.le_refl _⟩
  · exact ⟨hp, hf, by dsimp only; omega⟩

/-- The axis with positions around it that read as zero. -/
def padded (a : Axis) (amounts : Nat × Nat) : Axis :=
  ⟨a.size + (amounts.1 + amounts.2), a.stride, a.low + amounts.1, a.high + amounts.1⟩

theorem pad_yields (a : Axis) (amounts : Nat × Nat) :
    Yields (a.pad amounts.1 amounts.2) (a.padded amounts) :=
  .bind (Word.add_yields _ _) (.bind (Word.add_yields _ _)
    (.bind (Word.add_yields _ _) (.bind (Word.add_yields _ _) (.pure _))))

/-- Positions can be put around an axis if its bounds leave out those behind its last element. -/
theorem follows_padded_iff {a : Axis} {amounts : Nat × Nat} :
    a.Follows (a.padded amounts) (-(amounts.1 * a.stride)) (Movement.padRule a.size amounts) ↔
      ∀ i, a.size ≤ i → i < a.size + amounts.2 → a.admits i = false := by
  have hadmits (i : Nat) : (a.padded amounts).admits (i + amounts.1) = a.admits i := by
    rw [Bool.eq_iff_iff, admits_iff, admits_iff]
    simp only [padded]
    omega
  constructor
  · intro hf i hsize hi
    rw [← hadmits]
    refine hf.skip _ ?_ (if_neg (by omega))
    simp only [padded]
    omega
  · refine fun hb => ⟨fun i hi hn => ?_, fun i hi j hj => ?_⟩
    · simp only [padded] at hi
      simp only [Movement.padRule, ite_eq_right_iff, reduceCtorEq, imp_false] at hn
      by_cases hfront : i < amounts.1
      · rw [Bool.eq_false_iff, Ne, admits_iff]
        simp only [padded]
        omega
      · rw [← hb (i - amounts.1) (by omega) (by omega), ← hadmits, Nat.sub_add_cancel (by omega)]
    · unfold Movement.padRule at hj
      split at hj
      · rename_i h
        obtain rfl := Option.some.inj hj
        refine ⟨h.2, ?_, ?_⟩
        · rw [← hadmits, Nat.sub_add_cancel h.1]
        · simp only [padded]
          push_cast [h.1]
          ring
      · cases hj

theorem follows_padded {a : Axis} (ha : a.Tidy) (amounts : Nat × Nat) :
    a.Follows (a.padded amounts) (-(amounts.1 * a.stride)) (Movement.padRule a.size amounts) := by
  refine follows_padded_iff.mpr fun i hsize _ => ?_
  have hhigh := ha.high_le
  rw [Bool.eq_false_iff, Ne, admits_iff]
  omega

theorem bounded_padded {a : Axis} (ha : a.Tidy) {amounts : Nat × Nat}
    (hf : a.size + (amounts.1 + amounts.2) < Word.half) : (a.padded amounts).Bounded where
  positive := Nat.add_pos_left ha.positive _
  fits := hf
  high_le := by
    have := ha.high_le
    simp only [padded]
    omega

theorem size_shrink (a : Axis) (first stop : Nat) : (a.shrink first stop).size = stop - first := by
  unfold shrink
  dsimp only
  split <;> rfl

theorem stride_shrink (a : Axis) (first stop : Nat) : (a.shrink first stop).stride = a.stride := by
  unfold shrink
  dsimp only
  split <;> rfl

theorem admits_shrink {a : Axis} {first stop i : Nat} (hi : i < stop - first) :
    (a.shrink first stop).admits i = a.admits (first + i) := by
  rw [Bool.eq_iff_iff, admits_iff, admits_iff]
  unfold shrink
  dsimp only
  split <;> dsimp only <;> omega

theorem follows_shrink {a : Axis} {range : Nat × Nat} (h : range.1 < range.2 ∧ range.2 ≤ a.size) :
    a.Follows (a.shrink range.1 range.2) (range.1 * a.stride)
      (Movement.shrinkRule a.size range) where
  skip i hi hn := by cases hn
  take i hi j hj := by
    rw [size_shrink] at hi
    obtain rfl := Option.some.inj hj
    refine ⟨by omega, admits_shrink hi, ?_⟩
    rw [stride_shrink]
    push_cast
    ring

theorem bounded_shrink {a : Axis} (ha : a.Tidy) {range : Nat × Nat}
    (h : range.1 < range.2 ∧ range.2 ≤ a.size) : (a.shrink range.1 range.2).Bounded where
  positive := by rw [size_shrink]; omega
  fits := by rw [size_shrink]; exact Nat.lt_of_le_of_lt (by omega) ha.fits
  high_le := by
    unfold shrink
    dsimp only
    split <;> dsimp only <;> omega

/-- The axis of the positions that are stepped on. -/
def stepped (a : Axis) (pace : Int) : Axis :=
  full ((a.size + pace.natAbs - 1) / pace.natAbs) (a.stride * pace)

theorem step_yields (a : Axis) (pace : Int) : Yields (a.step pace) (a.stepped pace) :=
  .bind (Signed.mul_yields _ _) (.pure _)

/-- The offset of the last element, from which negative steps start. -/
def lastFor (a : Axis) (pace : Int) : Int :=
  if pace < 0 then ((a.size : Int) - 1) * a.stride else 0

/-- The steps taken inside an axis do not leave it. -/
theorem mul_lt_of_lt_steps {size pace i : Nat} (hp : 0 < pace)
    (hi : i < (size + pace - 1) / pace) : i * pace < size := by
  have := (Nat.le_div_iff_mul_le hp).mp (Nat.succ_le_of_lt hi)
  rw [Nat.succ_mul] at this
  omega

theorem follows_stepped {a : Axis} (hc : a.isCovered = true) {pace : Int} (h : pace ≠ 0) :
    a.Follows (a.stepped pace) (a.lastFor pace) (Movement.strideRule a.size pace) where
  skip i hi hn := by cases hn
  take i hi j hj := by
    have hlt := mul_lt_of_lt_steps (Int.natAbs_pos.mpr h) hi
    have hadm : (a.stepped pace).admits i = true :=
      admits_iff.mpr ⟨Nat.zero_le _, hi⟩
    obtain rfl := Option.some.inj hj
    rw [hadm]
    by_cases hneg : 0 < pace
    · rw [if_pos hneg, lastFor, if_neg (by omega)]
      refine ⟨hlt, (admits_of_isCovered hc hlt).symm, ?_⟩
      rw [Nat.cast_mul, Int.natAbs_of_nonneg (Int.le_of_lt hneg)]
      simp only [stepped, full]
      ring
    · have hj : a.size - 1 - i * pace.natAbs < a.size := by omega
      rw [if_neg hneg, lastFor, if_pos (by omega)]
      refine ⟨hj, (admits_of_isCovered hc hj).symm, ?_⟩
      have hcast : ((a.size - 1 - i * pace.natAbs : Nat) : Int) = a.size - 1 + i * pace := by
        rw [Nat.sub_sub, Nat.cast_sub (by omega)]
        push_cast
        rw [abs_of_nonpos (by omega)]
        ring
      rw [hcast]
      simp only [stepped, full]
      ring

theorem bounded_stepped {a : Axis} (ha : a.Tidy) {pace : Int} (h : pace ≠ 0) :
    (a.stepped pace).Bounded := by
  have hpos := ha.positive
  have hp := Int.natAbs_pos.mpr h
  refine bounded_full _ ?_ ?_
  · exact (Nat.le_div_iff_mul_le hp).mpr (by omega)
  · refine Nat.lt_of_le_of_lt ?_ ha.fits
    refine Nat.le_of_lt_succ ((Nat.div_lt_iff_lt_mul hp).mpr ?_)
    have := Nat.mul_le_mul_left a.size hp
    rw [Nat.succ_mul]
    omega

end Axis

end TensorLoom
