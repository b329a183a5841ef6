import TensorLoom.Proofs.Layout.Rearrangements

/-!
# Folding movements into a tracker

Whatever a tracker does to its views, a movement is accepted exactly when it is valid for the shape
seen from outside, and the tracker it makes reads each index where the movement takes it from
(`Tracker.move_settles`). Applied in order from a row-major buffer, movements therefore lead to the
positions that gathering the elements through them one at a time leads to (`Tracker.moveAll_index`).

Each movement has a lemma of its own; dropping the views that have become redundant changes nothing
of what is read (`Tracker.collapse_settles`).
-/

namespace TensorLoom

open Shape (InRange position indexAt)

theorem entry_eq {α : Type} {xs : List α} {i : Nat} (h : i < xs.length) :
    entry xs i = .ok xs[i] := by
  simp [entry, h]

namespace Tracker

variable {bound : Nat} {t t' : Tracker} {m : Movement}

/-- A tracker is what a movement makes of another one. -/
structure Moves (bound : Nat) (t t' : Tracker) (m : Movement) : Prop where
  valid : m.Valid t.shape
  shape : t'.shape = m.resultShape t.shape
  within : t'.Within bound
  inRange : ∀ idx, InRange idx t'.shape → ∀ i, m.source t.shape idx = some i → InRange i t.shape
  read : ∀ idx, InRange idx t'.shape → t'.read idx = (m.source t.shape idx).bind t.read

/-- An edit of the top view that gathers. -/
theorem Moves.of_gathers (h : t.Within bound) (valid : m.Valid t.shape) {w : View}
    (hw : t.top.Gathers w (m.source t.shape)) (tidy : ∀ a ∈ w.axes, a.Tidy)
    (shape : w.shape = m.resultShape t.shape) : Moves bound t (t.withTop w) m where
  valid := valid
  shape := shape
  within := WithinFrom.replace h (hw.within h.top tidy)
  inRange := hw.inRange
  read idx hi := by
    have hr := hw.read idx hi
    cases hs : m.source t.shape idx with
    | none => exact readFrom_eq_none (hr.trans (by rw [hs]; rfl)) _
    | some i => exact readFrom_congr (hr.trans (by rw [hs]; rfl)) _

/-- Trackers that read the same can take the place of each other. -/
structure Same (bound : Nat) (t t' : Tracker) : Prop where
  shape : t'.shape = t.shape
  within : t'.Within bound
  read : ∀ idx, InRange idx t'.shape → t'.read idx = t.read idx

theorem Same.refl (h : t.Within bound) : Same bound t t := ⟨rfl, h, fun _ _ => rfl⟩

theorem Moves.same_left {t₁ : Tracker} (h₁ : Same bound t t₁) (h : Moves bound t₁ t' m) :
    Moves bound t t' m where
  valid := h₁.shape ▸ h.valid
  shape := h₁.shape ▸ h.shape
  within := h.within
  inRange idx hi i hs := h₁.shape ▸ h.inRange idx hi i (h₁.shape ▸ hs)
  read idx hi := by
    have hr := h.read idx hi
    have hin := h.inRange idx hi
    rw [h₁.shape] at hr hin
    rw [hr]
    cases hs : m.source t.shape idx with
    | none => rfl
    | some i => exact h₁.read i (h₁.shape ▸ hin i hs)

theorem Moves.same_right {t₁ : Tracker} (h : Moves bound t t₁ m) (h₁ : Same bound t₁ t') :
    Moves bound t t' m where
  valid := h.valid
  shape := h₁.shape.trans h.shape
  within := h₁.within
  inRange idx hi := h.inRange idx (h₁.shape ▸ hi)
  read idx hi := (h₁.read idx hi).trans (h.read idx (h₁.shape ▸ hi))

/-! ## Row-major views on top -/

/-- A row-major view on top reads the elements in row-major order. -/
theorem read_push {shape idx : List Nat} (hs : t.shape.prod = shape.prod) (hi : InRange idx shape) :
    (t.push (.row shape)).read idx = t.read (indexAt (Shape.position shape idx) t.shape) :=
  readFrom_cons (View.read_row hi) (Nat.lt_of_lt_of_eq (Shape.position_lt hi) hs.symm)

theorem within_push (h : t.Within bound) {shape : List Nat} (hp : ∀ d ∈ shape, 0 < d)
    (hf : ∀ d ∈ shape, d < Word.half) (hs : t.shape.prod = shape.prod) :
    (t.push (.row shape)).Within bound :=
  ⟨View.within_row hp hf (Nat.le_of_eq hs.symm), h⟩

theorem shape_push (t : Tracker) (shape : List Nat) : (t.push (.row shape)).shape = shape :=
  View.shape_row shape

theorem same_push (h : t.Within bound) : Same bound t (t.push (.row t.shape)) where
  shape := shape_push t t.shape
  within := within_push h h.positive h.fits rfl
  read idx hi := by
    rw [shape_push] at hi
    rw [read_push rfl hi, Shape.indexAt_position hi]

/-! ## Reshapes -/

theorem inRange_reshape (h : t.Within bound) (shape : List Nat) {idx i : List Nat}
    (hi : (Movement.reshape shape).source t.shape idx = some i) : InRange i t.shape := by
  obtain rfl := Option.some.inj hi
  exact Shape.indexAt_inRange _ h.positive

/-- A row-major view of another shape reads the elements of a row-major one in order. -/
theorem gathers_row {v : View} (hv : v.isRow = true) (hp : ∀ d ∈ v.shape, 0 < d)
    {shape : List Nat} (hs : v.shape.prod = shape.prod) :
    v.Gathers (.row shape) ((Movement.reshape shape).source v.shape) where
  inRange idx _ i hi := by
    obtain rfl := Option.some.inj hi
    exact Shape.indexAt_inRange _ hp
  read idx hi := by
    rw [View.shape_row] at hi
    have hlt : Shape.position shape idx < v.shape.prod := hs ▸ Shape.position_lt hi
    rw [View.read_row hi]
    refine Eq.trans ?_ (View.read_of_isRow hv (Shape.indexAt_inRange _ hp)).symm
    rw [Shape.position_indexAt hlt]

theorem moves_refl (h : t.Within bound) (valid : m.Valid t.shape)
    (shape : t.shape = m.resultShape t.shape)
    (source : ∀ idx, InRange idx t.shape → m.source t.shape idx = some idx) :
    Moves bound t t m where
  valid := valid
  shape := shape
  within := h
  inRange idx hi i hs := by
    rw [source idx hi, Option.some.injEq] at hs
    exact hs ▸ hi
  read idx hi := by rw [source idx hi]; rfl

theorem moves_push (h : t.Within bound) {shape : List Nat} (hp : ∀ d ∈ shape, 0 < d)
    (hf : ∀ d ∈ shape, d < Word.half) (hs : t.shape.prod = shape.prod) :
    Moves bound t (t.push (.row shape)) (.reshape shape) where
  valid := ⟨hp, hs⟩
  shape := shape_push t shape
  within := within_push h hp hf hs
  inRange _ _ _ hi := inRange_reshape h shape hi
  read idx hi := by
    rw [shape_push] at hi
    exact read_push hs hi

theorem reshape_settles (h : t.Within bound) {shape : List Nat}
    (hf : (Movement.reshape shape).Valid t.shape → ∀ d ∈ shape, d < Word.half) :
    Settles (t.reshape shape) (¬ (Movement.reshape shape).Valid t.shape)
      (Moves bound t · (.reshape shape)) := by
  refine .bind ((View.checkShape_settles shape).mono (fun hp hv => hp hv.1) fun _ => id)
    fun _ hp => ?_
  refine .lift_bind (Shape.size_yields _) (.lift_bind (Shape.size_yields _) ?_)
  split
  · rename_i hs
    exact .refuse fun hv => hs hv.2
  rename_i hs
  have hs : t.shape.prod = shape.prod := not_not.mp hs
  have hv : (Movement.reshape shape).Valid t.shape := ⟨hp, hs⟩
  have hrow : Settles (View.contiguous shape) (¬ (Movement.reshape shape).Valid t.shape)
      (· = View.row shape) :=
    (View.contiguous_settles (hf hv)).mono (fun hp' => absurd hp hp') fun _ => And.right
  split
  · rename_i heq
    refine .pure (moves_refl h hv heq fun idx hi => congrArg some ?_)
    rw [← heq, Shape.indexAt_position hi]
  refine .lift_bind (View.isContiguous_yields h.fits) ?_
  split
  · rename_i hc
    refine .bind hrow ?_
    rintro _ rfl
    exact .pure (Moves.of_gathers h hv (gathers_row hc h.positive hs) (View.tidy_row hp (hf hv))
      (View.shape_row shape))
  split
  · rename_i w hw
    refine .pure (Moves.of_gathers h hv (View.gathers_of_reshape? h.positive hw) ?_
      (View.shape_of_reshape? hw))
    obtain ⟨-, -, rfl⟩ := View.reshape?_eq_some hw
    exact View.tidy_normalize (View.bounded_respace (fun a ha => (h.top.tidy a ha).toBounded) shape)
  · refine .bind hrow ?_
    rintro _ rfl
    exact .pure (moves_push h hp (hf hv) hs)

/-! ## The movements that keep the rank -/

theorem isPermutation_iff {axes : List Nat} {rank : Nat} :
    isPermutation axes rank = true ↔ axes.Perm (List.range rank) := by
  simp only [isPermutation, Bool.and_eq_true, decide_eq_true_eq, List.all_eq_true]
  constructor
  · rintro ⟨⟨hl, hlt⟩, hnodup⟩
    have hsub : axes.Subperm (List.range rank) :=
      List.subperm_of_subset hnodup fun a ha => List.mem_range.mpr (hlt a ha)
    exact hsub.perm_of_length_le (by rw [List.length_range, hl])
  · intro h
    refine ⟨⟨by simpa using h.length_eq, fun a ha => ?_⟩, h.nodup_iff.mpr List.nodup_range⟩
    exact List.mem_range.mp (h.mem_iff.mp ha)

theorem permute_settles (h : t.Within bound) (axes : List Nat) :
    Settles (t.permute axes) (¬ (Movement.permute axes).Valid t.shape)
      (Moves bound t · (.permute axes)) := by
  unfold Tracker.permute
  dsimp only
  split
  · rename_i hp
    have hv : (Movement.permute axes).Valid t.shape := isPermutation_iff.mp hp
    exact .pure (Moves.of_gathers h hv (View.gathers_permute hv)
      (fun a ha => h.top.tidy a (View.mem_axes_permute ha)) (View.shape_permute hv))
  · exact .refuse (mt isPermutation_iff.mpr ‹_›)

theorem checkRank_settles (t : Tracker) (argument : Ranked) (entries : Nat) :
    Settles (t.checkRank argument entries) (entries ≠ t.shape.length)
      fun _ => t.shape.length = entries := by
  unfold checkRank
  dsimp only
  split
  · exact .pure (Eq.symm ‹_›)
  · exact .refuse ‹_›

variable {β : Type} {args : List β}

/-- An argument fits a shape axis by axis unless there is a first axis where it does not. -/
theorem findIdx?_eq_none_iff_forall₂ {xs : List Nat} (hl : xs.length = args.length)
    {p : Nat × β → Bool} {R : Nat → β → Prop} (h : ∀ a b, p (a, b) = false ↔ R a b) :
    (xs.zip args).findIdx? p = none ↔ List.Forall₂ R xs args := by
  rw [List.findIdx?_eq_none_iff, List.forall₂_iff_zip]
  exact ⟨fun hf => ⟨hl, fun {a b} hab => (h a b).mp (hf _ hab)⟩,
    fun hf x hx => (h x.1 x.2).mpr (hf.2 hx)⟩

theorem lt_length_of_findIdx? {xs : List Nat} {p : Nat × β → Bool} {i : Nat}
    (h : (xs.zip args).findIdx? p = some i) : i < xs.length ∧ i < args.length := by
  have := (List.findIdx?_eq_some_iff_getElem.mp h).1
  rw [List.length_zip] at this
  omega

/-- Edits of the axes one by one are what a movement makes of a tracker if each of them is. -/
theorem Moves.of_axiswise (rule : Nat → β → Nat → Option Nat) (edit : Axis → β → Axis)
    (shift : Axis → β → Int) (h : t.Within bound) (valid : m.Valid t.shape)
    (source : m.source t.shape = Movement.axiswise rule t.shape args)
    (shape : m.resultShape t.shape = List.zipWith (fun a b => (edit a b).size) t.top.axes args)
    (hl : t.shape.length = args.length)
    (hedit : ∀ a b, (a, b) ∈ t.top.axes.zip args → a.Tidy →
      a.Follows (edit a b) (shift a b) (rule a.size b) ∧ (edit a b).Bounded) :
    Moves bound t (t.withTop (View.normalize ⟨t.top.offset +
      (List.zipWith shift t.top.axes args).sum, List.zipWith edit t.top.axes args⟩)) m := by
  have hl : t.top.axes.length = args.length := by simpa [Tracker.shape, View.shape] using hl
  have hedit : ∀ {a b}, (a, b) ∈ t.top.axes.zip args →
      a.Follows (edit a b) (shift a b) (rule a.size b) ∧ (edit a b).Bounded :=
    fun hab => hedit _ _ hab (h.top.tidy _ (List.of_mem_zip hab).1)
  have hfollows := List.forall₂_iff_zip.mpr ⟨hl, fun hab => (hedit hab).1⟩
  have hbounded := List.forall₂_iff_zip.mpr ⟨hl, fun hab => (hedit hab).2⟩
  refine Moves.of_gathers h valid ?_ (View.tidy_normalize (View.forall_zipWith hbounded)) ?_
  · rw [source]
    exact (View.gathers_axiswise hfollows).normalize
  · rw [View.shape_normalize, shape, View.shape, List.map_zipWith]

theorem zipWith_right {α γ : Type} (f : β → γ) {xs : List α} (hl : xs.length = args.length) :
    List.zipWith (fun _ b => f b) xs args = args.map f := by
  rw [← List.map_uncurry_zip_eq_zipWith]
  calc (xs.zip args).map (Function.uncurry fun _ b => f b)
      = ((xs.zip args).map Prod.snd).map f := by rw [List.map_map]; rfl
    _ = args.map f := by rw [List.map_snd_zip (Nat.le_of_eq hl.symm)]

theorem zipWith_left {α γ : Type} (f : α → γ) {xs : List α} (hl : xs.length = args.length) :
    List.zipWith (fun a _ => f a) xs args = xs.map f := by
  rw [← List.map_uncurry_zip_eq_zipWith]
  calc (xs.zip args).map (Function.uncurry fun a _ => f a)
      = ((xs.zip args).map Prod.fst).map f := by rw [List.map_map]; rfl
    _ = xs.map f := by rw [List.map_fst_zip (Nat.le_of_eq hl)]

theorem length_axes (t : Tracker) : t.top.axes.length = t.shape.length := by
  rw [Tracker.shape, View.shape, List.length_map]

theorem expand_settles (h : t.Within bound) {shape : List Nat}
    (hf : (Movement.expand shape).Valid t.shape → ∀ d ∈ shape, d < Word.half) :
    Settles (t.expand shape) (¬ (Movement.expand shape).Valid t.shape)
      (Moves bound t · (.expand shape)) := by
  refine .bind ((checkRank_settles t _ _).mono
    (fun hl hv => hl hv.2.length_eq.symm) fun _ => id) fun _ hl => ?_
  refine .bind ((View.checkShape_settles shape).mono (fun hp hv => hp hv.1) fun _ => id)
    fun _ hp => ?_
  have hfind := @findIdx?_eq_none_iff_forall₂ Nat shape t.shape hl
    (fun x => decide (x.1 ≠ x.2 ∧ x.1 ≠ 1)) (fun a b => a = b ∨ a = 1)
    fun a b => by simp only [decide_eq_false_iff_not]; tauto
  split
  · rename_i axis haxis
    obtain ⟨h₁, h₂⟩ := lt_length_of_findIdx? haxis
    rw [entry_eq h₁, entry_eq h₂]
    refine .refuse fun hv => ?_
    rw [hfind.mpr hv.2] at haxis
    cases haxis
  · rename_i hnone
    have hv : (Movement.expand shape).Valid t.shape := ⟨hp, hfind.mp hnone⟩
    have haxes : List.Forall₂ (fun (a : Axis) d => a.size = d ∨ a.size = 1) t.top.axes shape :=
      List.forall₂_map_left_iff.mp hv.2
    have hmoves := Moves.of_axiswise Movement.expandRule Axis.expand (fun _ _ => 0) h hv rfl
      (by
        simp only [Axis.size_expand]
        rw [zipWith_right (fun d => d) ((length_axes t).trans hl), List.map_id']
        rfl)
      hl fun a d had ha =>
        have hd := List.forall₂_zip haxes had
        have hmem := (List.of_mem_zip had).2
        ⟨Axis.follows_expand ha hd, Axis.bounded_expand ha hd (hp d hmem) (hf hv d hmem)⟩
    have hzero :
        (List.zipWith (fun (_ : Axis) (_ : Nat) => (0 : Int)) t.top.axes shape).sum = 0 := by
      rw [zipWith_right (fun _ => 0) ((length_axes t).trans hl)]
      simp
    rw [hzero, Int.add_zero] at hmoves
    exact .pure hmoves

/-- The dimensions of a padded shape. -/
theorem forall_padded {shape : List Nat} {amounts : List (Nat × Nat)} {P : Nat → Prop}
    (h : ∀ d ∈ (Movement.pad amounts).resultShape shape, P d) {size : Nat} {r : Nat × Nat}
    (hr : (size, r) ∈ shape.zip amounts) : P (size + (r.1 + r.2)) := by
  refine h _ ?_
  rw [Movement.resultShape, ← List.map_uncurry_zip_eq_zipWith]
  exact List.mem_map_of_mem
    (f := Function.uncurry fun size (r : Nat × Nat) => size + (r.1 + r.2)) hr

theorem axiswise_padRule_zero {shape : List Nat} {amounts : List (Nat × Nat)}
    (hz : ∀ r ∈ amounts, r = (0, 0)) (hl : shape.length = amounts.length) {idx : List Nat}
    (hi : InRange idx shape) : Movement.axiswise Movement.padRule shape amounts idx = some idx := by
  induction hi generalizing amounts with
  | nil => cases amounts <;> rfl
  | @cons i size idx shape hi _ ih =>
    cases amounts with
    | nil => cases hl
    | cons r amounts =>
      obtain rfl := hz r List.mem_cons_self
      rw [Movement.axiswise, ih (fun r hr => hz r (List.mem_cons_of_mem _ hr))
        (Nat.succ.inj hl), Movement.padRule, if_pos ⟨Nat.zero_le _, hi⟩]
      rfl

theorem resultShape_pad_zero {shape : List Nat} {amounts : List (Nat × Nat)}
    (hz : ∀ r ∈ amounts, r = (0, 0)) (hl : shape.length = amounts.length) :
    (Movement.pad amounts).resultShape shape = shape := by
  induction shape generalizing amounts with
  | nil => cases amounts <;> rfl
  | cons size shape ih =>
    cases amounts with
    | nil => cases hl
    | cons r amounts =>
      obtain rfl := hz r List.mem_cons_self
      exact congrArg (size :: ·)
        (ih (fun r hr => hz r (List.mem_cons_of_mem _ hr)) (Nat.succ.inj hl))

theorem pad_settles (h : t.Within bound) {amounts : List (Nat × Nat)}
    (hf : (Movement.pad amounts).Valid t.shape →
      ∀ d ∈ (Movement.pad amounts).resultShape t.shape, d < Word.half) :
    Settles (t.pad amounts) (¬ (Movement.pad amounts).Valid t.shape)
      (Moves bound t · (.pad amounts)) := by
  refine .bind ((checkRank_settles t _ _).mono (fun hl hv => hl hv) fun _ => id) fun _ hl => ?_
  have hv : (Movement.pad amounts).Valid t.shape := hl.symm
  have hf : ∀ {a : Axis} {r : Nat × Nat}, (a, r) ∈ t.top.axes.zip amounts →
      a.size + (r.1 + r.2) < Word.half := fun {a r} har => by
    refine forall_padded (hf hv) ?_
    rw [Tracker.shape, View.shape, List.zip_map_left]
    exact List.mem_map_of_mem (f := Prod.map Axis.size id) har
  split
  · rename_i hz
    have hz : ∀ r ∈ amounts, r = (0, 0) := by simpa using hz
    exact .pure (moves_refl h hv (resultShape_pad_zero hz hl).symm
      fun idx hi => axiswise_padRule_zero hz hl hi)
  · refine .lift_bind (.bind (View.foldlM_shift_yields (fun a r => -((r.1 : Int) * a.stride))
      (fun o x hx => ?_) t.top.offset)
      (.bind (View.mapM_edit_yields fun x _ => Axis.pad_yields x.1 x.2) (.pure _))) ?_
    · have := hf hx
      rw [← Int.sub_eq_add_neg, ← Signed.ofSize_eq (n := x.2.1) (by omega)]
      exact .bind (Signed.mul_yields _ _) (Signed.sub_yields _ _)
    · exact .pure (Moves.of_axiswise Movement.padRule Axis.padded _ h hv rfl
        (List.zipWith_map_left ..) hl
        fun a r har ha => ⟨Axis.follows_padded ha r, Axis.bounded_padded ha (hf har)⟩)

theorem shrink_settles (h : t.Within bound) (ranges : List (Nat × Nat)) :
    Settles (t.shrink ranges) (¬ (Movement.shrink ranges).Valid t.shape)
      (Moves bound t · (.shrink ranges)) := by
  refine .bind ((checkRank_settles t _ _).mono (fun hl hv => hl hv.length_eq.symm) fun _ => id)
    fun _ hl => ?_
  have hfind := @findIdx?_eq_none_iff_forall₂ (Nat × Nat) ranges t.shape hl
    (fun x => decide (¬ (x.2.1 < x.2.2 ∧ x.2.2 ≤ x.1))) (fun size r => r.1 < r.2 ∧ r.2 ≤ size)
    fun a r => by simp only [decide_eq_false_iff_not, not_not]
  split
  · rename_i axis haxis
    obtain ⟨h₁, h₂⟩ := lt_length_of_findIdx? haxis
    rw [entry_eq h₁, entry_eq h₂]
    refine .refuse fun hv => ?_
    rw [hfind.mpr hv] at haxis
    cases haxis
  · rename_i hnone
    have hv : (Movement.shrink ranges).Valid t.shape := hfind.mp hnone
    have haxes : List.Forall₂ (fun (a : Axis) r => r.1 < r.2 ∧ r.2 ≤ a.size) t.top.axes ranges :=
      List.forall₂_map_left_iff.mp hv
    refine .lift_bind (.bind (View.foldlM_shift_yields (fun a r => (r.1 : Int) * a.stride)
      (fun o x hx => ?_) t.top.offset) (.pure _)) ?_
    · have hfits := (h.top.tidy _ (List.of_mem_zip hx).1).fits
      have hr := List.forall₂_zip haxes hx
      rw [← Signed.ofSize_eq (n := x.2.1) (by omega)]
      exact .bind (Signed.mul_yields _ _) (Signed.add_yields _ _)
    · have hmoves := Moves.of_axiswise Movement.shrinkRule (fun a r => a.shrink r.1 r.2)
        (fun a r => (r.1 : Int) * a.stride) h hv rfl
        (by
          simp only [Axis.size_shrink]
          rw [zipWith_right (fun r => r.2 - r.1) ((length_axes t).trans hl)]
          rfl)
        hl fun a r har ha =>
          have hr := List.forall₂_zip haxes har
          ⟨Axis.follows_shrink hr, Axis.bounded_shrink ha hr⟩
      rw [← List.map_uncurry_zip_eq_zipWith (f := fun (a : Axis) (r : Nat × Nat) =>
        a.shrink r.1 r.2)] at hmoves
      exact .pure hmoves

/-- The top of a tracker may be stepped along once it has no mask. -/
theorem stepBy_settles (h : t.Within bound) (hm : t.top.isMasked = false) {steps : List Int}
    (hv : (Movement.stride steps).Valid t.shape) :
    Settles (do return t.withTop (← t.top.stepBy steps) : Attempt LayoutError Tracker)
      (¬ (Movement.stride steps).Valid t.shape) (Moves bound t · (.stride steps)) := by
  refine .lift_bind (.bind (View.foldlM_shift_yields Axis.lastFor (fun o x hx => ?_) t.top.offset)
    (.bind (View.mapM_edit_yields fun x _ => Axis.step_yields x.1 x.2) (.pure _))) ?_
  · obtain ⟨a, pace⟩ := x
    have hfits := (h.top.tidy _ (List.of_mem_zip hx).1).fits
    simp only [Axis.lastFor]
    split
    · rw [Signed.ofSize_eq hfits]
      exact .bind (Signed.sub_yields _ _) (.bind (Signed.mul_yields _ _) (Signed.add_yields _ _))
    · rw [Int.add_zero]
      exact .pure o
  · refine .pure (Moves.of_axiswise Movement.strideRule Axis.stepped _ h hv rfl
      (List.zipWith_map_left ..) hv.1.symm fun a pace hap ha => ?_)
    obtain ⟨hmem, hpace⟩ := List.of_mem_zip hap
    have hc : a.isCovered = true := by
      rw [View.isMasked, Bool.not_eq_false'] at hm
      exact List.all_eq_true.mp hm a hmem
    exact ⟨Axis.follows_stepped hc (hv.2 pace hpace), Axis.bounded_stepped ha (hv.2 pace hpace)⟩

theorem stride_settles (h : t.Within bound) (steps : List Int) :
    Settles (t.stride steps) (¬ (Movement.stride steps).Valid t.shape)
      (Moves bound t · (.stride steps)) := by
  refine .bind ((checkRank_settles t _ _).mono (fun hl hv => hl hv.1) fun _ => id) fun _ hl => ?_
  split
  · rename_i axis haxis
    obtain ⟨hlt, hz, -⟩ := List.findIdx?_eq_some_iff_getElem.mp haxis
    exact .refuse fun hv => hv.2 _ (List.getElem_mem hlt) (of_decide_eq_true hz)
  · rename_i hnone
    have hv : (Movement.stride steps).Valid t.shape :=
      ⟨hl.symm, fun s hs => of_decide_eq_false (List.findIdx?_eq_none_iff.mp hnone s hs)⟩
    split
    · -- a row-major view on top has no mask and reads the same
      have hcontiguous : Settles (View.contiguous t.shape)
          (¬ (Movement.stride steps).Valid t.shape) (· = View.row t.shape) :=
        (View.contiguous_settles h.fits).mono (fun hp => absurd h.positive hp) fun _ => And.right
      refine .bind hcontiguous ?_
      rintro _ rfl
      have hsame := same_push h
      have hv' : (Movement.stride steps).Valid (t.push (.row t.shape)).shape := by
        rwa [hsame.shape]
      exact (stepBy_settles hsame.within (View.isMasked_row _) hv').mono (fun hn => absurd hv' hn)
        fun _ hmoves => hmoves.same_left hsame
    · exact stepBy_settles h (Bool.eq_false_iff.mpr ‹_›) hv

/-! ## Redundant views -/

/-- A row-major view under another one changes nothing. -/
theorem same_of_isRow_below {top next : View} {below : List View}
    (h : WithinFrom bound top (next :: below)) (hr : next.isRow = true) :
    Same bound ⟨top, next :: below⟩ ⟨top, below⟩ where
  shape := rfl
  within := by
    show WithinFrom bound top below
    refine WithinFrom.replace h.2 ⟨h.1.tidy, fun idx hi o ho => ?_⟩
    have hprod := View.prod_le_of_isRow h.2.top hr
    have hinside := h.1.inside idx hi o ho
    omega
  read idx hi := by
    cases ho : top.read idx with
    | none => exact (readFrom_eq_none ho _).trans (readFrom_eq_none ho _).symm
    | some o =>
      obtain ⟨h0, hlt⟩ := h.1.inside idx hi o ho
      obtain ⟨flat, rfl⟩ := Int.eq_ofNat_of_zero_le h0
      have hlt : flat < next.shape.prod := by omega
      refine (readFrom_congr ?_ below).trans (readFrom_cons ho hlt).symm
      rw [ho, View.read_of_isRow hr (Shape.indexAt_inRange _ h.2.top.positive),
        Shape.position_indexAt hlt]

/-- A row-major top of the shape below changes nothing. -/
theorem same_of_isRow_top {top next : View} {below : List View}
    (h : WithinFrom bound top (next :: below)) (hr : top.isRow = true)
    (hs : top.shape = next.shape) : Same bound ⟨top, next :: below⟩ ⟨next, below⟩ where
  shape := hs.symm
  within := h.2
  read idx hi := by
    have hi : InRange idx top.shape := hs ▸ hi
    have hlt : Shape.position top.shape idx < next.shape.prod := hs ▸ Shape.position_lt hi
    refine Eq.trans ?_ (readFrom_cons (View.read_of_isRow hr hi) hlt).symm
    rw [← hs, Shape.indexAt_position hi]
    rfl

theorem Same.trans {t₁ t₂ t₃ : Tracker} (h : Same bound t₁ t₂) (h' : Same bound t₂ t₃) :
    Same bound t₁ t₃ where
  shape := h'.shape.trans h.shape
  within := h'.within
  read idx hi := (h'.read idx hi).trans (h.read idx (h'.shape ▸ hi))

/-- Dropping the views that have become redundant changes nothing of what is read. -/
theorem collapse_settles {refusal : Prop} (h : t.Within bound) :
    Settles (liftM t.collapse : Attempt LayoutError Tracker) refusal (Same bound t) := by
  obtain ⟨top, below⟩ := t
  suffices ∃ t', Yields (collapseFrom top below) t' ∧ Same bound ⟨top, below⟩ t' by
    obtain ⟨t', hy, hs⟩ := this
    exact .lift hy hs
  induction below generalizing top with
  | nil => exact ⟨_, .pure _, .refl h⟩
  | cons next below ih =>
    have hnext := View.isContiguous_yields h.2.top.fits
    have htop := View.isContiguous_yields h.top.fits
    by_cases hr : next.isRow = true
    · have hsame := same_of_isRow_below h hr
      obtain ⟨t', hy, hs⟩ := ih top hsame.within
      exact ⟨t', .bind hnext (by rw [hr]; exact hy), hsame.trans hs⟩
    rw [Bool.not_eq_true] at hr
    by_cases ht : (top.isRow && decide (top.shape = next.shape)) = true
    · rw [Bool.and_eq_true, decide_eq_true_eq] at ht
      have hsame := same_of_isRow_top h ht.1 ht.2
      obtain ⟨t', hy, hs⟩ := ih next hsame.within
      refine ⟨t', .bind hnext ?_, hsame.trans hs⟩
      rw [hr]
      refine .bind htop ?_
      rw [ht.1, Bool.true_and, decide_eq_true ht.2]
      exact hy
    · refine ⟨_, .bind hnext ?_, .refl h⟩
      rw [hr]
      refine .bind htop ?_
      rw [Bool.not_eq_true] at ht
      rw [ht]
      exact .pure _

/-! ## Chains of movements -/

/-- A movement is accepted exactly when it is valid, and what it makes reads each index at its
source. -/
theorem move_settles (h : t.Within bound) (m : Movement)
    (hf : m.Valid t.shape → ∀ d ∈ m.resultShape t.shape, d < Word.half) :
    Settles (t.move m) (¬ m.Valid t.shape) (Moves bound t · m) := by
  have hcollapse : ∀ moved, Moves bound t moved m →
      Settles (liftM moved.collapse) (¬ m.Valid t.shape) (Moves bound t · m) :=
    fun _ hm => (collapse_settles hm.within).mono id fun _ hs => hm.same_right hs
  cases m with
  | reshape shape => exact .bind (reshape_settles h hf) hcollapse
  | permute axes => exact .bind (permute_settles h axes) hcollapse
  | expand shape => exact .bind (expand_settles h hf) hcollapse
  | pad amounts => exact .bind (pad_settles h hf) hcollapse
  | shrink ranges => exact .bind (shrink_settles h ranges) hcollapse
  | stride steps => exact .bind (stride_settles h steps) hcollapse

/-- A tracker reads a tensor of positions: its shape, and at every index its cell. -/
structure Reads (t : Tracker) (d : Dense (Option Nat)) : Prop where
  shape : t.shape = d.shape
  read : ∀ idx, InRange idx t.shape → t.read idx = d.get none idx

theorem Moves.reads (h : Moves bound t t' m) {d : Dense (Option Nat)} (hd : t.Reads d) :
    t'.Reads (d.gather none m) where
  shape := by rw [h.shape, hd.shape]; rfl
  read idx hi := by
    have hi' := h.shape ▸ hi
    rw [hd.shape] at hi'
    rw [h.read idx hi, Dense.gather, Dense.get_tabulate hi', ← hd.shape]
    cases hs : m.source t.shape idx with
    | none => rfl
    | some i => exact hd.read i (h.inRange idx hi i hs)

/-- Movements in order: accepted exactly when each of them is valid for the shape that it is
applied to, and then what is made of a tracker reads the tensor gathered one movement at a time. -/
theorem moveAll_settles (h : t.Within bound) {d : Dense (Option Nat)} (hd : t.Reads d)
    (ms : List Movement) (hf : Movement.AllFit t.shape ms) :
    Settles (t.moveAll ms) (¬ Movement.AllValid t.shape ms) fun t' =>
      Movement.AllValid t.shape ms ∧ t'.Within bound ∧ t'.Reads (d.gatherAll none ms) := by
  induction ms generalizing t d with
  | nil => exact .pure ⟨trivial, h, hd⟩
  | cons m ms ih =>
    have hmove := move_settles h m fun hv => (hf.2 hv).head
    rw [moveAll, List.foldlM_cons]
    refine .bind (hmove.mono (fun hn hv => hn hv.1) fun _ => id) fun t' hm => ?_
    have hfit := hf.2 hm.valid
    rw [← hm.shape] at hfit
    refine (ih hm.within (hm.reads hd) hfit).mono (fun hn hv => hn ?_) fun t'' ⟨hv, hw, hr⟩ => ?_
    · rw [hm.shape]
      exact hv.2
    · rw [hm.shape] at hv
      exact ⟨⟨hm.valid, hv⟩, hw, hr⟩

theorem reads_row (shape : List Nat) : Reads ⟨.row shape, []⟩ (Dense.positions shape) where
  shape := View.shape_row shape
  read idx hi := by
    have hi : InRange idx shape := by rwa [Tracker.shape, View.shape_row] at hi
    rw [read_row hi, Dense.get_positions hi]

/-- The tracker that movements make of a row-major buffer. -/
theorem ofShape_moveAll_settles {shape : List Nat} (hp : ∀ d ∈ shape, 0 < d) (ms : List Movement)
    (hf : Movement.AllFit shape ms) :
    Settles (do (← ofShape shape).moveAll ms) (¬ Movement.AllValid shape ms) fun t =>
      Movement.AllValid shape ms ∧ t.Within shape.prod ∧
        t.Reads ((Dense.positions shape).gatherAll none ms) := by
  refine .bind ((ofShape_settles hf.head).mono (fun hn => absurd hp hn) fun _ => And.right) ?_
  rintro _ rfl
  have hshape := View.shape_row shape
  have hmoves := moveAll_settles (within_row hp hf.head) (reads_row shape) ms
  rw [Tracker.shape, hshape] at hmoves
  exact hmoves hf

/-- Folding movements into views never changes which element is read. Movements applied to a
row-major buffer are accepted exactly when each of them is valid for the shape seen from outside,
lead to the shape that they lead to in the textbook, and every index of the result reads the
position, or the zero, that is found by gathering the elements through one movement at a time. -/
theorem index_ofShape_moveAll {shape : List Nat} (hp : ∀ d ∈ shape, 0 < d) {ms : List Movement}
    (hf : Movement.AllFit shape ms) :
    Settles (do (← ofShape shape).moveAll ms) (¬ Movement.AllValid shape ms) fun t =>
      Movement.AllValid shape ms ∧ t.shape = Movement.finalShape shape ms ∧
      (∀ idx, InRange idx t.shape →
        Yields (t.index idx) (((Dense.positions shape).gatherAll none ms).get none idx)) ∧
      ∀ m, (m.Valid t.shape → ∀ d ∈ m.resultShape t.shape, d < Word.half) →
        Settles (t.move m) (¬ m.Valid t.shape) fun t' =>
          m.Valid t.shape ∧ t'.shape = m.resultShape t.shape := by
  refine (ofShape_moveAll_settles hp ms hf).mono id fun t ⟨hv, hw, hr⟩ => ⟨hv, ?_, ?_, ?_⟩
  · rw [hr.shape, Dense.shape_gatherAll]
    rfl
  · intro idx hi
    exact (index_yields hw hi).of_eq (hr.read idx hi)
  · intro m hm
    exact (move_settles hw m hm).mono id fun t' h => ⟨h.valid, h.shape⟩

/-- A buffer padded, transposed and flattened, and every second element of that from the end, is
two views of which the lower one is masked. -/
theorem index_moveAll_two_views :
    ∃ t, (do
        let t ← ofShape [2, 2]
        t.moveAll [.pad [(1, 0), (0, 0)], .permute [1, 0], .reshape [6], .stride [-2]]) = .ok t ∧
      t.below.length = 1 ∧
      t.index [0] = .ok (some 3) ∧ t.index [1] = .ok none ∧ t.index [2] = .ok (some 0) := by
  have h := @index_ofShape_moveAll [2, 2] (by decide)
    [.pad [(1, 0), (0, 0)], .permute [1, 0], .reshape [6], .stride [-2]] (by decide)
  refine ⟨⟨⟨5, [⟨3, -2, 0, 3⟩]⟩, [⟨-2, [⟨2, 1, 0, 2⟩, ⟨3, 2, 1, 3⟩]⟩]⟩, rfl, rfl, ?_⟩
  obtain ⟨-, -, hindex, -⟩ := h.of_ok rfl
  exact ⟨(hindex [0] (by decide)).resolve_right (by decide),
    (hindex [1] (by decide)).resolve_right (by decide),
    (hindex [2] (by decide)).resolve_right (by decide)⟩

end Tracker

end TensorLoom
