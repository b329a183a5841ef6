import TensorLoom.Proofs.Layout.Relabelling
import Mathlib.Data.List.GetD

/-!
# Views and movements that have been accepted

What is known of a view once one of its constructors has accepted the arguments, whatever the sizes
are: its dimensions are positive, and it is its own normal form (`View.Accepted`). And what is known
of a movement that has been accepted: its argument fits the shape, and only the top view has been
edited. A reshape or a permutation gives a tracker the shape that it asks for, whatever views the
tracker consists of (`Tracker.shape_move`).
-/

namespace TensorLoom

open Shape (InRange)

namespace Axis

theorem settle_settle (a : Axis) : a.settle.settle = a.settle := by
  unfold settle
  split <;> simp_all

theorem settle_unbounded_settle (a : Axis) : a.settle.unbounded.settle = a.settle.unbounded := by
  unfold settle unbounded
  split <;> simp_all

end Axis

namespace View

variable {v : View} {shape : List Nat} {strides : List Int} {offset : Int}

/-! ## Normal forms -/

/-- A view is its own normal form. -/
structure Normal (v : View) : Prop where
  settled : ∀ a ∈ v.axes, a.settle = a
  full : v.isMasked = false → ∀ a ∈ v.axes, a.unbounded = a

theorem Normal.normalize_eq (h : v.Normal) : v.normalize = v := by
  have hsettle : v.axes.map Axis.settle = v.axes :=
    (List.map_congr_left h.settled).trans (List.map_id _)
  unfold normalize
  dsimp only
  rw [hsettle]
  split
  · rename_i hc
    have hm : v.isMasked = false := by rw [isMasked, hc]; rfl
    rw [(List.map_congr_left (h.full hm)).trans (List.map_id _)]
  · rfl

theorem normal_normalize (v : View) : v.normalize.Normal := by
  unfold normalize
  dsimp only
  split
  · refine ⟨fun a ha => ?_, fun _ a ha => ?_⟩
    · obtain ⟨b, hb, rfl⟩ := List.mem_map.mp ha
      obtain ⟨c, -, rfl⟩ := List.mem_map.mp hb
      exact c.settle_unbounded_settle
    · obtain ⟨b, -, rfl⟩ := List.mem_map.mp ha
      rfl
  · rename_i hc
    refine ⟨fun a ha => ?_, fun hm => absurd ?_ hc⟩
    · obtain ⟨b, -, rfl⟩ := List.mem_map.mp ha
      exact b.settle_settle
    · simpa [isMasked] using hm

/-! ## Views that have been accepted -/

theorem checkShape_eq_ok {u : Unit} (h : checkShape shape = .ok u) : ∀ d ∈ shape, 0 < d :=
  (checkShape_settles shape).of_ok h

theorem shape_full (hl : shape.length = strides.length) (offset : Int) :
    (View.mk offset (List.zipWith Axis.full shape strides)).shape = shape := by
  rw [View.shape, List.map_zipWith]
  exact (Tracker.zipWith_left id hl).trans (List.map_id _)

theorem ofStrides_eq_ok (h : ofStrides shape strides offset = .ok v) :
    (∀ d ∈ shape, 0 < d) ∧ v.shape = shape ∧ v.Normal := by
  obtain ⟨_, hp, h⟩ := bind_eq_ok.mp h
  split at h
  · rename_i hl
    cases h
    exact ⟨checkShape_eq_ok hp, (shape_normalize _).trans (shape_full hl offset),
      normal_normalize _⟩
  · cases h

theorem masked_eq_ok {bounds : List (Nat × Nat)} (h : masked shape strides offset bounds = .ok v) :
    (∀ d ∈ shape, 0 < d) ∧ v.shape = shape ∧ v.Normal := by
  obtain ⟨u, hu, h⟩ := bind_eq_ok.mp h
  split at h
  · rename_i hl
    cases h
    obtain ⟨hp, hs, -⟩ := ofStrides_eq_ok hu
    refine ⟨hp, (shape_normalize _).trans (Eq.trans ?_ hs), normal_normalize _⟩
    rw [View.shape, View.shape, withBounds, List.map_zipWith]
    exact Tracker.zipWith_left (·.size) hl.symm
  · cases h

/-- Row-major strides are 0 along unit dimensions. -/
theorem stridesAndSpan_still {span : Int} (h : Shape.stridesAndSpan shape = .ok (strides, span)) :
    List.Forall₂ (fun dim stride => dim = 1 → stride = 0) shape strides := by
  induction shape generalizing strides span with
  | nil =>
    cases h
    exact .nil
  | cons dim inner ih =>
    obtain ⟨⟨rest, count⟩, hrest, h⟩ := bind_eq_ok.mp h
    obtain ⟨whole, -, h⟩ := bind_eq_ok.mp h
    cases h
    exact .cons (fun h1 => if_pos h1) (ih hrest)

/-- Axes of full range are settled if unit axes have no stride. -/
theorem normal_full (h : List.Forall₂ (fun dim stride => dim = 1 → stride = 0) shape strides)
    (offset : Int) : (View.mk offset (List.zipWith Axis.full shape strides)).Normal where
  settled := forall_zipWith (P := fun (a : Axis) => a.settle = a) <| h.imp fun d s hds => by
    unfold Axis.settle Axis.full
    split
    · rename_i h1
      rw [hds h1]
    · rfl
  full _ := forall_zipWith (P := fun (a : Axis) => a.unbounded = a) <| h.imp fun _ _ _ => rfl

theorem isMasked_full (shape : List Nat) (strides : List Int) (offset : Int) :
    (View.mk offset (List.zipWith Axis.full shape strides)).isMasked = false := by
  rw [isMasked, Bool.not_eq_false']
  induction shape generalizing strides with
  | nil => rfl
  | cons dim shape ih =>
    cases strides with
    | nil => rfl
    | cons stride strides =>
      rw [List.zipWith_cons_cons, List.all_cons, ih]
      simp [Axis.isCovered, Axis.full]

theorem strides_full (hl : shape.length = strides.length) (offset : Int) :
    (View.mk offset (List.zipWith Axis.full shape strides)).strides = strides := by
  rw [View.strides, List.map_zipWith]
  exact (Tracker.zipWith_right id hl).trans (List.map_id _)

theorem contiguous_eq_ok (h : contiguous shape = .ok v) :
    (∀ d ∈ shape, 0 < d) ∧ v.shape = shape ∧ v.Normal ∧ v.isContiguous = .ok true := by
  obtain ⟨_, hp, h⟩ := bind_eq_ok.mp h
  obtain ⟨strides, hstrides, h⟩ := bind_eq_ok.mp h
  cases h
  have hstrides := liftM_eq_ok.mp hstrides
  obtain ⟨span, hspan⟩ := Shape.strides_eq_ok hstrides
  have hstill := stridesAndSpan_still hspan
  have hshape := shape_full hstill.length_eq 0
  refine ⟨checkShape_eq_ok hp, hshape, normal_full hstill 0, ?_⟩
  rw [isContiguous, if_pos ⟨rfl, isMasked_full shape strides 0⟩, hshape, hstrides,
    strides_full hstill.length_eq]
  exact congrArg Except.ok (decide_eq_true rfl)

/-- A view that one of the constructors has accepted. -/
inductive Accepted (v : View) : Prop
  | ofStrides {shape : List Nat} {strides : List Int} {offset : Int}
    (h : ofStrides shape strides offset = .ok v)
  | masked {shape : List Nat} {strides : List Int} {offset : Int} {bounds : List (Nat × Nat)}
    (h : masked shape strides offset bounds = .ok v)
  | contiguous {shape : List Nat} (h : contiguous shape = .ok v)

namespace Accepted

theorem positive (h : v.Accepted) : ∀ d ∈ v.shape, 0 < d := by
  cases h with
  | ofStrides h =>
    obtain ⟨hp, hs, -⟩ := ofStrides_eq_ok h
    exact hs ▸ hp
  | masked h =>
    obtain ⟨hp, hs, -⟩ := masked_eq_ok h
    exact hs ▸ hp
  | contiguous h =>
    obtain ⟨hp, hs, -⟩ := contiguous_eq_ok h
    exact hs ▸ hp

theorem normal (h : v.Accepted) : v.Normal := by
  cases h with
  | ofStrides h => exact (ofStrides_eq_ok h).2.2
  | masked h => exact (masked_eq_ok h).2.2
  | contiguous h => exact (contiguous_eq_ok h).2.2.1

end Accepted

end View

/-! ## Movements that have been accepted -/

namespace Tracker

variable {t t' : Tracker}

theorem ofViews_eq_ok {views : List View} (h : ofViews views = .ok t) :
    views.reverse = t.top :: t.below := by
  unfold ofViews at h
  split at h
  · cases h
  · rename_i hviews
    cases h
    exact hviews

theorem checkRank_eq_ok {argument : Ranked} {entries : Nat} {u : Unit}
    (h : t.checkRank argument entries = .ok u) : t.shape.length = entries :=
  (checkRank_settles t argument entries).of_ok h

/-- What a reshape makes of a tracker: nothing else if the shape is the same, a row-major top of a
row-major one, an edited top where unit axes alone come and go, and a view more otherwise. -/
inductive Reshaped (t : Tracker) (shape : List Nat) : Tracker → Prop
  | same (h : t.shape = shape) : Reshaped t shape t
  | row {row : View} (hc : t.top.isContiguous = .ok true) (hrow : View.contiguous shape = .ok row) :
    Reshaped t shape (t.withTop row)
  | edited {top : View} (h : t.top.reshape? shape = some top) : Reshaped t shape (t.withTop top)
  | pushed {row : View} (hc : t.top.isContiguous = .ok false)
    (hrow : View.contiguous shape = .ok row) : Reshaped t shape (t.push row)

theorem reshape_eq_ok {shape : List Nat} (h : t.reshape shape = .ok t') :
    (Movement.reshape shape).Valid t.shape ∧ t.shape.prod < Word.bound ∧ t.Reshaped shape t' := by
  obtain ⟨_, hcheck, h⟩ := bind_eq_ok.mp h
  obtain ⟨source, hsource, h⟩ := bind_eq_ok.mp h
  obtain ⟨target, htarget, h⟩ := bind_eq_ok.mp h
  have hsource := liftM_eq_ok.mp hsource
  obtain rfl := (Shape.size_yields t.shape).eq_of_ok hsource
  obtain rfl := (Shape.size_yields shape).eq_of_ok (liftM_eq_ok.mp htarget)
  split at h
  · cases h
  rename_i hprod
  refine ⟨⟨View.checkShape_eq_ok hcheck, not_not.mp hprod⟩, Shape.size_lt hsource, ?_⟩
  split at h
  · exact pure_eq_ok.mp h ▸ .same ‹_›
  obtain ⟨flat, hflat, h⟩ := bind_eq_ok.mp h
  have hflat := liftM_eq_ok.mp hflat
  cases flat with
  | true =>
    obtain ⟨row, hrow, h⟩ := bind_eq_ok.mp h
    exact pure_eq_ok.mp h ▸ .row hflat hrow
  | false =>
    rw [if_neg Bool.false_ne_true] at h
    split at h
    · exact pure_eq_ok.mp h ▸ .edited ‹_›
    · obtain ⟨row, hrow, h⟩ := bind_eq_ok.mp h
      exact pure_eq_ok.mp h ▸ .pushed hflat hrow

theorem permute_eq_ok {axes : List Nat} (h : t.permute axes = .ok t') :
    axes.Perm (List.range t.shape.length) ∧ t' = t.withTop (t.top.permute axes) := by
  unfold Tracker.permute at h
  dsimp only at h
  split at h
  · exact ⟨isPermutation_iff.mp ‹_›, (pure_eq_ok.mp h).symm⟩
  · cases h

theorem expand_eq_ok {shape : List Nat} (h : t.expand shape = .ok t') :
    List.Forall₂ (fun size d => size = d ∨ size = 1) t.shape shape ∧
      t' = t.withTop (t.top.expand shape) := by
  obtain ⟨_, hl, h⟩ := bind_eq_ok.mp h
  obtain ⟨_, -, h⟩ := bind_eq_ok.mp h
  split at h
  · obtain ⟨_, -, h⟩ := bind_eq_ok.mp h
    obtain ⟨_, -, h⟩ := bind_eq_ok.mp h
    cases h
  · rename_i hnone
    cases h
    refine ⟨(findIdx?_eq_none_iff_forall₂ (checkRank_eq_ok hl) fun a b => ?_).mp hnone, rfl⟩
    simp only [decide_eq_false_iff_not]
    tauto

theorem pad_eq_ok {amounts : List (Nat × Nat)} (h : t.pad amounts = .ok t') :
    t.shape.length = amounts.length ∧
      ((∀ r ∈ amounts, r = (0, 0)) ∧ t' = t ∨
        ∃ w, t.top.pad amounts = .ok w ∧ t' = t.withTop w) := by
  obtain ⟨_, hl, h⟩ := bind_eq_ok.mp h
  refine ⟨checkRank_eq_ok hl, ?_⟩
  split at h
  · rename_i hz
    cases h
    exact .inl ⟨by simpa using hz, rfl⟩
  · obtain ⟨w, hw, h⟩ := bind_eq_ok.mp h
    cases h
    exact .inr ⟨w, liftM_eq_ok.mp hw, rfl⟩

theorem shrink_eq_ok {ranges : List (Nat × Nat)} (h : t.shrink ranges = .ok t') :
    List.Forall₂ (fun size r => r.1 < r.2 ∧ r.2 ≤ size) t.shape ranges ∧
      ∃ w, t.top.shrink ranges = .ok w ∧ t' = t.withTop w := by
  obtain ⟨_, hl, h⟩ := bind_eq_ok.mp h
  split at h
  · obtain ⟨_, -, h⟩ := bind_eq_ok.mp h
    obtain ⟨_, -, h⟩ := bind_eq_ok.mp h
    cases h
  · rename_i hnone
    obtain ⟨w, hw, h⟩ := bind_eq_ok.mp h
    cases h
    refine ⟨(findIdx?_eq_none_iff_forall₂ (checkRank_eq_ok hl) fun a b => ?_).mp hnone,
      w, liftM_eq_ok.mp hw, rfl⟩
    simp only [decide_eq_false_iff_not, not_not]

/-- Stepping along a masked top puts a row-major view on it first. -/
theorem stride_eq_ok {steps : List Int} (h : t.stride steps = .ok t') :
    t.shape.length = steps.length ∧ ∃ u w, t' = u.withTop w ∧ u.top.stepBy steps = .ok w ∧
      (t.top.isMasked = false ∧ u = t ∨
        t.top.isMasked = true ∧ ∃ row, View.contiguous t.shape = .ok row ∧ u = t.push row) := by
  obtain ⟨_, hl, h⟩ := bind_eq_ok.mp h
  refine ⟨checkRank_eq_ok hl, ?_⟩
  split at h
  · cases h
  dsimp only at h
  split at h
  · rename_i hm
    obtain ⟨row, hrow, h⟩ := bind_eq_ok.mp h
    rw [pure_bind] at h
    obtain ⟨w, hw, h⟩ := bind_eq_ok.mp h
    cases h
    exact ⟨_, w, rfl, liftM_eq_ok.mp hw, .inr ⟨hm, row, hrow, rfl⟩⟩
  · rename_i hm
    rw [pure_bind] at h
    obtain ⟨w, hw, h⟩ := bind_eq_ok.mp h
    cases h
    exact ⟨_, w, rfl, liftM_eq_ok.mp hw, .inl ⟨Bool.eq_false_iff.mpr hm, rfl⟩⟩

/-- A movement that is accepted is one of the six edits, and then views are dropped. -/
theorem move_eq_ok {m : Movement} (h : t.move m = .ok t') :
    ∃ moved, moved.collapse = .ok t' ∧ match m with
      | .reshape shape => t.reshape shape = .ok moved
      | .permute axes => t.permute axes = .ok moved
      | .expand shape => t.expand shape = .ok moved
      | .pad amounts => t.pad amounts = .ok moved
      | .shrink ranges => t.shrink ranges = .ok moved
      | .stride steps => t.stride steps = .ok moved := by
  cases m <;>
  · obtain ⟨moved, hmoved, h⟩ := bind_eq_ok.mp h
    exact ⟨moved, liftM_eq_ok.mp h, hmoved⟩

/-! ## The views of a tracker that is moved -/

theorem forall_withTop {P : View → Prop} (h : ∀ v ∈ t.top :: t.below, P v) {top : View}
    (htop : P top) : ∀ v ∈ (t.withTop top).top :: (t.withTop top).below, P v :=
  List.forall_mem_cons.mpr ⟨htop, (List.forall_mem_cons.mp h).2⟩

theorem forall_push {P : View → Prop} (h : ∀ v ∈ t.top :: t.below, P v) {top : View}
    (htop : P top) : ∀ v ∈ (t.push top).top :: (t.push top).below, P v :=
  List.forall_mem_cons.mpr ⟨htop, h⟩

/-- The views that are left are some of those there were, in their order. -/
theorem collapse_sublist (h : t.collapse = .ok t') :
    (t'.top :: t'.below).Sublist (t.top :: t.below) := by
  obtain ⟨top, below⟩ := t
  rw [collapse] at h
  induction below generalizing top with
  | nil => exact pure_eq_ok.mp h ▸ .refl _
  | cons next below ih =>
    obtain ⟨flat, -, h⟩ := bind_eq_ok.mp h
    split at h
    · exact (ih _ h).trans ((List.sublist_cons_self next below).cons_cons top)
    obtain ⟨flat, -, h⟩ := bind_eq_ok.mp h
    split at h
    · exact (ih _ h).trans (List.sublist_cons_self top _)
    · exact pure_eq_ok.mp h ▸ .refl _

/-! ## The shape of a tracker that is moved -/

theorem ofShape_eq_ok {shape : List Nat} (h : ofShape shape = .ok t) :
    ∃ v, View.contiguous shape = .ok v ∧ t = ⟨v, []⟩ := by
  obtain ⟨v, hv, h⟩ := bind_eq_ok.mp h
  exact ⟨v, hv, (pure_eq_ok.mp h).symm⟩

theorem shape_ofShape {shape : List Nat} (h : Tracker.ofShape shape = .ok t) : t.shape = shape := by
  obtain ⟨v, hv, rfl⟩ := ofShape_eq_ok h
  exact (View.contiguous_eq_ok hv).2.1

theorem shape_collapse (h : t.collapse = .ok t') : t'.shape = t.shape := by
  obtain ⟨top, below⟩ := t
  rw [collapse] at h
  induction below generalizing top with
  | nil => exact pure_eq_ok.mp h ▸ rfl
  | cons next below ih =>
    obtain ⟨flat, -, h⟩ := bind_eq_ok.mp h
    split at h
    · exact ih _ h
    obtain ⟨flat, -, h⟩ := bind_eq_ok.mp h
    split at h
    · rename_i hsame
      rw [Bool.and_eq_true, decide_eq_true_eq] at hsame
      exact (ih _ h).trans hsame.2.symm
    · exact pure_eq_ok.mp h ▸ rfl

theorem shape_reshape {shape : List Nat} (h : t.reshape shape = .ok t') :
    t'.shape = shape ∧ ∀ d ∈ shape, 0 < d := by
  obtain ⟨hvalid, -, h⟩ := reshape_eq_ok h
  refine ⟨?_, hvalid.1⟩
  cases h with
  | same hs => exact hs
  | row _ hrow => exact (View.contiguous_eq_ok hrow).2.1
  | edited htop => exact View.shape_of_reshape? htop
  | pushed _ hrow => exact (View.contiguous_eq_ok hrow).2.1

theorem shape_permute {axes : List Nat} (h : t.permute axes = .ok t') :
    axes.Perm (List.range t.shape.length) ∧ t'.shape = axes.map (t.shape.getD · 0) := by
  obtain ⟨hperm, rfl⟩ := permute_eq_ok h
  exact ⟨hperm, View.shape_permute hperm⟩

/-- A reshape or a permutation that is accepted leads to the shape that it asks for. -/
theorem shape_move {m : Movement} (hm : m.Keeps) (h : t.move m = .ok t') :
    t'.shape = m.resultShape t.shape ∧ ((∀ d ∈ t.shape, 0 < d) → ∀ d ∈ t'.shape, 0 < d) := by
  obtain ⟨moved, h, hmoved⟩ := move_eq_ok h
  rw [shape_collapse h]
  cases hm with
  | reshape shape =>
    obtain ⟨hs, hpos⟩ := shape_reshape hmoved
    exact ⟨hs, fun _ => hs ▸ hpos⟩
  | permute axes =>
    obtain ⟨hperm, hs⟩ := shape_permute hmoved
    refine ⟨hs, fun hpos d hd => ?_⟩
    rw [hs] at hd
    obtain ⟨i, hi, rfl⟩ := List.mem_map.mp hd
    have hi := List.mem_range.mp (hperm.mem_iff.mp hi)
    rw [List.getD_eq_getElem _ _ hi]
    exact hpos _ (List.getElem_mem hi)

/-- A reshape or a permutation that is accepted is valid. -/
theorem valid_of_move {m : Movement} (hm : m.Keeps) (h : t.move m = .ok t') : m.Valid t.shape := by
  obtain ⟨moved, -, hmoved⟩ := move_eq_ok h
  cases hm with
  | permute axes => exact (shape_permute hmoved).1
  | reshape shape => exact (reshape_eq_ok hmoved).1

end Tracker

end TensorLoom
