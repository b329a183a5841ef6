import TensorLoom.Layout.Address
import TensorLoom.Proofs.Layout.Counted

/-!
# Trackers that only step forwards

A row-major view starts where its buffer does, leaves nothing out and steps forwards only. So does
every view that reshapes and permutations make of it (`Tracker.Forward.move`). Then the address of
an index has no conditions (`Tracker.Forward.conditions_eq_nil`), and its position is computed
without an overflow if the elements are counted (`Tracker.Forward.index_eq`).
-/

namespace TensorLoom

open Shape (InRange rowStrides)

/-! ## Views -/

/-- An axis on which every position exists, and whose steps do not lead back. -/
structure Axis.Forward (a : Axis) : Prop where
  covered : a.isCovered = true
  stride : 0 ≤ a.stride

/-- A view that starts where its buffer does and has such axes. -/
structure View.Forward (v : View) : Prop where
  offset : v.offset = 0
  axes : ∀ a ∈ v.axes, a.Forward

theorem Axis.forward_full (size : Nat) {stride : Int} (h : 0 ≤ stride) :
    (full size stride).Forward := by
  refine ⟨isCovered_iff.mpr ⟨rfl, Nat.le_refl _⟩, h⟩

namespace View

variable {v w : View}

theorem Forward.isMasked (h : v.Forward) : v.isMasked = false := by
  rw [View.isMasked, Bool.not_eq_false', List.all_eq_true]
  exact fun a ha => (h.axes a ha).covered

theorem forward_row (shape : List Nat) : (row shape).Forward := by
  refine ⟨rfl, ?_⟩
  induction shape with
  | nil => intro a ha; cases ha
  | cons dim inner ih =>
    intro a ha
    rcases List.mem_cons.mp ha with rfl | ha
    · exact Axis.forward_full dim (by split <;> omega)
    · exact ih a ha

theorem Forward.normalize (h : v.Forward) : v.normalize.Forward := by
  have hsettle : ∀ a ∈ v.axes.map Axis.settle, a.Forward := by
    intro a ha
    obtain ⟨b, hb, rfl⟩ := List.mem_map.mp ha
    have hb := h.axes b hb
    unfold Axis.settle
    split
    · exact ⟨hb.covered, Int.le_refl 0⟩
    · exact hb
  refine ⟨h.offset, fun a ha => ?_⟩
  unfold View.normalize at ha
  dsimp only at ha
  split at ha
  · obtain ⟨b, hb, rfl⟩ := List.mem_map.mp ha
    exact Axis.forward_full _ (hsettle b hb).stride
  · exact hsettle a ha

theorem Forward.permute (h : v.Forward) (axes : List Nat) : (v.permute axes).Forward := by
  refine ⟨h.offset, fun a ha => ?_⟩
  obtain ⟨i, -, hi⟩ := List.mem_filterMap.mp ha
  exact h.axes a (List.mem_of_getElem? hi)

theorem Forward.reshape? (h : v.Forward) {shape : List Nat} (hw : v.reshape? shape = some w) :
    w.Forward := by
  unfold View.reshape? at hw
  dsimp only at hw
  split at hw
  · cases hw
  split at hw
  · cases hw
  cases hw
  refine Forward.normalize ⟨h.offset, fun a ha => ?_⟩
  rcases mem_respace ha with rfl | ha
  · exact Axis.forward_full 1 (Int.le_refl 0)
  · exact h.axes a (List.mem_filter.mp ha).1

theorem steps_nonneg {axes : List Axis} (ha : ∀ a ∈ axes, 0 ≤ a.stride) (idx : List Nat) :
    0 ≤ steps idx axes := by
  induction axes generalizing idx with
  | nil => simp
  | cons a axes ih =>
    cases idx with
    | nil => simp [steps]
    | cons i idx =>
      have hstep := Int.mul_nonneg (Int.natCast_nonneg i) (ha a List.mem_cons_self)
      have := ih (fun b hb => ha b (List.mem_cons_of_mem _ hb)) idx
      rw [steps_cons]
      omega

/-- Steps that lead forwards do not overflow if all of them together do not. -/
theorem foldlM_steps_eq {axes : List Axis} (ha : ∀ a ∈ axes, 0 ≤ a.stride)
    (hf : ∀ a ∈ axes, a.size < Word.half) {idx : List Nat}
    (hi : InRange idx (axes.map (·.size))) {start : Int} (h0 : 0 ≤ start)
    (h : start + steps idx axes < Word.half) :
    (idx.zip axes).foldlM (fun sum (x : Nat × Axis) => do
        Signed.add sum (← Signed.mul (Signed.ofSize x.1) x.2.stride)) start =
      (.ok (start + steps idx axes) : Checked Int) := by
  induction axes generalizing idx start with
  | nil => simp [pure, Except.pure]
  | cons a axes ih =>
    rw [List.map_cons] at hi
    cases hi with
    | @cons i _ idx _ hi hr =>
      have hrest := fun b hb => ha b (List.mem_cons_of_mem _ hb)
      have hstep := Int.mul_nonneg (Int.natCast_nonneg i) (ha a List.mem_cons_self)
      have hsteps := steps_nonneg hrest idx
      rw [steps_cons] at h
      rw [List.zip_cons_cons, List.foldlM_cons, steps_cons, ← Int.add_assoc]
      dsimp only
      rw [Signed.ofSize_eq (Nat.lt_trans hi (hf a List.mem_cons_self)),
        Signed.mul_eq (by omega) (by omega)]
      refine bind_eq_ok.mpr ⟨_, Signed.add_eq (by omega) (by omega), ?_⟩
      exact ih hrest (fun b hb => hf b (List.mem_cons_of_mem _ hb)) hr (by omega) (by omega)

theorem Forward.index_eq {bound : Nat} (h : v.Forward) (hw : v.Within bound)
    (hb : bound ≤ Word.half) {idx : List Nat} (hi : InRange idx v.shape) :
    v.index idx = .ok (v.read idx) := by
  have hread := read_of_admits (admits_of_isMasked h.isMasked hi)
  have hlt := (hw.inside idx hi _ hread).2
  have hsteps := foldlM_steps_eq (fun a ha => (h.axes a ha).stride)
    (fun a ha => (hw.tidy a ha).fits) hi (Int.le_refl 0) (by rw [h.offset] at hlt; omega)
  rw [View.index, h.isMasked, Bool.false_and, if_neg Bool.false_ne_true, hread, h.offset]
  refine bind_eq_ok.mpr ⟨_, hsteps, ?_⟩
  have := steps_nonneg (fun a ha => (h.axes a ha).stride) idx
  rw [h.offset] at hlt
  rw [Signed.add_eq (by omega) (by omega), Int.zero_add, Int.zero_add]
  rfl

theorem Forward.conditions_eq_nil (h : v.Forward) (idx : List IndexExpr) :
    (v.address idx).conditions = [] := by
  rw [View.address, h.isMasked]
  rfl

end View

/-! ## Trackers -/

namespace Tracker

variable {t t' : Tracker}

/-- Every view starts where what is below it does, and only steps forwards. -/
def Forward (t : Tracker) : Prop := ∀ v ∈ t.top :: t.below, v.Forward

theorem Forward.withTop (h : t.Forward) {top : View} (htop : top.Forward) :
    (t.withTop top).Forward :=
  forall_withTop h htop

theorem Forward.push (h : t.Forward) {top : View} (htop : top.Forward) :
    (t.push top).Forward :=
  forall_push h htop

theorem Forward.reshape (h : t.Forward) {shape : List Nat} (hf : ∀ d ∈ shape, d < Word.half)
    (ht : t.reshape shape = .ok t') : t'.Forward := by
  have hrow : ∀ v, View.contiguous shape = .ok v → v.Forward := by
    intro v hv
    obtain ⟨-, rfl⟩ := (View.contiguous_settles hf).of_ok hv
    exact View.forward_row shape
  cases (reshape_eq_ok ht).2.2 with
  | same _ => exact h
  | row _ hv => exact h.withTop (hrow _ hv)
  | edited hv => exact h.withTop ((h _ List.mem_cons_self).reshape? hv)
  | pushed _ hv => exact h.push (hrow _ hv)

theorem Forward.permute (h : t.Forward) {axes : List Nat} (ht : t.permute axes = .ok t') :
    t'.Forward := by
  obtain ⟨-, rfl⟩ := permute_eq_ok ht
  exact h.withTop ((h _ List.mem_cons_self).permute axes)

theorem Forward.collapse (h : t.Forward) (ht : t.collapse = .ok t') : t'.Forward :=
  fun v hv => h v ((collapse_sublist ht).subset hv)

/-- Reshapes and permutations make a tracker that only steps forwards of one that does. -/
theorem Forward.move (h : t.Forward) {m : Movement} (hm : m.Keeps)
    (hf : ∀ d ∈ m.resultShape t.shape, d < Word.half) (ht : t.move m = .ok t') : t'.Forward := by
  cases hm with
  | reshape shape =>
    obtain ⟨moved, hmoved, ht⟩ := bind_eq_ok.mp ht
    exact (h.reshape hf hmoved).collapse (liftM_eq_ok.mp ht)
  | permute axes =>
    obtain ⟨moved, hmoved, ht⟩ := bind_eq_ok.mp ht
    exact (h.permute hmoved).collapse (liftM_eq_ok.mp ht)

theorem Forward.conditions_eq_nil (h : t.Forward) {idx : List IndexExpr} {address : Address}
    (ha : t.address idx = .ok address) : address.conditions = [] := by
  obtain ⟨top, below⟩ := t
  rw [Tracker.address] at ha
  induction below generalizing top idx address with
  | nil =>
    obtain rfl := pure_eq_ok.mp ha
    exact (h _ List.mem_cons_self).conditions_eq_nil idx
  | cons next below ih =>
    obtain ⟨coordinates, -, ha⟩ := bind_eq_ok.mp ha
    obtain ⟨lower, hlower, ha⟩ := bind_eq_ok.mp ha
    obtain rfl := pure_eq_ok.mp ha
    rw [ih next (fun v hv => h v (List.mem_cons_of_mem _ hv)) hlower,
      (h _ List.mem_cons_self).conditions_eq_nil idx]
    rfl

/-- The position of an index is computed without an overflow. -/
theorem Forward.index_eq {bound : Nat} (h : t.Forward) (hw : t.Within bound) (hc : t.Counted)
    (hb : bound ≤ Word.half) {idx : List Nat} (hi : InRange idx t.shape) :
    t.index idx = .ok (t.read idx) := by
  obtain ⟨top, below⟩ := t
  rw [Tracker.index, Tracker.read]
  induction below generalizing top idx with
  | nil =>
    refine bind_eq_ok.mpr ⟨_, (h _ List.mem_cons_self).index_eq hw hb hi, ?_⟩
    cases ho : top.read idx <;> simp only [readFrom, ho] <;> rfl
  | cons next below ih =>
    have hnext : Shape.Counted next.shape := hc _ (List.mem_cons_of_mem _ List.mem_cons_self)
    refine bind_eq_ok.mpr
      ⟨_, (h _ List.mem_cons_self).index_eq hw.1 (Nat.le_of_lt hnext.fits) hi, ?_⟩
    cases ho : top.read idx with
    | none =>
      simp only [readFrom, ho]
      rfl
    | some o =>
      obtain ⟨h0, -⟩ := hw.1.inside idx hi o ho
      obtain ⟨flat, rfl⟩ := Int.eq_ofNat_of_zero_le h0
      simp only [readFrom, ho, Option.bind_some, position_natCast]
      refine bind_eq_ok.mpr ⟨_, hnext.size_eq, ?_⟩
      split
      · rw [Shape.unravel_eq flat hw.2.top.positive]
        exact ih next (fun v hv => h v (List.mem_cons_of_mem _ hv)) hw.2
          (fun v hv => hc v (List.mem_cons_of_mem _ hv))
          (Shape.indexAt_inRange flat hw.2.top.positive)
      · rfl

end Tracker

end TensorLoom
