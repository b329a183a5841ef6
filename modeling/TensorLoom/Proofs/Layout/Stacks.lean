import TensorLoom.Proofs.Layout.Identity

/-!
# Stacks whose views stay inside each other

What movements make of a row-major buffer is a stack of views in canonical form
(`View.Canonical`), each of which stays inside the one below it where its mask accepts an index.
An index is looked up by going down the stack, and there are three ways to lose it: a mask, an
offset before the start and an offset past the end. Only the first one happens
(`Tracker.index_moveAll_stacked`).

* `View.Orderly` is what the edits keep of a view besides `View.Within`: its normal form and the
  order of its bounds. It is kept view by view (`Tracker.Orderly.move`).
* `Tracker.Rejects` describes how a mask on the way down leaves an index out.
-/

namespace TensorLoom

open Shape (InRange indexAt)

/-! ## Axes -/

namespace Axis

/-- The bounds of an axis are in order, and those of a unit axis start at its position. -/
structure Ordered (a : Axis) : Prop where
  low_le : a.low ≤ a.high
  unit : a.size = 1 → a.low = 0

variable {a : Axis}

theorem ordered_full (size : Nat) (stride : Int) : (full size stride).Ordered :=
  ⟨Nat.zero_le _, fun _ => rfl⟩

theorem Ordered.settle (h : a.Ordered) : a.settle.Ordered := by
  unfold Axis.settle
  split
  · exact ⟨h.low_le, h.unit⟩
  · exact h

theorem ordered_unbounded (a : Axis) : a.unbounded.Ordered := ⟨Nat.zero_le _, fun _ => rfl⟩

theorem Ordered.expand (h : a.Ordered) {size : Nat} (hs : a.size = size ∨ a.size = 1) :
    (a.expand size).Ordered := by
  unfold Axis.expand
  split
  · exact h
  rename_i hne
  split
  · exact ordered_full size 0
  · exact ⟨h.low_le, fun _ => h.unit (hs.resolve_left hne)⟩

theorem Ordered.padded (h : a.Ordered) (hp : 0 < a.size) (amounts : Nat × Nat) :
    (a.padded amounts).Ordered where
  low_le := Nat.add_le_add_right h.low_le _
  unit h1 := by
    -- an axis of one position has had nothing put around it
    have hlow := h.unit
    simp only [Axis.padded] at h1 ⊢
    omega

theorem ordered_shrink (a : Axis) (first stop : Nat) : (a.shrink first stop).Ordered := by
  unfold shrink
  dsimp only
  split
  · refine ⟨Nat.le_of_lt ‹_›, fun h1 => ?_⟩
    dsimp only at h1 ⊢
    omega
  · exact ⟨Nat.le_refl 0, fun _ => rfl⟩

theorem ordered_stepped (a : Axis) (pace : Int) : (a.stepped pace).Ordered := ordered_full _ _

end Axis

/-! ## Views -/

namespace View

variable {v w : View}

/-- A view is its own normal form, and the bounds of its axes are in order. -/
structure Orderly (v : View) : Prop where
  ordered : ∀ a ∈ v.axes, a.Ordered
  normal : v.Normal

theorem orderly_normalize (h : ∀ a ∈ v.axes, a.Ordered) : v.normalize.Orderly where
  ordered a ha := by
    unfold normalize at ha
    dsimp only at ha
    split at ha
    · obtain ⟨b, -, rfl⟩ := List.mem_map.mp ha
      exact b.ordered_unbounded
    · obtain ⟨b, hb, rfl⟩ := List.mem_map.mp ha
      exact (h b hb).settle
  normal := normal_normalize v

theorem orderly_contiguous {shape : List Nat} (h : contiguous shape = .ok v) : v.Orderly := by
  refine ⟨fun a ha => ?_, (contiguous_eq_ok h).2.2.1⟩
  obtain ⟨_, -, h⟩ := bind_eq_ok.mp h
  obtain ⟨strides, -, h⟩ := bind_eq_ok.mp h
  cases h
  obtain ⟨dim, -, stride, rfl⟩ := exists_of_mem_zipWith ha
  exact Axis.ordered_full dim stride

theorem Orderly.permute (h : v.Orderly) {axes : List Nat}
    (hperm : axes.Perm (List.range v.shape.length)) : (v.permute axes).Orderly where
  ordered a ha := h.ordered a (mem_axes_permute ha)
  normal := by
    refine ⟨fun a ha => h.normal.settled a (mem_axes_permute ha), fun hm a ha => ?_⟩
    refine h.normal.full ?_ a (mem_axes_permute ha)
    -- no axis is lost, so none of them leaves out a position
    have haxes : v.axes = (List.range v.shape.length).map (v.axes.getD · Axis.unit) := by
      rw [shape, List.length_map]
      exact eq_map_range_getD _ _
    rw [isMasked, axes_permute hperm, (hperm.map _).all_eq, ← haxes] at hm
    exact hm

theorem Orderly.reshape? (h : v.Orderly) {shape : List Nat} (hw : v.reshape? shape = some w) :
    w.Orderly := by
  obtain ⟨-, -, rfl⟩ := reshape?_eq_some hw
  refine orderly_normalize fun a ha => ?_
  rcases mem_respace ha with rfl | ha
  · exact Axis.ordered_full 1 0
  · exact h.ordered a (List.mem_of_mem_filter ha)

theorem Orderly.expand (h : v.Orderly) {shape : List Nat}
    (hs : List.Forall₂ (fun size d => size = d ∨ size = 1) v.shape shape) :
    (v.expand shape).Orderly := by
  have hs : List.Forall₂ (fun (a : Axis) d => a.size = d ∨ a.size = 1) v.axes shape :=
    List.forall₂_map_left_iff.mp hs
  refine orderly_normalize (forall_zipWith (forall₂_imp_mem hs fun a ha d had => ?_))
  exact (h.ordered a ha).expand had

theorem Orderly.pad (h : v.Orderly) (hp : ∀ a ∈ v.axes, 0 < a.size) {amounts : List (Nat × Nat)}
    (hw : v.pad amounts = .ok w) : w.Orderly := by
  obtain ⟨o, -, hw⟩ := bind_eq_ok.mp hw
  obtain ⟨axes, haxes, hw⟩ := bind_eq_ok.mp hw
  cases hw
  obtain rfl := (mapM_edit_yields fun x _ => Axis.pad_yields x.1 x.2).eq_of_ok haxes
  refine orderly_normalize fun a ha => ?_
  obtain ⟨b, hb, r, rfl⟩ := exists_of_mem_zipWith ha
  exact (h.ordered b hb).padded (hp b hb) r

theorem orderly_shrink {ranges : List (Nat × Nat)} (hw : v.shrink ranges = .ok w) :
    w.Orderly := by
  obtain ⟨o, -, hw⟩ := bind_eq_ok.mp hw
  cases hw
  refine orderly_normalize fun a ha => ?_
  obtain ⟨⟨b, first, stop⟩, -, rfl⟩ := List.mem_map.mp ha
  exact b.ordered_shrink first stop

theorem orderly_stepBy {steps : List Int} (hw : v.stepBy steps = .ok w) : w.Orderly := by
  obtain ⟨o, -, hw⟩ := bind_eq_ok.mp hw
  obtain ⟨axes, haxes, hw⟩ := bind_eq_ok.mp hw
  cases hw
  obtain rfl := (mapM_edit_yields fun x _ => Axis.step_yields x.1 x.2).eq_of_ok haxes
  refine orderly_normalize fun a ha => ?_
  obtain ⟨b, -, pace, rfl⟩ := exists_of_mem_zipWith ha
  exact b.ordered_stepped pace

/-- How a view is written. There is a size, a stride and, if there is a mask, a pair of bounds for
each axis. No dimension is empty, and unit dimensions have no stride. The bounds of a mask are in
order and end inside the axis, those of a unit dimension say all or nothing, and some position is
left out by them; where there is no mask, nothing but full ranges is stored. -/
structure Canonical (v : View) : Prop where
  positive : ∀ d ∈ v.shape, 0 < d
  strides : List.Forall₂ (fun dim stride => dim = 1 → stride = 0) v.shape v.strides
  mask : ∀ bounds, v.mask = some bounds →
    List.Forall₂ (fun dim b => b.1 ≤ b.2 ∧ b.2 ≤ dim ∧ (dim = 1 → b = (0, 1) ∨ b = (0, 0)))
      v.shape bounds ∧
    ¬ List.Forall₂ (fun dim b => b.1 = 0 ∧ dim ≤ b.2) v.shape bounds
  unmasked : v.mask = none → ∀ a ∈ v.axes, (a.low, a.high) = (0, a.size)

theorem Orderly.canonical {bound : Nat} (h : v.Orderly) (hw : v.Within bound) : v.Canonical where
  positive := hw.positive
  strides := by
    rw [View.shape, View.strides, List.forall₂_map_left_iff, List.forall₂_map_right_iff,
      List.forall₂_same]
    exact fun a ha => (hw.tidy a ha).still
  mask bounds hb := by
    unfold View.mask at hb
    split at hb
    · rename_i hm
      obtain rfl := Option.some.inj hb
      simp only [View.shape, List.forall₂_map_left_iff, List.forall₂_map_right_iff,
        List.forall₂_same]
      constructor
      · intro a ha
        have hlow := (h.ordered a ha).low_le
        have hhigh := (hw.tidy a ha).high_le
        refine ⟨hlow, hhigh, fun h1 => ?_⟩
        have hunit := (h.ordered a ha).unit h1
        simp only [Prod.mk.injEq]
        omega
      · intro hcovered
        rw [isMasked, List.all_eq_true.mpr fun a ha => Axis.isCovered_iff.mpr (hcovered a ha)] at hm
        cases hm
    · cases hb
  unmasked hb a ha := by
    have hm : v.isMasked = false := by
      unfold View.mask at hb
      split at hb
      · cases hb
      · exact Bool.eq_false_iff.mpr ‹_›
    rw [← h.normal.full hm a ha]
    rfl

/-- The mask of a view leaves an index out. -/
def Rejects (v : View) (idx : List Nat) : Prop :=
  ∃ bounds, v.mask = some bounds ∧ ¬ List.Forall₂ (fun i b => b.1 ≤ i ∧ i < b.2) idx bounds

/-- An index with an entry for each axis is admitted if it is inside the bounds of all of them. -/
theorem admits_iff_forall₂ {axes : List Axis} {idx : List Nat} (hl : idx.length = axes.length) :
    admits idx axes = true ↔
      List.Forall₂ (fun i (a : Axis) => a.low ≤ i ∧ i < a.high) idx axes := by
  rw [admits, List.all_eq_true, List.forall₂_iff_zip]
  constructor
  · exact fun h => ⟨hl, fun {i a} hia => Axis.admits_iff.mp (h (i, a) hia)⟩
  · exact fun h x hx => Axis.admits_iff.mpr (h.2 hx)

theorem rejects_iff {idx : List Nat} (hi : InRange idx v.shape) :
    v.Rejects idx ↔ admits idx v.axes = false := by
  have hl : idx.length = v.axes.length := by
    rw [hi.length_eq, shape, List.length_map]
  rw [← Bool.not_eq_true, admits_iff_forall₂ hl, Rejects, View.mask]
  cases hm : v.isMasked with
  | true => simp only [if_true, Option.some.injEq, exists_eq_left', List.forall₂_map_right_iff]
  | false =>
    have hadmits := (admits_iff_forall₂ hl).mp (admits_of_isMasked hm hi)
    simp [hadmits]

/-- An index without an offset is one that the mask leaves out. -/
theorem Within.rejects_of_index {bound : Nat} (hv : v.Within bound) {idx : List Nat}
    (hi : InRange idx v.shape) (h : v.index idx = .ok none) : v.Rejects idx := by
  have hread := (index_yields hv.fits hi).eq_of_ok h
  rw [rejects_iff hi]
  by_contra hadmits
  rw [read_of_admits (Bool.eq_true_of_not_eq_false hadmits)] at hread
  cases hread

/-- The offset of an index is a position in what is below the view. -/
theorem Within.exists_position {bound : Nat} (hv : v.Within bound) {idx : List Nat}
    (hi : InRange idx v.shape) {o : Int} (h : v.index idx = .ok (some o)) :
    ∃ flat : Nat, o = flat ∧ flat < bound ∧ v.read idx = some (flat : Int) := by
  have hread := ((index_yields hv.fits hi).eq_of_ok h).symm
  obtain ⟨h0, hlt⟩ := hv.inside idx hi o hread
  obtain ⟨flat, rfl⟩ := Int.eq_ofNat_of_zero_le h0
  exact ⟨flat, rfl, by omega, hread⟩

end View

/-! ## Stacks -/

namespace Tracker

variable {bound : Nat} {t t' : Tracker}

/-- Every view of a stack is orderly. -/
def Orderly (t : Tracker) : Prop := ∀ v ∈ t.top :: t.below, v.Orderly

theorem Orderly.top (h : t.Orderly) : t.top.Orderly := h _ List.mem_cons_self

theorem Orderly.move {m : Movement} (h : t.Orderly) (hp : ∀ d ∈ t.shape, 0 < d)
    (ht : t.move m = .ok t') : t'.Orderly := by
  obtain ⟨moved, hc, hmoved⟩ := move_eq_ok ht
  suffices moved.Orderly from fun v hv => this v ((collapse_sublist hc).subset hv)
  cases m with
  | reshape shape =>
    cases (reshape_eq_ok hmoved).2.2 with
    | same _ => exact h
    | row _ hrow => exact forall_withTop h (View.orderly_contiguous hrow)
    | edited htop => exact forall_withTop h (h.top.reshape? htop)
    | pushed _ hrow => exact forall_push h (View.orderly_contiguous hrow)
  | permute axes =>
    obtain ⟨hperm, rfl⟩ := permute_eq_ok hmoved
    exact forall_withTop h (h.top.permute hperm)
  | expand shape =>
    obtain ⟨hsizes, rfl⟩ := expand_eq_ok hmoved
    exact forall_withTop h (h.top.expand hsizes)
  | pad amounts =>
    obtain ⟨-, ⟨-, rfl⟩ | ⟨w, hw, rfl⟩⟩ := pad_eq_ok hmoved
    · exact h
    · exact forall_withTop h (h.top.pad (fun a ha => hp _ (List.mem_map_of_mem ha)) hw)
  | shrink ranges =>
    obtain ⟨-, w, hw, rfl⟩ := shrink_eq_ok hmoved
    exact forall_withTop h (View.orderly_shrink hw)
  | stride steps =>
    obtain ⟨-, u, w, rfl, hw, ⟨-, rfl⟩ | ⟨-, row, hrow, rfl⟩⟩ := stride_eq_ok hmoved
    · exact forall_withTop h (View.orderly_stepBy hw)
    · exact forall_withTop (forall_push h (View.orderly_contiguous hrow)) (View.orderly_stepBy hw)

theorem Orderly.moveAll {ms : List Movement} (h : t.Orderly) (hp : ∀ d ∈ t.shape, 0 < d)
    (ht : t.moveAll ms = .ok t') : t'.Orderly := by
  induction ms generalizing t with
  | nil => exact pure_eq_ok.mp ht ▸ h
  | cons m ms ih =>
    rw [Tracker.moveAll, List.foldlM_cons] at ht
    obtain ⟨t₁, ht₁, ht⟩ := bind_eq_ok.mp ht
    exact ih (h.move hp ht₁) (positive_move hp ht₁) ht

/-- Every view stays inside what is below it. -/
theorem WithinFrom.of_append {top v : View} {above below rest : List View}
    (h : WithinFrom bound top rest) (hs : top :: rest = above ++ v :: below) :
    v.Within (room bound below) := by
  induction above generalizing top rest with
  | nil =>
    cases hs
    exact h.top
  | cons u above ih =>
    cases rest with
    | nil =>
      have hs := (List.cons.inj hs).2
      simp at hs
    | cons next rest => exact ih h.2 (List.cons.inj hs).2

/-! ## Lost indices -/

/-- On the way of an index down a stack, some mask leaves out what it has become. -/
inductive RejectsFrom : List Nat → View → List View → Prop
  | here {idx : List Nat} {top : View} {below : List View} (h : top.Rejects idx) :
    RejectsFrom idx top below
  | further {idx idx' : List Nat} {flat : Nat} {top next : View} {below : List View}
    (hflat : top.index idx = .ok (some (flat : Int)))
    (hidx : Shape.unravel flat next.shape = .ok idx') (h : RejectsFrom idx' next below) :
    RejectsFrom idx top (next :: below)

/-- An index that a mask leaves out reads as zero. -/
theorem RejectsFrom.readFrom_eq_none {idx : List Nat} {top : View} {below : List View}
    (h : RejectsFrom idx top below) (hw : WithinFrom bound top below) (hi : InRange idx top.shape) :
    readFrom idx top below = none := by
  induction h with
  | here h =>
    refine Tracker.readFrom_eq_none (if_neg ?_) _
    rw [(View.rejects_iff hi).mp h]
    exact Bool.false_ne_true
  | further hflat hidx _ ih =>
    obtain ⟨flat, heq, hlt, hread⟩ := hw.1.exists_position hi hflat
    obtain rfl := Int.ofNat.inj heq
    rw [Shape.unravel_eq _ hw.2.top.positive] at hidx
    obtain rfl := Except.ok.inj hidx
    rw [readFrom_cons hread hlt]
    exact ih hw.2 (Shape.indexAt_inRange _ hw.2.top.positive)

/-- An index is lost only where a mask leaves it out. -/
theorem rejectsFrom_of_indexFrom {idx : List Nat} {top : View} {below : List View}
    (hw : WithinFrom bound top below) (hi : InRange idx top.shape)
    (h : indexFrom idx top below = .ok none) : RejectsFrom idx top below := by
  induction below generalizing idx top with
  | nil =>
    obtain ⟨offset, hoffset, h⟩ := bind_eq_ok.mp h
    cases offset with
    | none => exact .here (View.Within.rejects_of_index hw hi hoffset)
    | some o =>
      obtain ⟨flat, rfl, -, -⟩ := View.Within.exists_position hw hi hoffset
      have h := pure_eq_ok.mp h
      rw [position_natCast] at h
      cases h
  | cons next below ih =>
    obtain ⟨offset, hoffset, h⟩ := bind_eq_ok.mp h
    cases offset with
    | none => exact .here (hw.1.rejects_of_index hi hoffset)
    | some o =>
      obtain ⟨flat, rfl, hlt, -⟩ := hw.1.exists_position hi hoffset
      simp only [position_natCast] at h
      obtain ⟨size, hsize, h⟩ := bind_eq_ok.mp h
      obtain rfl := (Shape.size_yields next.shape).eq_of_ok hsize
      rw [if_pos hlt] at h
      obtain ⟨idx', hidx', h⟩ := bind_eq_ok.mp h
      refine .further hoffset hidx' ?_
      rw [Shape.unravel_eq flat hw.2.top.positive] at hidx'
      obtain rfl := Except.ok.inj hidx'
      exact ih hw.2 (Shape.indexAt_inRange flat hw.2.top.positive) h

/-- Stacked views stay inside each other. What accepted movements make of a row-major buffer is
written in canonical form, view by view. An index that the mask of a view leaves out has no offset
there, and any other one an offset inside the view below, or inside the buffer. So an index of the
tracker is lost only where a mask on its way down leaves it out, and a position that is found is one
of the buffer. No size on the way is too large for a signed word, and where the index arithmetic
overflows there is no answer. -/
theorem index_moveAll_stacked {shape : List Nat} {ms : List Movement}
    (hf : Movement.AllFit shape ms) (h : (do (← ofShape shape).moveAll ms) = .ok t) :
    (∀ v ∈ t.top :: t.below, v.Canonical) ∧
    (∀ above v below, t.top :: t.below = above ++ v :: below → ∀ idx, InRange idx v.shape →
      (v.Rejects idx → v.index idx = .ok none) ∧
      (¬ v.Rejects idx → ∃ o : Int, Yields (v.index idx) (some o) ∧
        0 ≤ o ∧ o < (room shape.prod below : Nat))) ∧
    ∀ idx, InRange idx t.shape →
      (t.index idx = .ok none → RejectsFrom idx t.top t.below) ∧
      (RejectsFrom idx t.top t.below → Yields (t.index idx) none) ∧
      ∀ p, t.index idx = .ok (some p) → p < shape.prod := by
  obtain ⟨start, hstart, hmoved⟩ := bind_eq_ok.mp h
  obtain ⟨row, hrow, rfl⟩ := ofShape_eq_ok hstart
  obtain ⟨hp, hshape, -⟩ := View.contiguous_eq_ok hrow
  have hw : t.Within shape.prod := ((ofShape_moveAll_settles hp ms hf).of_ok h).2.1
  have hstart : Orderly ⟨row, []⟩ :=
    List.forall_mem_singleton.mpr (View.orderly_contiguous hrow)
  have hp' : ∀ d ∈ row.shape, 0 < d := hshape.symm ▸ hp
  have horderly : t.Orderly := hstart.moveAll hp' hmoved
  refine ⟨fun v hv => ?_, fun above v below hs idx hi => ?_, fun idx hi => ⟨?_, fun hr => ?_, ?_⟩⟩
  · obtain ⟨above, below, hs⟩ := List.append_of_mem hv
    exact (horderly v hv).canonical (WithinFrom.of_append hw hs)
  · have hv := WithinFrom.of_append hw hs
    have hyields := View.index_yields hv.fits hi
    constructor
    · intro hr
      rw [View.index_eq hi, (View.rejects_iff hi).mp hr, if_neg Bool.false_ne_true]
      rfl
    · intro hr
      have hadmits : View.admits idx v.axes = true :=
        Bool.eq_true_of_not_eq_false (mt (View.rejects_iff hi).mpr hr)
      rw [View.read_of_admits hadmits] at hyields
      exact ⟨_, hyields, hv.inside idx hi _ (View.read_of_admits hadmits)⟩
  · exact rejectsFrom_of_indexFrom hw hi
  · exact (index_yields hw hi).of_eq (hr.readFrom_eq_none hw hi)
  · intro p hindex
    exact read_lt hw hi ((index_yields hw hi).eq_of_ok hindex).symm

/-- A buffer padded, transposed, flattened and stepped through from the end. The mask is that of the
lower view, so an index is left out further down. -/
theorem index_moveAll_stacked_two_views :
    ∃ t, (do
        let t ← ofShape [2, 2]
        t.moveAll [.pad [(1, 0), (0, 0)], .permute [1, 0], .reshape [6], .stride [-2]]) = .ok t ∧
      t.below.length = 1 ∧ t.top.Canonical ∧ RejectsFrom [1] t.top t.below ∧
      ¬ t.top.Rejects [1] := by
  have h := @index_moveAll_stacked
    ⟨⟨5, [⟨3, -2, 0, 3⟩]⟩, [⟨-2, [⟨2, 1, 0, 2⟩, ⟨3, 2, 1, 3⟩]⟩]⟩ [2, 2]
    [.pad [(1, 0), (0, 0)], .permute [1, 0], .reshape [6], .stride [-2]] (by decide) rfl
  obtain ⟨hcanonical, -, hindex⟩ := h
  refine ⟨_, rfl, rfl, hcanonical _ List.mem_cons_self, (hindex [1] (by decide)).1 (by decide), ?_⟩
  rintro ⟨bounds, hbounds, -⟩
  cases hbounds

end Tracker

end TensorLoom
