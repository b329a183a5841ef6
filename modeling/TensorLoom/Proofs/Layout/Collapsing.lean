import TensorLoom.Proofs.Layout.Accepted
import TensorLoom.Proofs.Layout.Wrapping

/-!
# Collapsing stacks of views

Collapsing is meant to be an optimization: an index has the same answer whether or not two views
have been merged. The views of a stack may be any that a constructor accepts, so an offset may leave
the view below, where the index is lost. That check goes with the view when the view is dropped.

* `indexFrom_drop_below`, `indexFrom_drop_top`: dropping a row-major view, under another one or on
  top of one of the same shape, changes nothing but for the check of the offset against the lower of
  the two;
* `indexFrom_collapseFrom`: an index with an answer keeps it when a stack is collapsed, unless it
  had been lost at a view that is dropped (`EscapesFrom`);
* `index_move_identity`: the same holds for a movement that is the identity on the indices of its
  shape;
* `not_forall_index_move_identity`: an index that had been lost can be found again.
-/

namespace TensorLoom

open Shape (InRange indexAt)

namespace Tracker

variable {t t' : Tracker} {top next : View} {below : List View} {idx : List Nat} {a : Option Nat}

/-- The offset of an index is not one of the elements of the view below. -/
def Escapes (idx : List Nat) (top next : View) : Prop :=
  ∃ o, top.index idx = .ok (some o) ∧ ¬ (0 ≤ o ∧ o < next.shape.prod)

/-- On its way down a stack of views the offset of an index escapes at a view that is dropped when
the stack is collapsed. -/
def EscapesFrom (idx : List Nat) (top : View) : List View → Prop
  | [] => False
  | next :: below =>
    (next.isContiguous = .ok true ∧ (Escapes idx top next ∨ EscapesFrom idx top below)) ∨
      (next.isContiguous = .ok false ∧ top.isContiguous = .ok true ∧ top.shape = next.shape) ∧
        (Escapes idx top next ∨ EscapesFrom idx next below)

theorem indexFrom_congr {top' : View} {idx' : List Nat} (h : top.index idx = top'.index idx')
    (below : List View) : indexFrom idx top below = indexFrom idx' top' below := by
  cases below <;> simp only [indexFrom, h]

theorem indexFrom_none (h : top.index idx = .ok none) (below : List View) :
    indexFrom idx top below = .ok none := by
  cases below <;> simp only [indexFrom, h] <;> rfl

theorem index_of_indexFrom (h : indexFrom idx top below = .ok a) : ∃ o, top.index idx = .ok o := by
  cases below <;>
  · obtain ⟨o, ho, -⟩ := bind_eq_ok.mp h
    exact ⟨o, ho⟩

/-- What becomes of an index that has an answer: it is lost where the bounds of the top leave it out
or its offset escapes, and is the index of a position further down otherwise. -/
theorem indexFrom_cons_eq_ok (hp : ∀ d ∈ next.shape, 0 < d)
    (h : indexFrom idx top (next :: below) = .ok a) :
    a = none ∧ (top.index idx = .ok none ∨ Escapes idx top next) ∨
      ∃ flat < next.shape.prod, next.shape.prod < Word.bound ∧
        top.index idx = .ok (some (flat : Int)) ∧
        indexFrom (indexAt flat next.shape) next below = .ok a := by
  obtain ⟨o, ho, h⟩ := bind_eq_ok.mp h
  cases o with
  | none =>
    cases h
    exact .inl ⟨rfl, .inl ho⟩
  | some o =>
    dsimp only at h
    cases hpos : Tracker.position o with
    | none =>
      rw [hpos] at h
      cases h
      refine .inl ⟨rfl, .inr ⟨o, ho, fun hr => ?_⟩⟩
      rw [Tracker.position, if_pos hr.1] at hpos
      cases hpos
    | some flat =>
      rw [hpos] at h
      obtain rfl := position_eq_some.mp hpos
      obtain ⟨size, hsize, h⟩ := bind_eq_ok.mp h
      obtain rfl := (Shape.size_yields _).eq_of_ok hsize
      split at h
      · rename_i hlt
        rw [Shape.unravel_eq flat hp] at h
        exact .inr ⟨flat, hlt, Shape.size_lt hsize, ho, h⟩
      · cases h
        exact .inl ⟨rfl, .inr ⟨flat, ho, by omega⟩⟩

/-- A row-major view below the top can be dropped, but for the range check against it. -/
theorem indexFrom_drop_below (hp : ∀ d ∈ next.shape, 0 < d) (hc : next.isContiguous = .ok true)
    (h : indexFrom idx top (next :: below) = .ok a) :
    indexFrom idx top below = .ok a ∨ a = none ∧ Escapes idx top next := by
  rcases indexFrom_cons_eq_ok hp h with ⟨rfl, ho | he⟩ | ⟨flat, hlt, -, ho, h⟩
  · exact .inl (indexFrom_none ho below)
  · exact .inr ⟨rfl, he⟩
  · -- the view below computes the offset that it was given
    refine .inl ((indexFrom_congr ?_ below).trans h)
    obtain ⟨r, hr⟩ := index_of_indexFrom h
    have hr' := (View.index_of_isContiguous hc (Shape.indexAt_inRange flat hp)).eq_of_ok hr
    rw [Shape.position_indexAt hlt, View.wrap_of_index ho] at hr'
    rw [ho, hr, hr']

/-- A row-major top of the shape below it can be dropped, but for the range check. -/
theorem indexFrom_drop_top (hp : ∀ d ∈ next.shape, 0 < d) (hc : top.isContiguous = .ok true)
    (hs : top.shape = next.shape) (hi : InRange idx top.shape)
    (h : indexFrom idx top (next :: below) = .ok a) :
    indexFrom idx next below = .ok a ∨ a = none ∧ Escapes idx top next := by
  have htop := View.index_of_isContiguous hc hi
  rcases indexFrom_cons_eq_ok hp h with ⟨rfl, ho | he⟩ | ⟨flat, hlt, hbound, ho, h⟩
  · cases htop.eq_of_ok ho
  · exact .inr ⟨rfl, he⟩
  · -- an offset that is not negative has not been wrapped around
    have hwrap : (flat : Int) = Signed.wrap (Shape.position top.shape idx) :=
      Option.some.inj (htop.eq_of_ok ho)
    have hposition := Shape.position_lt hi
    have hflat : flat = Shape.position next.shape idx := by
      rw [← hs] at hlt hbound ⊢
      rw [Signed.wrap_natCast (hposition.trans hbound), Signed.ofSize] at hwrap
      split at hwrap <;> omega
    rw [hflat, Shape.indexAt_position (hs ▸ hi)] at h
    exact .inl h

theorem indexFrom_collapseFrom (hp : ∀ v ∈ top :: below, ∀ d ∈ v.shape, 0 < d)
    (hc : collapseFrom top below = .ok t') (hi : InRange idx top.shape)
    (h : indexFrom idx top below = .ok a) :
    t'.index idx = .ok a ∨ a = none ∧ EscapesFrom idx top below := by
  induction below generalizing top with
  | nil =>
    cases hc
    exact .inl h
  | cons next below ih =>
    have hnext := hp next (List.mem_cons_of_mem _ List.mem_cons_self)
    obtain ⟨row, hrow, hc⟩ := bind_eq_ok.mp hc
    cases row with
    | true =>
      rcases indexFrom_drop_below hnext hrow h with h | ⟨ha, he⟩
      · have hp' : ∀ v ∈ top :: below, ∀ d ∈ v.shape, 0 < d := fun v hv =>
          hp v (List.cons_subset_cons top (List.subset_cons_self next below) hv)
        exact (ih hp' hc hi h).imp_right fun he => ⟨he.1, .inl ⟨hrow, .inr he.2⟩⟩
      · exact .inr ⟨ha, .inl ⟨hrow, .inl he⟩⟩
    | false =>
      obtain ⟨row', hrow', hc⟩ := bind_eq_ok.mp hc
      split at hc
      · rename_i hboth
        simp only [Bool.and_eq_true, decide_eq_true_eq] at hboth
        obtain ⟨rfl, hs⟩ := hboth
        rcases indexFrom_drop_top hnext hrow' hs hi h with h | ⟨ha, he⟩
        · have hp' : ∀ v ∈ next :: below, ∀ d ∈ v.shape, 0 < d := fun v hv =>
            hp v (List.mem_cons_of_mem _ hv)
          exact (ih hp' hc (hs ▸ hi) h).imp_right fun he =>
            ⟨he.1, .inr ⟨⟨hrow, hrow', hs⟩, .inr he.2⟩⟩
        · exact .inr ⟨ha, .inr ⟨⟨hrow, hrow', hs⟩, .inl he⟩⟩
      · cases hc
        exact .inl h

end Tracker

/-! ## Movements that are the identity -/

/-- A movement takes every index of a shape from itself. -/
def Movement.IsIdentity (shape : List Nat) : Movement → Prop
  | .reshape target => target = shape
  | .permute axes => axes = List.range shape.length
  | .expand target => target = shape
  | .pad amounts => ∀ r ∈ amounts, r = (0, 0)
  | .shrink ranges => ranges = shape.map fun size => (0, size)
  | .stride steps => ∀ s ∈ steps, s = 1

namespace View

variable {v w : View} {idx : List Nat}

/-- Views that answer alike and are taken for row-major alike. -/
structure Interchangeable (v w : View) : Prop where
  shape : w.shape = v.shape
  isContiguous : w.isContiguous = v.isContiguous
  index : ∀ idx, InRange idx v.shape → w.index idx = v.index idx

theorem Interchangeable.refl (v : View) : v.Interchangeable v := ⟨rfl, rfl, fun _ _ => rfl⟩

theorem permute_range (v : View) : v.permute (List.range v.shape.length) = v := by
  have haxes := axes_permute (v := v) (List.Perm.refl (List.range v.shape.length))
  rw [View.shape, List.length_map, ← eq_map_range_getD] at haxes
  rw [View.shape, List.length_map]
  exact congrArg (View.mk v.offset) haxes

theorem expand_shape (h : v.Normal) : v.expand v.shape = v := by
  have haxes : List.zipWith Axis.expand v.axes v.shape = v.axes := by
    rw [View.shape, List.zipWith_map_right, List.zipWith_self]
    refine (List.map_congr_left fun a _ => ?_).trans (List.map_id _)
    rw [Axis.expand, if_pos rfl]
    rfl
  rw [View.expand, haxes]
  exact h.normalize_eq

/-- A fold none of whose steps moves the offset. -/
theorem foldlM_still {α : Type} {f : Int → α → Checked Int} {xs : List α}
    (hf : ∀ o, ∀ x ∈ xs, ∀ o', f o x = .ok o' → o' = o) {o o' : Int}
    (h : xs.foldlM f o = .ok o') : o' = o := by
  induction xs generalizing o with
  | nil =>
    cases h
    rfl
  | cons x xs ih =>
    rw [List.foldlM_cons] at h
    obtain ⟨o₁, ho₁, hrest⟩ := bind_eq_ok.mp h
    obtain rfl := hf o x List.mem_cons_self o₁ ho₁
    exact ih (fun o x hx => hf o x (List.mem_cons_of_mem _ hx)) hrest

theorem isMasked_of_isContiguous (h : v.isContiguous = .ok true) : v.isMasked = false := by
  unfold isContiguous at h
  split at h
  · rename_i hplain
    exact hplain.2
  · cases h

theorem stepBy_ones (h : v.Normal) (hm : v.isMasked = false) {steps : List Int}
    (hs : ∀ s ∈ steps, s = 1) (hl : v.axes.length = steps.length) (hw : v.stepBy steps = .ok w) :
    w = v := by
  obtain rfl : steps = v.axes.map fun _ => 1 := by
    rw [List.map_const', hl]
    exact List.eq_replicate_of_mem hs
  obtain ⟨o, ho, hw⟩ := bind_eq_ok.mp hw
  obtain ⟨axes, haxes, hw⟩ := bind_eq_ok.mp hw
  cases hw
  obtain rfl : o = v.offset := foldlM_still (fun o x hx o' ho' => by
    obtain ⟨a, pace⟩ := x
    obtain rfl := hs pace (List.of_mem_zip hx).2
    exact (pure_eq_ok.mp ho').symm) ho
  obtain rfl : axes = v.axes := by
    rw [(mapM_edit_yields fun x _ => Axis.step_yields x.1 x.2).eq_of_ok haxes,
      List.zipWith_map_right, List.zipWith_self]
    refine (List.map_congr_left fun a ha => ?_).trans (List.map_id _)
    refine Eq.trans ?_ (h.full hm a ha)
    simp [Axis.stepped, Axis.unbounded, Axis.full]
  exact h.normalize_eq

end View

/-! ### Shrinking to the full range -/

namespace Axis

variable {a : Axis}

theorem admits_shrink_full {i : Nat} (hi : i < a.size) :
    (a.shrink 0 a.size).admits i = a.admits i := by
  rw [admits_shrink hi, Nat.zero_add]

theorem isCovered_shrink_full (hp : 0 < a.size) : (a.shrink 0 a.size).isCovered = a.isCovered := by
  rw [Bool.eq_iff_iff, isCovered_iff, isCovered_iff]
  unfold shrink
  dsimp only
  split <;> dsimp only <;> omega

theorem settle_shrink_full (h : a.settle = a) :
    (a.shrink 0 a.size).settle = a.shrink 0 a.size := by
  have hstill : a.size = 1 → a.stride = 0 := fun h1 => by
    rw [settle, if_pos h1] at h
    exact (congrArg Axis.stride h).symm
  have hsize : (a.shrink 0 a.size).size = a.size := size_shrink a 0 a.size
  unfold settle
  split
  · rename_i h1
    rw [← (stride_shrink a 0 a.size).trans (hstill (hsize ▸ h1))]
  · rfl

theorem shrink_full_of_unbounded (hp : 0 < a.size) (h : a.unbounded = a) :
    a.shrink 0 a.size = a := by
  rw [← h]
  simp [shrink, unbounded, hp]

end Axis

namespace View

variable {v w : View} {idx : List Nat}

/-- The view with the bounds of each axis cut at its ends. -/
def cut (v : View) : View := ⟨v.offset, v.axes.map fun a => a.shrink 0 a.size⟩

theorem shape_cut (v : View) : v.cut.shape = v.shape := by
  simp [cut, shape, Function.comp_def, Axis.size_shrink]

theorem strides_cut (v : View) : v.cut.strides = v.strides := by
  simp [cut, strides, Function.comp_def, Axis.stride_shrink]

theorem isMasked_cut (hp : ∀ a ∈ v.axes, 0 < a.size) : v.cut.isMasked = v.isMasked := by
  unfold isMasked cut
  rw [List.all_map]
  congr 1
  rw [Bool.eq_iff_iff, List.all_eq_true, List.all_eq_true]
  refine forall₂_congr fun a ha => ?_
  rw [Function.comp_apply, Axis.isCovered_shrink_full (hp a ha)]

theorem admits_cut (hi : InRange idx v.shape) : admits idx v.cut.axes = admits idx v.axes := by
  obtain ⟨o, axes⟩ := v
  unfold cut
  dsimp only
  induction axes generalizing idx with
  | nil => rfl
  | cons a axes ih =>
    cases hi with
    | cons hi hr => rw [List.map_cons, admits_cons, admits_cons, Axis.admits_shrink_full hi, ih hr]

theorem index_cut (hi : InRange idx v.shape) : v.cut.index idx = v.index idx := by
  rw [index_eq hi, index_eq (v := v.cut) (by rwa [shape_cut]), admits_cut hi]
  unfold cut
  simp only [List.zip_map_right, List.foldlM_map, Prod.map_fst, Prod.map_snd, id_eq,
    Axis.stride_shrink]

theorem interchangeable_cut (hp : ∀ a ∈ v.axes, 0 < a.size) : v.Interchangeable v.cut where
  shape := shape_cut v
  isContiguous := by
    unfold isContiguous
    rw [isMasked_cut hp, shape_cut, strides_cut]
    rfl
  index _ hi := index_cut hi

theorem Normal.cut (h : v.Normal) (hp : ∀ a ∈ v.axes, 0 < a.size) : v.cut.Normal where
  settled a ha := by
    obtain ⟨b, hb, rfl⟩ := List.mem_map.mp ha
    exact Axis.settle_shrink_full (h.settled b hb)
  full hm a ha := by
    rw [isMasked_cut hp] at hm
    obtain ⟨b, hb, rfl⟩ := List.mem_map.mp ha
    rw [Axis.shrink_full_of_unbounded (hp b hb) (h.full hm b hb)]
    exact h.full hm b hb

theorem shrink_full (h : v.Normal) (hp : ∀ a ∈ v.axes, 0 < a.size)
    (hw : v.shrink (v.shape.map fun size => (0, size)) = .ok w) : w = v.cut := by
  obtain ⟨o, ho, hw⟩ := bind_eq_ok.mp hw
  cases hw
  have hranges : (v.shape.map fun size => (0, size)) = v.axes.map fun a => (0, a.size) := by
    rw [shape, List.map_map]
    rfl
  rw [hranges] at ho ⊢
  obtain rfl : o = v.offset := foldlM_still (fun o x hx o' ho' => by
    obtain ⟨a, first, stop⟩ := x
    obtain ⟨b, -, hb⟩ := List.mem_map.mp (List.of_mem_zip hx).2
    cases hb
    obtain ⟨step, hstep, ho'⟩ := bind_eq_ok.mp ho'
    obtain ⟨rfl, -⟩ := Signed.check_eq_ok.mp hstep
    obtain ⟨rfl, -⟩ := Signed.check_eq_ok.mp ho'
    rw [show Signed.ofSize 0 = 0 from rfl, Int.zero_mul, Int.add_zero]) ho
  have haxes : ((v.axes.zip (v.axes.map fun a => (0, a.size))).map fun x =>
      x.1.shrink x.2.1 x.2.2) = v.cut.axes := by
    rw [List.map_zip_eq_zipWith, List.zipWith_map_right, List.zipWith_self]
    rfl
  rw [haxes]
  exact (h.cut hp).normalize_eq

end View

/-! ## Identities on stacks -/

namespace Tracker

variable {t t' : Tracker} {top w : View} {idx : List Nat}

theorem escapesFrom_congr (h : top.Interchangeable w) (hi : InRange idx top.shape)
    (below : List View) : EscapesFrom idx w below ↔ EscapesFrom idx top below := by
  induction below with
  | nil => exact Iff.rfl
  | cons next below ih =>
    simp only [EscapesFrom, Escapes, h.index idx hi, h.isContiguous, h.shape, ih]

/-- An index that the bounds of the top leave out has not escaped. -/
theorem not_escapesFrom_of_none (hi : InRange idx top.shape) (h : top.index idx = .ok none)
    (below : List View) : ¬ EscapesFrom idx top below := by
  have hstays (next : View) : ¬ Escapes idx top next := by
    rintro ⟨o, ho, -⟩
    cases h.symm.trans ho
  induction below with
  | nil => exact id
  | cons next below ih =>
    rintro (⟨-, he | he⟩ | ⟨⟨-, hc, -⟩, -⟩)
    · exact hstays next he
    · exact ih he
    · -- a row-major top leaves out nothing
      cases (View.index_of_isContiguous hc hi).eq_of_ok h

/-- A row-major view that has been put on a masked top is dropped again. -/
theorem collapseFrom_push {row : View} (hr : row.isContiguous = .ok true)
    (hm : top.isMasked = true) (hs : row.shape = top.shape) (below : List View) :
    collapseFrom row (top :: below) = collapseFrom top below := by
  have htop : top.isContiguous = .ok false := if_neg fun h => by simp [hm] at h
  rw [collapseFrom, htop, hr, hs]
  simp only [decide_true]
  rfl

theorem reshape_self (h : t.reshape t.shape = .ok t') : t' = t := by
  obtain ⟨_, -, h⟩ := bind_eq_ok.mp h
  obtain ⟨size, hsize, h⟩ := bind_eq_ok.mp h
  obtain ⟨size', hsize', h⟩ := bind_eq_ok.mp h
  obtain rfl : size' = size := Except.ok.inj (hsize'.symm.trans hsize)
  rw [if_neg (not_not.mpr rfl), if_pos rfl] at h
  exact (pure_eq_ok.mp h).symm

theorem permute_self (h : t.permute (List.range t.shape.length) = .ok t') : t' = t := by
  obtain ⟨-, rfl⟩ := permute_eq_ok h
  rw [shape, View.permute_range]
  rfl

theorem pad_zeros {amounts : List (Nat × Nat)} (hz : ∀ r ∈ amounts, r = (0, 0))
    (h : t.pad amounts = .ok t') : t' = t := by
  obtain ⟨_, -, h⟩ := bind_eq_ok.mp h
  have hz : amounts.all (· = (0, 0)) = true :=
    List.all_eq_true.mpr fun r hr => decide_eq_true (hz r hr)
  rw [if_pos hz] at h
  exact (pure_eq_ok.mp h).symm

/-- Before the views that it has made redundant are dropped, a movement that is the identity has put
an interchangeable view in place of the top. -/
theorem exists_interchangeable {m : Movement} (hv : t.top.Normal)
    (hp : ∀ a ∈ t.top.axes, 0 < a.size) (hm : m.IsIdentity t.shape) (h : t.move m = .ok t') :
    ∃ w, t.top.Interchangeable w ∧ collapse ⟨w, t.below⟩ = .ok t' := by
  obtain ⟨moved, hc, hmoved⟩ := move_eq_ok h
  cases m with
  | reshape shape =>
    obtain rfl : shape = t.shape := hm
    obtain rfl := reshape_self hmoved
    exact ⟨_, .refl _, hc⟩
  | permute axes =>
    obtain rfl : axes = List.range t.shape.length := hm
    obtain rfl := permute_self hmoved
    exact ⟨_, .refl _, hc⟩
  | expand shape =>
    obtain rfl : shape = t.shape := hm
    obtain ⟨-, rfl⟩ := expand_eq_ok hmoved
    rw [shape, View.expand_shape hv] at hc
    exact ⟨_, .refl _, hc⟩
  | pad amounts =>
    obtain rfl := pad_zeros hm hmoved
    exact ⟨_, .refl _, hc⟩
  | shrink ranges =>
    obtain rfl : ranges = t.shape.map fun size => (0, size) := hm
    obtain ⟨-, w, hw, rfl⟩ := shrink_eq_ok hmoved
    obtain rfl := View.shrink_full hv hp hw
    exact ⟨_, View.interchangeable_cut hp, hc⟩
  | stride steps =>
    obtain ⟨hl, u, w, rfl, hw, ⟨hmask, rfl⟩ | ⟨hmask, row, hrow, rfl⟩⟩ := stride_eq_ok hmoved
    · obtain rfl := View.stepBy_ones hv hmask hm (by simpa [shape, View.shape] using hl) hw
      exact ⟨_, .refl _, hc⟩
    · obtain ⟨-, hshape, hnormal, hcontiguous⟩ := View.contiguous_eq_ok hrow
      have hl : row.axes.length = steps.length := by
        rw [← hl, ← hshape, View.shape, List.length_map]
      obtain rfl := View.stepBy_ones hnormal (View.isMasked_of_isContiguous hcontiguous) hm hl hw
      have hdropped := collapseFrom_push hcontiguous hmask hshape t.below
      exact ⟨_, .refl _, hdropped.symm.trans hc⟩

/-- A movement that is the identity on the indices of its shape may drop views, and with a view the
check that an offset is one of its elements. For every stack of accepted views, an index that has
an answer keeps it, whether that is a position or none, unless it had been lost at a view that is
dropped. -/
theorem index_move_identity {views : List View} (hv : ∀ v ∈ views, v.Accepted)
    (ht : ofViews views = .ok t) {m : Movement} (hm : m.IsIdentity t.shape)
    (h : t.move m = .ok t') :
    t'.shape = t.shape ∧ ∀ idx, InRange idx t.shape → ∀ a, t.index idx = .ok a →
      t'.index idx = .ok a ∨ a = none ∧ EscapesFrom idx t.top t.below := by
  have haccepted : ∀ v ∈ t.top :: t.below, v.Accepted := by
    rw [← ofViews_eq_ok ht]
    exact fun v hmem => hv v (List.mem_reverse.mp hmem)
  have htop := haccepted t.top List.mem_cons_self
  obtain ⟨w, hw, hc⟩ := exists_interchangeable htop.normal
    (fun a ha => htop.positive _ (List.mem_map_of_mem ha)) hm h
  have hpositive : ∀ v ∈ w :: t.below, ∀ d ∈ v.shape, 0 < d := by
    refine List.forall_mem_cons.mpr ⟨fun d hd => ?_, fun v hmem => ?_⟩
    · rw [hw.shape] at hd
      exact htop.positive d hd
    · exact (haccepted v (List.mem_cons_of_mem _ hmem)).positive
  refine ⟨(shape_collapse hc).trans hw.shape, fun idx hi a ha => ?_⟩
  rw [← escapesFrom_congr hw hi]
  refine indexFrom_collapseFrom hpositive hc ?_ ?_
  · rw [hw.shape]
    exact hi
  · exact (indexFrom_congr (hw.index idx hi) t.below).trans ha

/-- A buffer stored by columns, flattened and read backwards but for its ends, is three views. The
middle one is dropped when the top is stepped along, and with it nothing is lost or found. -/
theorem index_move_identity_backwards :
    ∃ columns flat backwards t t', View.ofStrides [2, 3] [1, 2] 0 = .ok columns ∧
      View.contiguous [6] = .ok flat ∧ View.masked [6] [-1] 5 [(1, 5)] = .ok backwards ∧
      ofViews [columns, flat, backwards] = .ok t ∧ t.move (.stride [1]) = .ok t' ∧
      t'.below = [columns] ∧ t'.index [1] = .ok (some 3) ∧ t'.index [0] = .ok none := by
  have hv : ∀ v ∈ [View.mk 0 [⟨2, 1, 0, 2⟩, ⟨3, 2, 0, 3⟩], ⟨0, [⟨6, 1, 0, 6⟩]⟩,
      ⟨5, [⟨6, -1, 1, 5⟩]⟩], v.Accepted := by
    simp only [List.forall_mem_cons, List.not_mem_nil, false_imp_iff, implies_true, and_true]
    exact ⟨@View.Accepted.ofStrides _ [2, 3] [1, 2] 0 rfl, @View.Accepted.contiguous _ [6] rfl,
      @View.Accepted.masked _ [6] [-1] 5 [(1, 5)] rfl⟩
  have hmove := (index_move_identity hv rfl (m := .stride [1]) (by simp [Movement.IsIdentity])
    rfl).2
  refine ⟨_, _, _, _, _, rfl, rfl, rfl, rfl, rfl, rfl, ?_, ?_⟩
  · exact (hmove [1] (by decide) (some 3) rfl).resolve_right (by simp)
  · refine (hmove [0] (by decide) none rfl).resolve_right fun he => ?_
    exact not_escapesFrom_of_none (by decide) rfl _ he.2

/-- The upper view of a stack leaves the buffer at its end, where nothing is read. Once it has been
reshaped to its own shape the check against the lower view is gone with that view, and the sixth
position is read from a buffer of four. -/
theorem not_forall_index_move_identity :
    ¬ ∀ views t t' m, (∀ v ∈ views, View.Accepted v) → ofViews views = .ok t →
      Movement.IsIdentity t.shape m → t.move m = .ok t' →
      ∀ idx, InRange idx t.shape → ∀ a, t.index idx = .ok a → t'.index idx = .ok a := by
  intro h
  have hv : ∀ v ∈ [View.mk 0 [⟨4, 1, 0, 4⟩], ⟨0, [⟨6, 1, 0, 6⟩]⟩], v.Accepted := by
    simp only [List.forall_mem_cons, List.not_mem_nil, false_imp_iff, implies_true, and_true]
    exact ⟨@View.Accepted.contiguous _ [4] rfl, @View.Accepted.ofStrides _ [6] [1] 0 rfl⟩
  have h := h _ _ ⟨⟨0, [⟨6, 1, 0, 6⟩]⟩, []⟩ (.reshape [6]) hv rfl rfl rfl [5] (by decide) none rfl
  revert h
  decide

end Tracker

end TensorLoom
