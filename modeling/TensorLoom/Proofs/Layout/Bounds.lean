import TensorLoom.Proofs.Layout.Accepted
import TensorLoom.Proofs.Layout.Wrapping

/-!
# Movements of views with bounds of the caller

The bounds of a masked view come from the caller, and nothing is asked of them: they may be empty or
upside down, and they may reach beyond the axis. Movements that add positions to an axis keep the
bounds as they are, so bounds that reach beyond it say of the new positions that they exist.

* `Axis.follows_padded_iff`, `Axis.follows_expand_iff`: which bounds an axis may have so that
  padding or repeating it keeps what is read; shrinking an axis cuts its bounds (`follows_shrink`);
* `Tracker.index_move_masked`: where the bounds are of this kind, every expand, pad or shrink of a
  masked view reads each index at its source, whatever the strides, the offset and the sizes are;
* `Tracker.not_forall_index_move_masked`: padding a view whose bounds reach beyond an axis makes
  positions of it readable that hold a zero in the textbook.
-/

namespace TensorLoom

open Shape (InRange)
open Movement (axiswise)

namespace View

variable {v w : View}

theorem gathers_refl {source : List Nat → Option (List Nat)}
    (h : ∀ idx, InRange idx v.shape → source idx = some idx) : v.Gathers v source where
  inRange idx hi i hs := Option.some.inj ((h idx hi).symm.trans hs) ▸ hi
  read idx hi := by
    rw [h idx hi]
    rfl

theorem gathers_expand {shape : List Nat} (h : List.Forall₂ (fun (a : Axis) d =>
      a.Follows (a.expand d) 0 (Movement.expandRule a.size d)) v.axes shape) :
    v.Gathers ⟨v.offset, List.zipWith Axis.expand v.axes shape⟩
      (axiswise Movement.expandRule v.shape shape) := by
  have hzero : (List.zipWith (fun (_ : Axis) (_ : Nat) => (0 : Int)) v.axes shape).sum = 0 := by
    rw [Tracker.zipWith_right (fun _ => 0) h.length_eq]
    simp
  have hgathers := gathers_axiswise h
  rwa [hzero, Int.add_zero] at hgathers

theorem pad_congruent {amounts : List (Nat × Nat)} (h : v.pad amounts = .ok w) :
    w.Congruent
      ⟨v.offset + (List.zipWith (fun a r => -((r.1 : Int) * a.stride)) v.axes amounts).sum,
      List.zipWith Axis.padded v.axes amounts⟩ := by
  obtain ⟨o, ho, h⟩ := bind_eq_ok.mp h
  obtain ⟨axes, haxes, h⟩ := bind_eq_ok.mp h
  cases h
  obtain rfl := (mapM_edit_yields fun x _ => Axis.pad_yields x.1 x.2).eq_of_ok haxes
  refine .normalize (wrap_foldlM_shift (fun o x o' ho => ?_) ho) _
  obtain ⟨step, hstep, ho⟩ := bind_eq_ok.mp ho
  obtain ⟨rfl, -⟩ := Signed.check_eq_ok.mp hstep
  obtain ⟨rfl, -⟩ := Signed.check_eq_ok.mp ho
  rw [← Int.sub_eq_add_neg]
  exact Signed.wrap_sub rfl (Signed.wrap_mul (Signed.wrap_ofSize _) rfl)

theorem shrink_congruent {ranges : List (Nat × Nat)} (h : v.shrink ranges = .ok w) :
    w.Congruent ⟨v.offset + (List.zipWith (fun a r => (r.1 : Int) * a.stride) v.axes ranges).sum,
      List.zipWith (fun a r => a.shrink r.1 r.2) v.axes ranges⟩ := by
  obtain ⟨o, ho, h⟩ := bind_eq_ok.mp h
  cases h
  rw [← List.map_uncurry_zip_eq_zipWith (f := fun (a : Axis) (r : Nat × Nat) => a.shrink r.1 r.2)]
  refine .normalize (wrap_foldlM_shift (fun o x o' ho => ?_) ho) _
  obtain ⟨step, hstep, ho⟩ := bind_eq_ok.mp ho
  obtain ⟨rfl, -⟩ := Signed.check_eq_ok.mp hstep
  obtain ⟨rfl, -⟩ := Signed.check_eq_ok.mp ho
  exact Signed.wrap_add rfl (Signed.wrap_mul (Signed.wrap_ofSize _) rfl)

end View

/-- An expand, a pad or a shrink that bounds do not stand in the way of. A unit axis is repeated
only if its bounds end inside it, or else make no difference between the positions that it is
repeated at, and positions are put behind an axis only if its bounds leave them out. -/
def Movement.ClearOf (axes : List Axis) : Movement → Prop
  | .expand shape => List.Forall₂ (fun a d =>
      a.size = d ∨ a.high ≤ a.size ∨ ∀ i < d, a.admits i = a.admits 0) axes shape
  | .pad amounts => List.Forall₂ (fun a r =>
      ∀ i, a.size ≤ i → i < a.size + r.2 → a.admits i = false) axes amounts
  | .shrink _ => True
  | _ => False

namespace Tracker

variable {v : View} {t t' : Tracker} {m : Movement}

/-- What the index of a single view is, unless the arithmetic overflows. -/
theorem index_single_yields {idx : List Nat} {r : Option Int} (h : Yields (v.index idx) r) :
    Yields (index ⟨v, []⟩ idx) (r.bind Tracker.position) := by
  refine .bind h ?_
  cases r <;> exact .pure _

/-- A movement of a single view edits it to one that gathers, up to multiples of the word size. -/
theorem exists_gathers (hp : ∀ a ∈ v.axes, 0 < a.size) (hm : m.ClearOf v.axes)
    (h : move ⟨v, []⟩ m = .ok t') :
    ∃ u w, t' = ⟨u, []⟩ ∧ u.Congruent w ∧ v.Gathers w (m.source v.shape) := by
  obtain ⟨edited, h, he⟩ := move_eq_ok h
  cases m with
  | expand shape =>
    obtain ⟨hsizes, rfl⟩ := expand_eq_ok he
    cases h
    refine ⟨_, _, rfl, .normalize rfl _, View.gathers_expand ?_⟩
    have hsizes : List.Forall₂ (fun (a : Axis) d => a.size = d ∨ a.size = 1) v.axes shape :=
      List.forall₂_map_left_iff.mp hsizes
    refine List.forall₂_iff_zip.mpr ⟨hm.length_eq, fun {a d} had => ?_⟩
    have hpos := hp a (List.of_mem_zip had).1
    exact (Axis.follows_expand_iff hpos (List.forall₂_zip hsizes had)).mpr
      (List.forall₂_zip hm had)
  | pad amounts =>
    obtain ⟨hl, ⟨hz, rfl⟩ | ⟨w, hw, rfl⟩⟩ := pad_eq_ok he
    · cases h
      exact ⟨v, v, rfl, ⟨rfl, fun _ _ => rfl⟩,
        View.gathers_refl fun idx hi => axiswise_padRule_zero hz hl hi⟩
    · cases h
      exact ⟨_, _, rfl, View.pad_congruent hw,
        View.gathers_axiswise (hm.imp fun a r => Axis.follows_padded_iff.mpr)⟩
  | shrink ranges =>
    obtain ⟨hr, w, hw, rfl⟩ := shrink_eq_ok he
    cases h
    have hr : List.Forall₂ (fun (a : Axis) r => r.1 < r.2 ∧ r.2 ≤ a.size) v.axes ranges :=
      List.forall₂_map_left_iff.mp hr
    exact ⟨_, _, rfl, View.shrink_congruent hw,
      View.gathers_axiswise (hr.imp fun a r => Axis.follows_shrink)⟩
  | _ => cases hm

/-- Every expand, pad or shrink of a masked view that its bounds do not stand in the way of reads
each index where the movement takes it from, and nothing where that is outside the view, unless the
index arithmetic overflows. Nothing is asked of the strides, the offset and the sizes of the view,
nor of bounds that the movement leaves alone. -/
theorem index_move_masked {shape : List Nat} {strides : List Int} {offset : Int}
    {bounds : List (Nat × Nat)} (hv : View.masked shape strides offset bounds = .ok v)
    (ht : ofViews [v] = .ok t) (hm : m.ClearOf v.axes) (h : t.move m = .ok t') {idx : List Nat}
    (hi : InRange idx t'.shape) :
    t'.index idx = (m.source t.shape idx).elim (.ok none) t.index ∨
      t'.index idx = .error .overflow ∨
      (m.source t.shape idx).elim (.ok none) t.index = .error .overflow := by
  cases ht
  have hp : ∀ a ∈ v.axes, 0 < a.size := by
    obtain ⟨hp, hshape, -⟩ := View.masked_eq_ok hv
    intro a ha
    exact hp _ (hshape ▸ List.mem_map_of_mem ha)
  obtain ⟨u, w, rfl, hu, hw⟩ := exists_gathers hp hm h
  obtain ⟨r, hr, hs⟩ := hw.index_yields hu hi
  refine UpTo.eq_or (.of_yields (index_single_yields hr)) ?_
  show Yields ((m.source v.shape idx).elim (.ok none) (index ⟨v, []⟩)) _
  cases hsource : m.source v.shape idx with
  | none =>
    rw [hsource] at hs
    rw [← hs.eq_of_ok rfl]
    exact .pure none
  | some i =>
    rw [hsource] at hs
    exact index_single_yields hs

/-- The bounds of the rows of a matrix reach beyond them. Rows are put in front of it and a column
behind, and both are read as they should be. -/
theorem index_move_masked_overlong :
    ∃ v t t', View.masked [4, 3] [3, 1] 0 [(1, 10), (0, 2)] = .ok v ∧ ofViews [v] = .ok t ∧
      t.move (.pad [(2, 0), (0, 1)]) = .ok t' ∧
      t'.index [3, 1] = .ok (some 4) ∧ t'.index [2, 1] = .ok none ∧ t'.index [3, 3] = .ok none := by
  have hclear : (Movement.pad [(2, 0), (0, 1)]).ClearOf [⟨4, 3, 1, 10⟩, ⟨3, 1, 0, 2⟩] := by
    refine .cons (fun i h h' => absurd h' (Nat.not_lt.mpr h)) (.cons (fun i h _ => ?_) .nil)
    have h : 3 ≤ i := h
    rw [Bool.eq_false_iff, Ne, Axis.admits_iff]
    dsimp only
    omega
  have h {idx : List Nat} (hi : InRange idx [6, 4]) :=
    @index_move_masked ⟨0, [⟨4, 3, 1, 10⟩, ⟨3, 1, 0, 2⟩]⟩ _ _ _ [4, 3] [3, 1] 0 [(1, 10), (0, 2)]
      rfl rfl hclear rfl idx hi
  refine ⟨_, _, _, rfl, rfl, rfl, ?_, ?_, ?_⟩
  · exact (@h [3, 1] (by decide)).resolve_right (by decide)
  · exact (@h [2, 1] (by decide)).resolve_right (by decide)
  · exact (@h [3, 3] (by decide)).resolve_right (by decide)

/-- Bounds that reach beyond an axis make padding readable. Three positions are put behind an axis
of four whose bounds reach up to the tenth position, and the first of them reads the element behind
the view. -/
theorem not_forall_index_move_masked :
    ¬ ∀ shape strides offset bounds v t t' m idx,
      View.masked shape strides offset bounds = .ok v → ofViews [v] = .ok t →
      (∃ shape, m = .expand shape) ∨ (∃ amounts, m = .pad amounts) ∨ (∃ r, m = .shrink r) →
      t.move m = .ok t' → InRange idx t'.shape →
      t'.index idx = (m.source t.shape idx).elim (.ok none) t.index ∨
        t'.index idx = .error .overflow ∨
        (m.source t.shape idx).elim (.ok none) t.index = .error .overflow := by
  intro h
  have h := h [4] [1] 0 [(1, 10)] ⟨0, [⟨4, 1, 1, 10⟩]⟩ ⟨⟨0, [⟨4, 1, 1, 10⟩]⟩, []⟩
    ⟨⟨0, [⟨7, 1, 1, 10⟩]⟩, []⟩ (.pad [(0, 3)]) [4] rfl rfl (.inr (.inl ⟨_, rfl⟩)) rfl (by decide)
  revert h
  decide

end Tracker

end TensorLoom
