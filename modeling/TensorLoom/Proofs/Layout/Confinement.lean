import TensorLoom.Proofs.Layout.Accepted
import TensorLoom.Proofs.Layout.Wrapping

/-!
# Trackers that end with their buffer

A buffer is read at an offset that the lowest view of a tracker computes. The views above are held
against the one below them only, so a tracker reads inside a buffer if its lowest view ends with it.
That view may be dropped later on, if it is row-major, and then the view above is the one that
addresses the buffer. So every view that has none but row-major views under it has to end with the
buffer (`Tracker.Confined`), and then the tracker still does when it has been reshaped or permuted
(`Tracker.Confined.move`).

Offsets are taken as the signed words that they leave, so nothing is asked of the sizes of a view.
-/

namespace TensorLoom

open Shape (InRange position indexAt)

namespace Shape

/-- A position that can be split leads to an index of the shape. -/
theorem unravel_inRange {p : Nat} {shape idx : List Nat} (h : unravel p shape = .ok idx) :
    InRange idx shape := by
  have hpos : ∀ {shape : List Nat} {r : List Nat × Nat}, splitPosition p shape = .ok r →
      ∀ d ∈ shape, 0 < d := by
    intro shape
    induction shape with
    | nil => exact fun _ d hd => nomatch hd
    | cons dim inner ih =>
      intro r h
      obtain ⟨⟨index, rest⟩, hinner, h⟩ := bind_eq_ok.mp h
      obtain ⟨outer, hdiv, -⟩ := bind_eq_ok.mp h
      refine List.forall_mem_cons.mpr ⟨Nat.pos_of_ne_zero fun hzero => ?_, ih hinner⟩
      rw [hzero, Word.div] at hdiv
      cases hdiv
  have hpos : ∀ d ∈ shape, 0 < d := by
    cases hsplit : splitPosition p shape with
    | error e =>
      rw [unravel, hsplit] at h
      cases h
    | ok r => exact hpos hsplit
  rw [unravel_eq p hpos] at h
  cases h
  exact indexAt_inRange p hpos

end Shape

theorem Signed.wrap_natCast_le (n : Nat) : wrap n ≤ n := by
  have hmod : (n : Int) % (Word.bound : Int) ≤ n := Int.ofNat_le.mpr (Nat.mod_le n Word.bound)
  unfold wrap Int.bmod
  dsimp only
  split <;> omega

namespace View

variable {v w : View} {bound : Nat} {idx : List Nat}

/-- No offset that a view reads is beyond a buffer of `bound` elements. -/
def EndsBy (v : View) (bound : Nat) : Prop :=
  ∀ idx, InRange idx v.shape → ∀ o, v.read idx = some o → Signed.wrap o < bound

theorem EndsBy.index_lt (h : v.EndsBy bound) (hi : InRange idx v.shape) {o : Int}
    (ho : v.index idx = .ok (some o)) : o < bound := by
  have hread := (index_yields_wrap hi).eq_of_ok ho
  obtain ⟨n, hn, rfl⟩ := Option.map_eq_some_iff.mp hread.symm
  exact h idx hi n hn

theorem Gathers.endsBy {source : List Nat → Option (List Nat)} (h : v.Gathers w source)
    (hv : v.EndsBy bound) : w.EndsBy bound := by
  intro idx hi o ho
  rw [h.read idx hi] at ho
  obtain ⟨i, hs, ho⟩ := Option.bind_eq_some_iff.mp ho
  exact hv i (h.inRange idx hi i hs) o ho

/-- A row-major view ends where the number of its elements says. -/
theorem endsBy_iff_of_isContiguous (h : v.isContiguous = .ok true) (hp : ∀ d ∈ v.shape, 0 < d) :
    v.EndsBy bound ↔ ∀ p < v.shape.prod, Signed.wrap p < bound := by
  constructor
  · intro hv p hlt
    have hi := Shape.indexAt_inRange p hp
    obtain ⟨o, ho, hwrap⟩ := Option.map_eq_some_iff.mp (wrap_read_of_isContiguous h hi)
    rw [Shape.position_indexAt hlt] at hwrap
    exact hwrap ▸ hv _ hi o ho
  · intro hv idx hi o ho
    have hwrap := wrap_read_of_isContiguous h hi
    rw [ho, Option.map_some, Option.some.injEq] at hwrap
    rw [hwrap]
    exact hv _ (Shape.position_lt hi)

/-- The row-major view of a shape with as many elements ends where a row-major view does. -/
theorem EndsBy.contiguous {shape : List Nat} (h : v.EndsBy bound) (hc : v.isContiguous = .ok true)
    (hsize : v.shape.prod = shape.prod) (hw : View.contiguous shape = .ok w) : w.EndsBy bound := by
  obtain ⟨hp, rfl, -, hc'⟩ := contiguous_eq_ok hw
  have hv : ∀ d ∈ v.shape, 0 < d :=
    List.prod_pos_iff_forall_pos_nat.mp (hsize ▸ Shape.prod_pos hp)
  rw [endsBy_iff_of_isContiguous hc' hp, ← hsize]
  exact (endsBy_iff_of_isContiguous hc hv).mp h

theorem Within.endsBy {size : Nat} (h : v.Within size) (hle : size ≤ bound) :
    v.EndsBy bound := by
  intro idx hi o ho
  obtain ⟨hnonneg, hlt⟩ := h.inside idx hi o ho
  obtain ⟨n, rfl⟩ := Int.eq_ofNat_of_zero_le hnonneg
  have := Signed.wrap_natCast_le n
  omega

end View

namespace Tracker

variable {t t' : Tracker} {bound : Nat} {idx : List Nat}

/-- Each view of a stack that has none but row-major views under it ends with the buffer. -/
def ConfinedFrom (bound : Nat) (top : View) : List View → Prop
  | [] => top.EndsBy bound
  | next :: below =>
    ((∀ v ∈ next :: below, v.isContiguous = .ok true) → top.EndsBy bound) ∧
      ConfinedFrom bound next below

/-- Each view of a tracker that has none but row-major views under it ends with a buffer of `bound`
elements. -/
def Confined (t : Tracker) (bound : Nat) : Prop := ConfinedFrom bound t.top t.below

namespace ConfinedFrom

variable {top top' next : View} {below : List View}

/-- Whatever views there are above, the lowest one decides what is read. -/
theorem index_lt {p : Nat} (h : ConfinedFrom bound top below) (hi : InRange idx top.shape)
    (hp : indexFrom idx top below = .ok (some p)) : p < bound := by
  induction below generalizing top idx with
  | nil =>
    obtain ⟨o, ho, hp⟩ := bind_eq_ok.mp hp
    cases o with
    | none => cases hp
    | some o =>
      obtain rfl := position_eq_some.mp (pure_eq_ok.mp hp)
      exact Int.ofNat_lt.mp (View.EndsBy.index_lt h hi ho)
  | cons next below ih =>
    obtain ⟨o, -, hp⟩ := bind_eq_ok.mp hp
    cases o with
    | none => cases hp
    | some o =>
      dsimp only at hp
      cases hflat : Tracker.position o with
      | none =>
        rw [hflat] at hp
        cases hp
      | some flat =>
        rw [hflat] at hp
        obtain ⟨size, -, hp⟩ := bind_eq_ok.mp hp
        split at hp
        · obtain ⟨i, hunravel, hp⟩ := bind_eq_ok.mp hp
          exact ih h.2 (Shape.unravel_inRange hunravel) hp
        · cases hp

/-- Another view that ends where the top does can take its place. -/
theorem replace (h : ConfinedFrom bound top below) (h' : top.EndsBy bound → top'.EndsBy bound) :
    ConfinedFrom bound top' below := by
  cases below with
  | nil => exact h' h
  | cons next below => exact ⟨fun hc => h' (h.1 hc), h.2⟩

/-- A row-major view under the top can be dropped: the others under the top are the same. -/
theorem drop (h : ConfinedFrom bound top (next :: below)) (hc : next.isContiguous = .ok true) :
    ConfinedFrom bound top below := by
  cases below with
  | nil => exact h.1 (List.forall_mem_singleton.mpr hc)
  | cons next' below => exact ⟨fun hrest => h.1 (List.forall_mem_cons.mpr ⟨hc, hrest⟩), h.2.2⟩

theorem collapse (h : ConfinedFrom bound top below) (hc : collapseFrom top below = .ok t) :
    t.Confined bound := by
  induction below generalizing top with
  | nil => exact pure_eq_ok.mp hc ▸ h
  | cons next below ih =>
    obtain ⟨flat, hflat, hc⟩ := bind_eq_ok.mp hc
    split at hc
    · rename_i hrow
      exact ih (h.drop (hrow ▸ hflat)) hc
    obtain ⟨flat, -, hc⟩ := bind_eq_ok.mp hc
    split at hc
    · exact ih h.2 hc
    · exact pure_eq_ok.mp hc ▸ h

end ConfinedFrom

namespace Confined

/-- A tracker that ends with its buffer reads inside it. -/
theorem index_lt {p : Nat} (h : t.Confined bound) (hi : InRange idx t.shape)
    (hp : t.index idx = .ok (some p)) : p < bound :=
  ConfinedFrom.index_lt h hi hp

theorem reshape {shape : List Nat} (h : t.Confined bound)
    (hv : (Movement.reshape shape).Valid t.shape) (ht : t.reshape shape = .ok t') :
    t'.Confined bound := by
  obtain ⟨hpos, hprod⟩ := hv
  cases (reshape_eq_ok ht).2.2 with
  | same _ => exact h
  | row hflat hrow => exact h.replace fun htop => htop.contiguous hflat hprod hrow
  | edited htop =>
    have hpos : ∀ d ∈ t.shape, 0 < d :=
      List.prod_pos_iff_forall_pos_nat.mp (hprod ▸ Shape.prod_pos hpos)
    exact h.replace (View.gathers_of_reshape? hpos htop).endsBy
  | pushed hflat _ =>
    -- the old top is not row-major, so nothing is asked of the view that is put on it
    refine ⟨fun hc => ?_, h⟩
    rw [hc t.top List.mem_cons_self] at hflat
    cases hflat

theorem permute {axes : List Nat} (h : t.Confined bound) (ht : t.permute axes = .ok t') :
    t'.Confined bound := by
  obtain ⟨hperm, rfl⟩ := permute_eq_ok ht
  exact h.replace (View.gathers_permute hperm).endsBy

/-- A tracker that is reshaped or permuted still ends with its buffer. -/
theorem move {m : Movement} (h : t.Confined bound) (hm : m.Keeps) (hv : m.Valid t.shape)
    (ht : t.move m = .ok t') : t'.Confined bound := by
  obtain ⟨moved, hc, hmoved⟩ := move_eq_ok ht
  cases hm with
  | reshape shape => exact (h.reshape hv hmoved).collapse hc
  | permute axes => exact (h.permute hmoved).collapse hc

end Confined

/-! ## Trackers built by movements -/

/-- Views that stay inside those below them stay inside the buffer, if these are row-major. -/
theorem WithinFrom.room_le {top : View} {below : List View} {size : Nat}
    (h : WithinFrom size top below) (hc : ∀ v ∈ below, v.isContiguous = .ok true) :
    room size below ≤ size := by
  induction below generalizing top with
  | nil => exact Nat.le_refl size
  | cons next below ih =>
    obtain ⟨hnext, hbelow⟩ := List.forall_mem_cons.mp hc
    have hrow : next.isRow = true :=
      ((View.isContiguous_yields h.2.top.fits).eq_of_ok hnext).symm
    exact (View.prod_le_of_isRow h.2.top hrow).trans (ih h.2 hbelow)

theorem WithinFrom.confined {top : View} {below : List View} {size : Nat}
    (h : WithinFrom size top below) (hle : size ≤ bound) : ConfinedFrom bound top below := by
  induction below generalizing top with
  | nil => exact View.Within.endsBy h hle
  | cons next below ih =>
    exact ⟨fun hc => h.1.endsBy ((h.room_le hc).trans hle), ih h.2⟩

/-- A tracker whose views all stay inside the ones below ends with its buffer. -/
theorem Within.confined {size : Nat} (h : t.Within size) (hle : size ≤ bound) :
    t.Confined bound :=
  WithinFrom.confined h hle

/-- A row-major tracker ends with a buffer that has as many elements. -/
theorem confined_ofShape {shape : List Nat} (h : Tracker.ofShape shape = .ok t)
    (hb : shape.prod ≤ bound) : t.Confined bound := by
  obtain ⟨v, hv, rfl⟩ := ofShape_eq_ok h
  obtain ⟨hp, rfl, -, hc⟩ := View.contiguous_eq_ok hv
  refine (View.endsBy_iff_of_isContiguous hc hp).mpr fun p hlt => ?_
  have := Signed.wrap_natCast_le p
  omega

end Tracker

end TensorLoom
