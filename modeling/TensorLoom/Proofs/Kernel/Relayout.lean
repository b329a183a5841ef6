import TensorLoom.Proofs.Kernel.Rearrangement

/-!
# Layouts that compute the same

A kernel in another layout goes through the same iterations: an index of the new iteration space
stands for one of the old, each for another one, and every operand reads at the one what it read at
the other (`Kernel.RelabelsBy`). Permutations of the axes do so, and splits of an axis
(`Kernel.Sound.permuted`, `Kernel.Sound.splitAxis`), because the index that an index stands for does
not depend on which axes an operand spans.
-/

namespace TensorLoom

open Shape (InRange indices)

namespace Kernel

/-- A sound kernel whose operands are those of another one in another layout, each shape changed by
the same function. -/
structure Relaid (k k' : Kernel) (f : List Nat → List Nat) : Prop where
  sound : k'.Sound
  ast : k'.ast = k.ast
  space : k'.space = f k.space
  operands : List.Forall₂ (fun o o' => o'.buffer = o.buffer ∧ o'.shape = f o.shape ∧
    o'.tracker.readings.Perm o.tracker.readings) k.operands k'.operands

/-- The iterations of one kernel are those of another, and so are those that write the output. The
operands read at an index what they read at the one it stands for. -/
structure RelabelsBy (k k' : Kernel) (φ : List Nat → List Nat) : Prop where
  ast : k'.ast = k.ast
  space : ((indices k'.space).map φ).Perm (indices k.space)
  result : ((indices k'.output.shape).map φ).Perm (indices k.output.shape)
  operands : List.Forall₂ (fun o o' => o'.buffer = o.buffer ∧ ∀ idx, InRange idx k'.space →
    o'.tracker.read (broadcastIndex idx o'.shape) = o.tracker.read (broadcastIndex (φ idx) o.shape))
    k.operands k'.operands

/-- A kernel goes through the same iterations as another, in some other order. -/
def Relabels (k k' : Kernel) : Prop := ∃ φ, k.RelabelsBy k' φ

variable {k k₁ k' : Kernel} {move : List Nat → Movement}

theorem Relaid.trans {f g : List Nat → List Nat} (h : k.Relaid k₁ f) (h' : k₁.Relaid k' g) :
    k.Relaid k' (g ∘ f) where
  sound := h'.sound
  ast := h'.ast.trans h.ast
  space := by rw [h'.space, h.space]; rfl
  operands := by
    refine forall₂_trans ?_ h.operands h'.operands
    rintro o o₁ o' ⟨hb, hs, hr⟩ ⟨hb', hs', hr'⟩
    exact ⟨hb'.trans hb, by rw [hs', hs]; rfl, hr'.trans hr⟩

theorem RelabelsBy.inRange {φ : List Nat → List Nat} (h : k.RelabelsBy k' φ) {idx : List Nat}
    (hi : InRange idx k'.space) : InRange (φ idx) k.space :=
  Shape.mem_indices.mp
    (h.space.mem_iff.mp (List.mem_map_of_mem (Shape.mem_indices.mpr hi)))

theorem Relabels.refl (k : Kernel) : k.Relabels k := by
  refine ⟨id, rfl, ?_, ?_, ?_⟩
  · rw [List.map_id]
  · rw [List.map_id]
  · exact List.forall₂_same.mpr fun _ _ => ⟨rfl, fun _ _ => rfl⟩

theorem RelabelsBy.trans {φ ψ : List Nat → List Nat} (h : k.RelabelsBy k₁ φ)
    (h' : k₁.RelabelsBy k' ψ) : k.RelabelsBy k' (φ ∘ ψ) := by
  refine ⟨h'.ast.trans h.ast, ?_, ?_, ?_⟩
  · rw [← List.map_map]
    exact (h'.space.map φ).trans h.space
  · rw [← List.map_map]
    exact (h'.result.map φ).trans h.result
  · refine forall₂_trans ?_ h.operands h'.operands
    rintro o o₁ o' ⟨hb, hr⟩ ⟨hb', hr'⟩
    exact ⟨hb'.trans hb, fun idx hidx => (hr' idx hidx).trans (hr _ (h'.inRange hidx))⟩

theorem Relabels.trans (h : k.Relabels k₁) (h' : k₁.Relabels k') : k.Relabels k' :=
  let ⟨_, h⟩ := h
  let ⟨_, h'⟩ := h'
  ⟨_, h.trans h'⟩

theorem Sound.relaid {f : List Nat → List Nat} {len : Nat} {origin : Nat → Nat}
    {size : Nat → Nat → Nat} (hk : k.Sound) (h : k.Rearranges k' move)
    (hf : AxisMap f k.rank len origin size)
    (hmove : ∀ o ∈ k.operands, (move o.shape).Keeps ∧
      (move o.shape).resultShape o.shape = f o.shape)
    (hu : k'.unrolled ≤ len) : k.Relaid k' f := by
  obtain ⟨hsound, hspace⟩ := hk.rearranged h hf hmove hu
  refine ⟨hsound, h.ast, hspace, ?_⟩
  refine List.forall₂_iff_get.mpr ⟨h.operands.length_eq, fun i hi hi' => ?_⟩
  have hm := (List.forall₂_iff_get.mp h.operands).2 i hi hi'
  have ho := List.getElem_mem hi
  exact ⟨hm.buffer, hm.shape.trans (hmove _ ho).2,
    hm.perm_readings (hmove _ ho).1 (hk.positive ho)⟩

/-- If the index that an index stands for is the same for every operand, the iterations are. -/
theorem Relaid.relabels {f φ : List Nat → List Nat} (h : k.Relaid k' f) (hk : k.Sound)
    (hr : k.Rearranges k' move) {m : Movement} (hm : m.Keeps) (hv : m.Valid k.space)
    (hspace : m.resultShape k.space = f k.space)
    (hφ : ∀ idx, InRange idx (f k.space) → m.relabel k.space idx = φ idx)
    (hkeeps : ∀ o ∈ k.operands, (move o.shape).Keeps)
    (hsame : ∀ o ∈ k.operands, (move o.shape).Valid o.shape → ∀ idx,
      InRange idx ((move o.shape).resultShape o.shape) →
        (move o.shape).relabel o.shape idx = φ idx)
    (hbroadcast : ∀ o ∈ k.operands, ∀ idx, InRange idx k'.space →
      φ (broadcastIndex idx (f o.shape)) = broadcastIndex (φ idx) o.shape) : k.RelabelsBy k' φ := by
  refine ⟨hr.ast, ?_, ?_, ?_⟩
  · have hperm := Movement.perm_indices hm hv hk.positive_space
    rw [hspace] at hperm
    rwa [List.map_congr_left fun idx hi => hφ idx (Shape.mem_indices.mp hi), ← h.space] at hperm
  · have ho := mem_output k
    have hmv := hr.output
    have hperm := Movement.perm_indices (hkeeps _ ho) hmv.valid (hk.positive ho)
    rwa [List.map_congr_left fun idx hi => hsame _ ho hmv.valid idx (Shape.mem_indices.mp hi),
      ← hmv.shape] at hperm
  · refine List.forall₂_iff_get.mpr ⟨h.operands.length_eq, fun i hi hi' => ?_⟩
    have hmv := (List.forall₂_iff_get.mp hr.operands).2 i hi hi'
    obtain ⟨hb, hs, -⟩ := (List.forall₂_iff_get.mp h.operands).2 i hi hi'
    have ho := List.getElem_mem hi
    refine ⟨hb, fun idx hidx => ?_⟩
    have hin := h.sound.index_inRange (List.getElem_mem hi') hidx
    rw [List.get_eq_getElem, List.get_eq_getElem] at hmv hs ⊢
    rw [hmv.read_relabel (hkeeps _ ho) hin, ← hbroadcast _ ho idx hidx, ← hs]
    rw [hmv.shape] at hin
    rw [hmv.shape, hsame _ ho hmv.valid _ hin]

/-! ## Permutations of the axes -/

theorem resultShape_range {s : List Nat} {rank : Nat} (hs : s.length = rank) :
    (Movement.permute (List.range rank)).resultShape s = s := by
  subst hs
  exact (View.eq_map_range_getD s 0).symm

theorem getD_relabel_permute {axes full idx : List Nat} {axis : Nat} (ha : axis < full.length) :
    ((Movement.permute axes).relabel full idx).getD axis 0 = idx.getD (axes.idxOf axis) 0 := by
  simp [Movement.relabel_permute, ha]

/-- Sending an index to a smaller shape may wait until the axes are permuted. -/
theorem relabel_permute_broadcast {axes full shape idx : List Nat}
    (h : axes.Perm (List.range full.length)) (hs : shape.length = full.length)
    (hi : idx.length = full.length) :
    (Movement.permute axes).relabel full
        (broadcastIndex idx ((Movement.permute axes).resultShape shape)) =
      broadcastIndex ((Movement.permute axes).relabel full idx) shape := by
  have haxes : axes.length = full.length := by simpa using h.length_eq
  have hmap := axisMap_permute h
  have hl : ((Movement.permute axes).relabel full idx).length = shape.length := by
    simp [Movement.relabel_permute, hs]
  refine Shape.index_ext ?_ fun axis ha => ?_
  · rw [Broadcasts.length_index hl]
    simp [Movement.relabel_permute, hs]
  have ha : axis < full.length := by simpa [Movement.relabel_permute] using ha
  have hpos := Movement.idxOf_lt_of_perm h ha
  rw [getD_relabel_permute ha, Broadcasts.getD_index (hi.trans (hmap.length_eq _ hs).symm),
    Broadcasts.getD_index hl, getD_relabel_permute ha,
    hmap.getD_eq _ hs _ (by rwa [← haxes]), List.getD_eq_getElem _ _ hpos, List.getElem_idxOf]

/-- The order of all the axes, if those not unrolled are permuted. -/
def axisOrder (k : Kernel) (order : List Nat) : List Nat :=
  order ++ List.range' (k.rank - k.unrolled) (k.rank - (k.rank - k.unrolled))

theorem range_append_range' {m n : Nat} (h : m ≤ n) :
    List.range m ++ List.range' m (n - m) = List.range n := by
  obtain ⟨d, rfl⟩ := Nat.exists_eq_add_of_le h
  rw [Nat.add_sub_cancel_left, List.range_add, List.range'_eq_map_range]

theorem perm_axisOrder {order : List Nat} (h : order.Perm (List.range (k.rank - k.unrolled))) :
    (k.axisOrder order).Perm (List.range k.rank) := by
  refine (h.append_right _).trans (List.Perm.of_eq ?_)
  exact range_append_range' (Nat.sub_le _ _)

/-- The unrolled axes stand behind the others in any order of these. -/
theorem pairwise_axisOrder {order : List Nat} (ho : order.Perm (List.range (k.rank - k.unrolled)))
    {P : Nat → Prop} (h : order.Pairwise fun a b => P a → P b → a < b) :
    (k.axisOrder order).Pairwise fun a b => P a → P b → a < b := by
  refine List.pairwise_append.mpr ⟨h, (List.pairwise_lt_range' ..).imp fun hab _ _ => hab, ?_⟩
  intro a ha b hb _ _
  have ha := List.mem_range.mp (ho.mem_iff.mp ha)
  have hb := (List.mem_range'_1.mp hb).1
  omega

theorem axisOrder_range (k : Kernel) :
    k.axisOrder (List.range (k.rank - k.unrolled)) = List.range k.rank :=
  range_append_range' (Nat.sub_le _ _)

/-- Every operand is moved to another order of the axes. -/
theorem Sound.permuteAxes {order : List Nat} (hk : k.Sound)
    (ho : order.Perm (List.range (k.rank - k.unrolled)))
    (h : k.moveOperands (fun _ => pure (.permute (k.axisOrder order))) = .ok k') :
    k.Relaid k' (Movement.permute (k.axisOrder order)).resultShape ∧
      k'.unrolled = k.unrolled ∧
      k.RelabelsBy k' ((Movement.permute (k.axisOrder order)).relabel k.space) := by
  have hperm := perm_axisOrder ho
  have hfits : ∀ o ∈ k.operands,
      ∀ d ∈ (Movement.permute (k.axisOrder order)).resultShape o.shape, d < Word.half := by
    intro o ho d hd
    rw [Movement.resultShape, List.mem_map] at hd
    obtain ⟨i, hi, rfl⟩ := hd
    have hi : i < o.shape.length := by
      rw [hk.aligned o ho]
      exact List.mem_range.mp (hperm.mem_iff.mp hi)
    rw [List.getD_eq_getElem _ _ hi]
    exact hk.fits ho _ (List.getElem_mem hi)
  obtain ⟨hr, hu⟩ := hk.moveOperands (fun _ => .permute (k.axisOrder order))
    (fun _ _ m hm => (pure_eq_ok.mp hm).symm) (fun o ho _ => hfits o ho) h
  have hrelaid := hk.relaid hr (axisMap_permute hperm) (fun _ _ => ⟨.permute _, rfl⟩)
    (hu ▸ hk.unrolled_le)
  rw [← hk.length_space] at hperm
  refine ⟨hrelaid, hu, hrelaid.relabels hk hr (.permute (k.axisOrder order)) hperm rfl
    (fun _ _ => rfl) (fun _ _ => .permute _) (fun o ho _ idx _ => ?_) fun o ho idx hidx => ?_⟩
  · rw [Movement.relabel_permute, Movement.relabel_permute, hk.length_space, hk.aligned o ho]
  · refine relabel_permute_broadcast hperm
      ((hk.aligned o ho).trans hk.length_space.symm) ?_
    rw [hidx.length_eq, hrelaid.space, (axisMap_permute hperm).length_eq _ rfl]

/-- Nothing is moved if the axes are to stay where they are, else every operand is. -/
theorem Sound.permuted {order : List Nat} (hk : k.Sound)
    (ho : order.Perm (List.range (k.rank - k.unrolled)))
    (h : order = List.range (k.rank - k.unrolled) ∧ k' = k ∨
      k.moveOperands (fun _ => pure (.permute (k.axisOrder order))) = .ok k') :
    k.Relaid k' (Movement.permute (k.axisOrder order)).resultShape ∧
      k'.unrolled = k.unrolled ∧ k.Relabels k' := by
  rcases h with ⟨rfl, rfl⟩ | h
  · rw [axisOrder_range]
    refine ⟨⟨hk, rfl, (resultShape_range hk.length_space).symm, ?_⟩, rfl, .refl _⟩
    exact List.forall₂_same.mpr fun o ho =>
      ⟨rfl, (resultShape_range (hk.aligned o ho)).symm, .refl _⟩
  · obtain ⟨hrelaid, hu, hrelabels⟩ := hk.permuteAxes ho h
    exact ⟨hrelaid, hu, _, hrelabels⟩

/-! ## Splits of an axis -/

open Intervention (parts splitShape split_eq_ok axisMap_split length_splitShape
  getD_splitShape_of_lt getD_splitShape_self getD_splitShape_succ getD_splitShape_of_gt)

/-- The index that an index with a split axis stands for; `inner` is the size of the inner part. -/
def mergeIndex (axis inner : Nat) (idx : List Nat) : List Nat :=
  idx.take axis ++ (idx.getD axis 0 * inner + idx.getD (axis + 1) 0) :: idx.drop (axis + 2)

theorem length_mergeIndex {axis inner rank : Nat} {idx : List Nat} (hi : idx.length = rank + 1)
    (ha : axis < rank) : (mergeIndex axis inner idx).length = rank := by
  simp only [mergeIndex, List.length_append, List.length_take, List.length_cons, List.length_drop]
  omega

theorem getD_mergeIndex_of_lt {axis p : Nat} (inner : Nat) {idx : List Nat}
    (hi : axis < idx.length) (hp : p < axis) :
    (mergeIndex axis inner idx).getD p 0 = idx.getD p 0 := by
  have ht : p < (idx.take axis).length := by rw [List.length_take]; omega
  rw [mergeIndex, List.getD_append _ _ _ _ ht, List.getD_eq_getElem?_getD,
    List.getElem?_take_of_lt hp, List.getD_eq_getElem?_getD]

theorem getD_mergeIndex_self {axis : Nat} (inner : Nat) {idx : List Nat} (hi : axis < idx.length) :
    (mergeIndex axis inner idx).getD axis 0 =
      idx.getD axis 0 * inner + idx.getD (axis + 1) 0 := by
  have ht : (idx.take axis).length = axis := by rw [List.length_take]; omega
  rw [mergeIndex, List.getD_append_right _ _ _ _ (Nat.le_of_eq ht), ht, Nat.sub_self]
  rfl

theorem getD_mergeIndex_of_gt {axis p : Nat} (inner : Nat) {idx : List Nat}
    (hi : axis < idx.length) (hp : axis < p) :
    (mergeIndex axis inner idx).getD p 0 = idx.getD (p + 1) 0 := by
  have ht : (idx.take axis).length = axis := by rw [List.length_take]; omega
  rw [mergeIndex, List.getD_append_right _ _ _ _ (by omega), ht,
    show p - axis = p - axis - 1 + 1 by omega, List.getD_cons_succ, List.getD_eq_getElem?_getD,
    List.getElem?_drop, List.getD_eq_getElem?_getD, show axis + 2 + (p - axis - 1) = p + 1 by omega]

theorem eq_take_append_drop {shape : List Nat} {axis : Nat} (h : axis < shape.length) :
    shape = shape.take axis ++ shape.getD axis 1 :: shape.drop (axis + 1) := by
  rw [List.getD_eq_getElem _ _ h, ← List.drop_eq_getElem_cons h, List.take_append_drop]

theorem parts_one (amount : Nat) : parts amount 1 = (1, 1) := rfl

theorem mem_splitShape {shape : List Nat} {axis amount d : Nat}
    (h : d ∈ splitShape axis amount shape) :
    d ∈ shape ∨ d = (parts amount (shape.getD axis 1)).1 ∨
      d = (parts amount (shape.getD axis 1)).2 := by
  rw [splitShape] at h
  simp only [List.mem_append, List.mem_cons] at h
  rcases h with h | h | h | h
  · exact .inl (List.mem_of_mem_take h)
  · exact .inr (.inl h)
  · exact .inr (.inr h)
  · exact .inl (List.mem_of_mem_drop h)

/-- A split that keeps the elements splits the axis evenly. -/
theorem parts_mul {shape : List Nat} {axis amount : Nat} (ha : axis < shape.length)
    (hp : ∀ d ∈ shape, 0 < d)
    (hv : (Movement.reshape (splitShape axis amount shape)).Valid shape) :
    (parts amount (shape.getD axis 1)).1 * (parts amount (shape.getD axis 1)).2 =
      shape.getD axis 1 := by
  have hprod := hv.2
  have hpos := Shape.prod_pos hp
  rw [eq_take_append_drop ha, List.prod_append, List.prod_cons] at hpos
  conv at hprod => lhs; rw [eq_take_append_drop ha]
  rw [splitShape, List.prod_append, List.prod_append, List.prod_cons, List.prod_cons,
    List.prod_cons, ← Nat.mul_assoc (parts _ _).1] at hprod
  have hpre : 0 < (shape.take axis).prod := Nat.pos_of_mul_pos_right hpos
  have hpost : 0 < (shape.drop (axis + 1)).prod :=
    Nat.pos_of_mul_pos_left (Nat.pos_of_mul_pos_left hpos)
  exact (Nat.eq_of_mul_eq_mul_right hpost (Nat.eq_of_mul_eq_mul_left hpre hprod)).symm

theorem fits_split {shape : List Nat} {axis amount bound : Nat} (ha : axis < shape.length)
    (hp : ∀ d ∈ shape, 0 < d) (hfits : ∀ d ∈ shape, d < bound)
    (hv : (Movement.reshape (splitShape axis amount shape)).Valid shape) :
    ∀ d ∈ splitShape axis amount shape, d < bound := by
  intro d hd
  have hpos := Shape.positive_iff_getD.mp hp axis
  have hfit : shape.getD axis 1 < bound := by
    rw [List.getD_eq_getElem _ _ ha]
    exact hfits _ (List.getElem_mem ha)
  rw [← parts_mul ha hp hv] at hpos hfit
  rcases mem_splitShape hd with hd | rfl | rfl
  · exact hfits d hd
  · exact Nat.lt_of_le_of_lt (Nat.le_mul_of_pos_right _ (Nat.pos_of_mul_pos_left hpos)) hfit
  · exact Nat.lt_of_le_of_lt (Nat.le_mul_of_pos_left _ (Nat.pos_of_mul_pos_right hpos)) hfit

theorem valid_split {shape : List Nat} {axis amount : Nat} (ha : axis < shape.length)
    (hp : ∀ d ∈ shape, 0 < d)
    (hmul : (parts amount (shape.getD axis 1)).1 * (parts amount (shape.getD axis 1)).2 =
      shape.getD axis 1) : (Movement.reshape (splitShape axis amount shape)).Valid shape := by
  have hpos := Shape.positive_iff_getD.mp hp axis
  rw [← hmul] at hpos
  constructor
  · intro d hd
    rcases mem_splitShape hd with hd | rfl | rfl
    · exact hp d hd
    · exact Nat.pos_of_mul_pos_right hpos
    · exact Nat.pos_of_mul_pos_left hpos
  · conv_lhs => rw [eq_take_append_drop ha, ← hmul]
    rw [splitShape, List.prod_append, List.prod_append, List.prod_cons, List.prod_cons,
      List.prod_cons, Nat.mul_assoc (parts _ _).1]

/-- The elements of a split axis are numbered by the outer part times the size of the inner part,
plus the inner part. -/
theorem relabel_split {shape idx : List Nat} {axis amount : Nat} (ha : axis < shape.length)
    (hmul : (parts amount (shape.getD axis 1)).1 * (parts amount (shape.getD axis 1)).2 =
      shape.getD axis 1) (hi : InRange idx (splitShape axis amount shape)) :
    (Movement.reshape (splitShape axis amount shape)).relabel shape idx =
      mergeIndex axis (parts amount (shape.getD axis 1)).2 idx := by
  rw [Movement.relabel_reshape]
  have hshape := eq_take_append_drop ha
  have hlen : (shape.take axis).length = axis := by rw [List.length_take]; omega
  unfold splitShape at hi ⊢
  dsimp only at hi ⊢
  generalize parts amount (shape.getD axis 1) = uv at *
  generalize shape.getD axis 1 = d at *
  generalize shape.take axis = pre at *
  generalize shape.drop (axis + 1) = post at *
  subst hshape
  obtain ⟨u, v⟩ := uv
  change u * v = d at hmul
  obtain ⟨ip, rest, rfl, hip, hrest⟩ := Shape.inRange_append_iff.mp hi
  cases hrest with
  | @cons i _ _ _ hiu hrest =>
    cases hrest with
    | @cons j _ is _ hjv his =>
      have hlp : ip.length = axis := hip.length_eq.trans hlen
      have hmerge : mergeIndex axis v (ip ++ i :: j :: is) = ip ++ (i * v + j) :: is := by
        subst hlp
        simp [mergeIndex]
      have hlt : i * v + j < d := by
        have hle : (i + 1) * v ≤ u * v := Nat.mul_le_mul_right v (Nat.succ_le_of_lt hiu)
        rw [Nat.succ_mul, hmul] at hle
        exact Nat.lt_of_lt_of_le (Nat.add_lt_add_left hjv _) hle
      have hin : InRange (ip ++ (i * v + j) :: is) (pre ++ d :: post) :=
        Shape.inRange_append hip (.cons hlt his)
      rw [hmerge, ← Shape.indexAt_position hin, Shape.position_append hip,
        Shape.position_append hip]
      simp only [Shape.position, List.prod_cons, ← hmul]
      congr 1
      ring

/-- Sending an index to a smaller shape may wait until the split axis is put together. -/
theorem mergeIndex_broadcast {shape full idx : List Nat} {axis amount : Nat}
    (hb : Broadcasts shape full) (ha : axis < full.length)
    (hi : InRange idx (splitShape axis amount full)) :
    mergeIndex axis (parts amount (full.getD axis 1)).2
        (broadcastIndex idx (splitShape axis amount shape)) =
      broadcastIndex (mergeIndex axis (parts amount (full.getD axis 1)).2 idx) shape := by
  have has : axis < shape.length := hb.rank ▸ ha
  have hl : idx.length = full.length + 1 := hi.length_eq.trans (length_splitShape amount ha)
  have hls : idx.length = (splitShape axis amount shape).length := by
    rw [length_splitShape amount has, hl, hb.rank]
  have hbl : (broadcastIndex idx (splitShape axis amount shape)).length = full.length + 1 := by
    rw [Broadcasts.length_index hls, ← hls, hl]
  have hml : (mergeIndex axis (parts amount (full.getD axis 1)).2 idx).length = full.length :=
    length_mergeIndex hl ha
  refine Shape.index_ext ?_ fun p hp => ?_
  · rw [Broadcasts.length_index (hml.trans hb.rank.symm), hb.rank]
    exact length_mergeIndex hbl ha
  rw [length_mergeIndex hbl ha] at hp
  rw [Broadcasts.getD_index (hml.trans hb.rank.symm)]
  rcases Nat.lt_trichotomy p axis with hlt | rfl | hgt
  · rw [getD_mergeIndex_of_lt _ (by omega) hlt, getD_mergeIndex_of_lt _ (by omega) hlt,
      Broadcasts.getD_index hls, getD_splitShape_of_lt amount has hlt]
  · rw [getD_mergeIndex_self _ (by omega), getD_mergeIndex_self _ (by omega),
      Broadcasts.getD_index hls, Broadcasts.getD_index hls, getD_splitShape_self amount has,
      getD_splitShape_succ amount has]
    by_cases h1 : shape.getD p 1 = 1
    · rw [h1, parts_one, if_pos rfl, if_pos rfl, if_pos rfl, Nat.zero_mul]
    · -- an entry on a part of size 1 is 0 in any case
      rw [if_neg h1, (hb.spans p).resolve_left h1]
      obtain ⟨-, hlt⟩ := Shape.inRange_iff_getD.mp hi
      have hi₁ := hlt p
      have hi₂ := hlt (p + 1)
      rw [getD_splitShape_self amount ha] at hi₁
      rw [getD_splitShape_succ amount ha] at hi₂
      have houter' : (if (parts amount (full.getD p 1)).1 = 1 then 0 else idx.getD p 0) =
          idx.getD p 0 := by
        split <;> omega
      have hinner' : (if (parts amount (full.getD p 1)).2 = 1 then 0 else idx.getD (p + 1) 0) =
          idx.getD (p + 1) 0 := by
        split <;> omega
      rw [houter', hinner']
  · rw [getD_mergeIndex_of_gt _ (by omega) hgt, getD_mergeIndex_of_gt _ (by omega) hgt,
      Broadcasts.getD_index hls, getD_splitShape_of_gt amount has hgt]

/-- Splitting an axis of every operand. -/
theorem Sound.splitAxis {axis amount : Nat} (hk : k.Sound) (ha : axis < k.rank)
    (h : k.moveOperands (fun shape => return .reshape (← Intervention.split axis amount shape)) =
      .ok k') :
    k.Relaid k' (splitShape axis amount) ∧ k'.unrolled = k.unrolled ∧ k.Relabels k' := by
  have hmove : ∀ o ∈ k.operands, ∀ m,
      (do return Movement.reshape (← Intervention.split axis amount o.shape) : Checked Movement) =
        .ok m → m = .reshape (splitShape axis amount o.shape) := by
    intro o _ m hm
    obtain ⟨target, htarget, hm⟩ := bind_eq_ok.mp hm
    rw [← pure_eq_ok.mp hm, split_eq_ok htarget]
  have hrank : ∀ o ∈ k.operands, axis < o.shape.length := fun o ho => hk.aligned o ho ▸ ha
  obtain ⟨hr, hu⟩ := hk.moveOperands (fun s => .reshape (splitShape axis amount s)) hmove
    (fun o ho hv => fits_split (hrank o ho) (hk.positive ho) (hk.fits ho) hv) h
  have hmul : ∀ o ∈ k.operands, (parts amount (o.shape.getD axis 1)).1 *
      (parts amount (o.shape.getD axis 1)).2 = o.shape.getD axis 1 := by
    intro o ho
    obtain ⟨o', -, hm⟩ := hr.exists_right ho
    exact parts_mul (hrank o ho) (hk.positive ho) hm.valid
  have hmap := axisMap_split amount ha
  have hrelaid := hk.relaid hr hmap (fun _ _ => ⟨.reshape _, rfl⟩)
    (by rw [hu]; exact Nat.le_succ_of_le hk.unrolled_le)
  have haspace : axis < k.space.length := hk.length_space ▸ ha
  obtain ⟨o₀, ho₀, hattained⟩ := hk.aligned.exists_getD_space axis
  have hmulspace := hmul o₀ ho₀
  rw [hattained] at hmulspace
  refine ⟨hrelaid, hu, _, hrelaid.relabels (m := .reshape (splitShape axis amount k.space))
    (φ := mergeIndex axis (parts amount (k.space.getD axis 1)).2) hk hr (.reshape _)
    (valid_split haspace hk.positive_space hmulspace) rfl
    (fun _ hi => relabel_split haspace hmulspace hi) (fun _ _ => .reshape _)
    (fun o ho _ idx hi => ?_) fun o ho idx hi => ?_⟩
  · rw [relabel_split (hrank o ho) (hmul o ho) hi]
    rcases (hk.broadcasts o ho).spans axis with h1 | h1
    · -- on a unit axis both parts have entry 0, whatever the sizes are
      have hzero := (Shape.inRange_iff_getD.mp hi).2 axis
      rw [Movement.resultShape, getD_splitShape_self amount (hrank o ho), h1, parts_one,
        Nat.lt_one_iff] at hzero
      rw [mergeIndex, mergeIndex, hzero, Nat.zero_mul, Nat.zero_mul]
    · rw [h1]
  · rw [hrelaid.space] at hi
    exact mergeIndex_broadcast (hk.broadcasts o ho) haspace hi

end Kernel

end TensorLoom
