import TensorLoom.Tuning.Intervention
import TensorLoom.Proofs.Kernel.Space
import TensorLoom.Proofs.Layout.Relabelling

/-!
# Rearranged kernels

A change of a kernel's layout moves all its trackers alike. `Kernel.Sound` is what all changes keep:
the operands broadcast to the iteration space, and the output has each of its elements once. It is
kept because the new sizes of an axis come from the old sizes of one axis, in the same way for every
operand (`AxisMap`, `Kernel.Sound.rearranged`). As far as sizes go it does not matter what the
operands read (`Kernel.Shaped.reshapes`).

If moreover the sources of an index agree across the operands, then the new kernel reads at an index
what the old one read at another, and goes through the same iterations: `Kernel.Relabels`.
-/

namespace TensorLoom

open Shape (InRange indices)

/-- A function of shapes that makes each size of its result from one size of its operand, and a unit
size from a unit size. -/
structure AxisMap (f : List Nat → List Nat) (rank len : Nat) (origin : Nat → Nat)
    (size : Nat → Nat → Nat) : Prop where
  size_one : ∀ p, size p 1 = 1
  length_eq : ∀ s, s.length = rank → (f s).length = len
  getD_eq : ∀ s, s.length = rank → ∀ p < len, (f s).getD p 1 = size p (s.getD (origin p) 1)

namespace AxisMap

variable {f : List Nat → List Nat} {rank len : Nat} {origin : Nat → Nat} {size : Nat → Nat → Nat}

theorem broadcasts (h : AxisMap f rank len origin size) {shape full : List Nat}
    (hb : Broadcasts shape full) (hr : full.length = rank) : Broadcasts (f shape) (f full) where
  rank := by rw [h.length_eq _ (hb.rank.trans hr), h.length_eq _ hr]
  spans p := by
    by_cases hp : p < len
    · rw [h.getD_eq _ (hb.rank.trans hr) p hp, h.getD_eq _ hr p hp]
      rcases hb.spans (origin p) with h1 | h1
      · exact .inl (by rw [h1, h.size_one])
      · exact .inr (by rw [h1])
    · exact .inl (Shape.getD_of_length_le (by rw [h.length_eq _ (hb.rank.trans hr)]; omega))

/-- An axis of the result is attained where the axis that it comes from is. -/
theorem getD_congr (h : AxisMap f rank len origin size) {s t : List Nat} (hs : s.length = rank)
    (ht : t.length = rank) {p : Nat} (hp : p < len)
    (e : s.getD (origin p) 1 = t.getD (origin p) 1) : (f s).getD p 1 = (f t).getD p 1 := by
  rw [h.getD_eq _ hs p hp, h.getD_eq _ ht p hp, e]

/-- One function after another. -/
theorem comp (h : AxisMap f rank len origin size) {g : List Nat → List Nat} {len' : Nat}
    {origin' : Nat → Nat} {size' : Nat → Nat → Nat} (h' : AxisMap g len len' origin' size')
    (hlt : ∀ p < len', origin' p < len) :
    AxisMap (g ∘ f) rank len' (origin ∘ origin') fun p d => size' p (size (origin' p) d) where
  size_one p := by rw [h.size_one, h'.size_one]
  length_eq s hs := h'.length_eq _ (h.length_eq s hs)
  getD_eq s hs p hp := by
    rw [Function.comp_apply, h'.getD_eq _ (h.length_eq s hs) p hp, h.getD_eq s hs _ (hlt p hp)]
    rfl

end AxisMap

namespace Kernel

/-- The operands of a kernel broadcast to its iteration space, which has no empty axis. -/
structure Shaped (k : Kernel) : Prop where
  broadcasts : ∀ o ∈ k.operands, Broadcasts o.shape k.space
  positive : ∀ d ∈ k.space, 0 < d
  unrolled_le : k.unrolled ≤ k.rank

theorem mem_output (k : Kernel) : k.output ∈ k.operands := List.mem_cons_self

/-- A kernel whose shapes are those of another one, each changed by the same function. -/
structure Reshapes (k k' : Kernel) (f : List Nat → List Nat) : Prop where
  shaped : k'.Shaped
  output : k'.output.shape = f k.output.shape
  space : k'.space = f k.space

namespace Shaped

variable {k k' : Kernel}

theorem length_space (h : k.Shaped) : k.space.length = k.rank :=
  (h.broadcasts _ (mem_output k)).rank.symm

theorem aligned (h : k.Shaped) : k.Aligned :=
  fun _ ho => (h.broadcasts _ ho).rank.trans h.length_space

theorem positive_operand (h : k.Shaped) {o : Operand} (ho : o ∈ k.operands) :
    ∀ d ∈ o.shape, 0 < d :=
  (h.broadcasts o ho).positive h.positive

/-- On each axis of the space the output and the space have a size. -/
theorem getElem?_eq (h : k.Shaped) {i : Nat} (hi : i < k.space.length) :
    k.output.shape[i]? = some (k.output.shape.getD i 1) ∧
      k.space[i]? = some (k.space.getD i 1) := by
  have hi' : i < k.output.shape.length := by rwa [← rank, ← h.length_space]
  rw [List.getD_eq_getElem _ _ hi, List.getD_eq_getElem _ _ hi', List.getElem?_eq_getElem hi,
    List.getElem?_eq_getElem hi']
  exact ⟨rfl, rfl⟩

/-- Shapes that are all changed alike, axis by axis, broadcast to the space changed likewise. -/
theorem reshapes {f : List Nat → List Nat} {len : Nat} {origin : Nat → Nat}
    {size : Nat → Nat → Nat} (hk : k.Shaped) (hf : AxisMap f k.rank len origin size)
    (h : List.Forall₂ (fun o o' => o'.shape = f o.shape ∧ ∀ d ∈ o'.shape, 0 < d)
      k.operands k'.operands) (hu : k'.unrolled ≤ len) : k.Reshapes k' f := by
  have hrank := hk.length_space
  have hoperand : ∀ o' ∈ k'.operands, ∃ o ∈ k.operands, o'.shape = f o.shape := by
    intro o' ho'
    obtain ⟨o, ho, hs, -⟩ := exists_of_forall₂_right h ho'
    exact ⟨o, ho, hs⟩
  have hbroadcasts : ∀ o' ∈ k'.operands, Broadcasts o'.shape (f k.space) := by
    intro o' ho'
    obtain ⟨o, ho, hs⟩ := hoperand o' ho'
    rw [hs]
    exact hf.broadcasts (hk.broadcasts o ho) hrank
  have hout := (List.forall₂_cons.mp h).1.1
  have hlen : k'.rank = len := by rw [rank, hout, hf.length_eq _ rfl]
  have hattained : ∀ p, ∃ o' ∈ k'.operands, o'.shape.getD p 1 = (f k.space).getD p 1 ∧
      ∀ d ∈ o'.shape, 0 < d := by
    intro p
    by_cases hp : p < len
    · obtain ⟨o, ho, hi⟩ := hk.aligned.exists_getD_space (origin p)
      obtain ⟨o', ho', hs, hpos⟩ := exists_of_forall₂_left h ho
      refine ⟨o', ho', ?_, hpos⟩
      rw [hs]
      exact hf.getD_congr (hk.aligned _ ho) hrank hp hi
    · refine ⟨k'.output, mem_output k', ?_, (List.forall₂_cons.mp h).1.2⟩
      rw [Shape.getD_of_length_le (s := k'.output.shape) (by rw [← rank, hlen]; omega),
        Shape.getD_of_length_le (by rw [hf.length_eq _ hrank]; omega)]
  have hpositive : ∀ d ∈ f k.space, 0 < d := by
    refine Shape.positive_iff_getD.mpr fun p => ?_
    obtain ⟨o', ho', hp, hpos⟩ := hattained p
    rw [← hp]
    exact Shape.positive_iff_getD.mp hpos p
  obtain ⟨-, hspace⟩ := space_eq hbroadcasts
    (fun p => let ⟨o', ho', hp, _⟩ := hattained p; ⟨o', ho', hp⟩) hpositive
  exact ⟨⟨hspace ▸ hbroadcasts, hspace ▸ hpositive, hlen ▸ hu⟩, hout, hspace⟩

theorem index_inRange (h : k.Shaped) {o : Operand} (ho : o ∈ k.operands) {idx : List Nat}
    (hi : InRange idx k.space) : InRange (broadcastIndex idx o.shape) o.shape :=
  (h.broadcasts o ho).index_inRange hi

theorem inRange_space (h : k.Shaped) {idx : List Nat} (hi : InRange idx k.output.shape) :
    InRange idx k.space :=
  (h.broadcasts _ (mem_output k)).inRange h.positive hi

end Shaped

/-- The sizes of an axis are made from the sizes of the axis that it comes from. -/
theorem Reshapes.getD {k k' : Kernel} {f : List Nat → List Nat} {len : Nat} {origin : Nat → Nat}
    {size : Nat → Nat → Nat} (h : k.Reshapes k' f) (hk : k.Shaped)
    (hf : AxisMap f k.rank len origin size) {i : Nat} (hi : i < len) :
    k'.output.shape.getD i 1 = size i (k.output.shape.getD (origin i) 1) ∧
      k'.space.getD i 1 = size i (k.space.getD (origin i) 1) := by
  rw [h.output, h.space]
  exact ⟨hf.getD_eq _ rfl i hi, hf.getD_eq _ hk.length_space i hi⟩

theorem Reshapes.rank {k k' : Kernel} {f : List Nat → List Nat} {len : Nat} {origin : Nat → Nat}
    {size : Nat → Nat → Nat} (h : k.Reshapes k' f) (hf : AxisMap f k.rank len origin size) :
    k'.rank = len := by
  rw [Kernel.rank, h.output]
  exact hf.length_eq _ rfl

end Kernel

/-! ## Operands that are moved -/

/-- An operand is what a movement makes of another one. -/
structure Operand.Moves (o o' : Operand) (m : Movement) : Prop where
  buffer : o'.buffer = o.buffer
  tracker : ∃ bound, Tracker.Moves bound o.tracker o'.tracker m

namespace Operand.Moves

variable {o o' : Operand} {m : Movement}

theorem valid (h : o.Moves o' m) : m.Valid o.shape :=
  let ⟨_, ht⟩ := h.tracker
  ht.valid

theorem shape (h : o.Moves o' m) : o'.shape = m.resultShape o.shape :=
  let ⟨_, ht⟩ := h.tracker
  ht.shape

theorem within (h : o.Moves o' m) : ∃ bound, o'.tracker.Within bound :=
  let ⟨bound, ht⟩ := h.tracker
  ⟨bound, ht.within⟩

theorem perm_readings (h : o.Moves o' m) (hm : m.Keeps) (hp : ∀ d ∈ o.shape, 0 < d) :
    o'.tracker.readings.Perm o.tracker.readings :=
  let ⟨_, ht⟩ := h.tracker
  ht.perm_readings hm hp

theorem read_relabel (h : o.Moves o' m) (hm : m.Keeps) {idx : List Nat}
    (hi : InRange idx o'.shape) : o'.tracker.read idx = o.tracker.read (m.relabel o.shape idx) :=
  let ⟨_, ht⟩ := h.tracker
  ht.read_relabel hm hi

end Operand.Moves

namespace Kernel

/-- What a kernel keeps in every layout: its operands broadcast to the iteration space, their
trackers stay where they may read, and the output has a place for each of its elements. -/
structure Sound (k : Kernel) : Prop where
  broadcasts : ∀ o ∈ k.operands, Broadcasts o.shape k.space
  within : ∀ o ∈ k.operands, ∃ bound, o.tracker.Within bound
  output : k.output.tracker.Enumerates k.output.buffer.len
  unrolled_le : k.unrolled ≤ k.rank

namespace Sound

variable {k : Kernel}

theorem length_space (h : k.Sound) : k.space.length = k.rank :=
  (h.broadcasts _ (mem_output k)).rank.symm

theorem aligned (h : k.Sound) : k.Aligned :=
  fun _ ho => (h.broadcasts _ ho).rank.trans h.length_space

theorem positive (h : k.Sound) {o : Operand} (ho : o ∈ k.operands) : ∀ d ∈ o.shape, 0 < d :=
  let ⟨_, hw⟩ := h.within o ho
  hw.positive

theorem fits (h : k.Sound) {o : Operand} (ho : o ∈ k.operands) : ∀ d ∈ o.shape, d < Word.half :=
  let ⟨_, hw⟩ := h.within o ho
  hw.fits

theorem positive_space (h : k.Sound) : ∀ d ∈ k.space, 0 < d := by
  refine Shape.positive_iff_getD.mpr fun i => ?_
  obtain ⟨o, ho, hi⟩ := h.aligned.exists_getD_space i
  rw [← hi]
  exact Shape.positive_iff_getD.mp (h.positive ho) i

theorem shaped (h : k.Sound) : k.Shaped where
  broadcasts := h.broadcasts
  positive := h.positive_space
  unrolled_le := h.unrolled_le

theorem index_inRange (h : k.Sound) {o : Operand} (ho : o ∈ k.operands) {idx : List Nat}
    (hi : InRange idx k.space) : InRange (broadcastIndex idx o.shape) o.shape :=
  (h.broadcasts o ho).index_inRange hi

end Sound

/-- A kernel whose output has a place for each of its elements, whatever its inputs read. -/
structure Placed (k : Kernel) : Prop extends Shaped k where
  within : ∃ bound, k.output.tracker.Within bound
  output : k.output.tracker.Enumerates k.output.buffer.len

theorem Sound.placed {k : Kernel} (h : k.Sound) : k.Placed where
  toShaped := h.shaped
  within := h.within _ (mem_output k)
  output := h.output

/-- A kernel is another one with all its operands moved, each as its shape asks for. -/
structure Rearranges (k k' : Kernel) (move : List Nat → Movement) : Prop where
  ast : k'.ast = k.ast
  operands : List.Forall₂ (fun o o' => o.Moves o' (move o.shape)) k.operands k'.operands

variable {k k' : Kernel} {move : List Nat → Movement}

namespace Rearranges

theorem output (h : k.Rearranges k' move) : k.output.Moves k'.output (move k.output.shape) :=
  (List.forall₂_cons.mp h.operands).1

theorem exists_left (h : k.Rearranges k' move) {o' : Operand} (ho : o' ∈ k'.operands) :
    ∃ o ∈ k.operands, o.Moves o' (move o.shape) :=
  exists_of_forall₂_right h.operands ho

theorem exists_right (h : k.Rearranges k' move) {o : Operand} (ho : o ∈ k.operands) :
    ∃ o' ∈ k'.operands, o.Moves o' (move o.shape) :=
  exists_of_forall₂_left h.operands ho

end Rearranges

/-- Operands moved alike, axis by axis, are those of a sound kernel again, and so is its space. -/
theorem Sound.rearranged {f : List Nat → List Nat} {len : Nat} {origin : Nat → Nat}
    {size : Nat → Nat → Nat} (hk : k.Sound) (h : k.Rearranges k' move)
    (hf : AxisMap f k.rank len origin size)
    (hmove : ∀ o ∈ k.operands, (move o.shape).Keeps ∧
      (move o.shape).resultShape o.shape = f o.shape)
    (hu : k'.unrolled ≤ len) : k'.Sound ∧ k'.space = f k.space := by
  have hshapes : k.Reshapes k' f := by
    refine hk.shaped.reshapes hf ?_ hu
    refine List.forall₂_iff_get.mpr ⟨h.operands.length_eq, fun i hi hi' => ?_⟩
    have hm := (List.forall₂_iff_get.mp h.operands).2 i hi hi'
    obtain ⟨_, hw⟩ := hm.within
    exact ⟨hm.shape.trans (hmove _ (List.getElem_mem hi)).2, hw.positive⟩
  refine ⟨⟨hshapes.shaped.broadcasts, fun o' ho' => ?_, ?_, hshapes.shaped.unrolled_le⟩,
    hshapes.space⟩
  · obtain ⟨o, -, hm⟩ := h.exists_left ho'
    exact hm.within
  · rw [h.output.buffer]
    exact hk.output.perm
      (h.output.perm_readings (hmove _ (mem_output k)).1 (hk.positive (mem_output k)))

/-! ## The changes that are made -/

theorem ofLayout_eq_ok {α : Type} {x : Attempt LayoutError α} {a : α} :
    KernelError.ofLayout x = .ok a ↔ x = .ok a := mapError_eq_ok

theorem moves_of_move {o : Operand} {m : Movement} {t : Tracker}
    (hw : ∃ bound, o.tracker.Within bound)
    (hf : m.Valid o.shape → ∀ d ∈ m.resultShape o.shape, d < Word.half)
    (h : o.tracker.move m = .ok t) : o.Moves { o with tracker := t } m := by
  obtain ⟨bound, hw⟩ := hw
  exact ⟨rfl, bound, (Tracker.move_settles hw m hf).of_ok h⟩

/-- Each operand is moved by itself, and nothing else is changed. -/
theorem moveOperands_eq_ok {movement : List Nat → Checked Movement}
    (h : k.moveOperands movement = .ok k') :
    k'.ast = k.ast ∧ k'.unrolled = k.unrolled ∧ List.Forall₂ (fun o o' => ∃ m tracker,
      movement o.shape = .ok m ∧ o.tracker.move m = .ok tracker ∧ o' = { o with tracker })
      k.operands k'.operands := by
  have hmoved : ∀ o o' : Operand, (do
      let m ← liftM (movement o.shape)
      let tracker ← KernelError.ofLayout (o.tracker.move m)
      pure { o with tracker } : Attempt KernelError Operand) = .ok o' →
        ∃ m tracker, movement o.shape = .ok m ∧ o.tracker.move m = .ok tracker ∧
          o' = { o with tracker } := by
    intro o o' h
    obtain ⟨m, hm, h₁⟩ := bind_eq_ok.mp h
    obtain ⟨tracker, ht, h₂⟩ := bind_eq_ok.mp h₁
    exact ⟨m, tracker, liftM_eq_ok.mp hm, ofLayout_eq_ok.mp ht, (pure_eq_ok.mp h₂).symm⟩
  obtain ⟨output, houtput, h⟩ := bind_eq_ok.mp h
  obtain ⟨inputs, hinputs, h⟩ := bind_eq_ok.mp h
  obtain rfl := pure_eq_ok.mp h
  exact ⟨rfl, rfl, .cons (hmoved _ _ houtput) ((mapM_eq_ok hinputs).imp hmoved)⟩

/-- A movement of every operand, if none of them is refused. -/
theorem Sound.moveOperands (hk : k.Sound) (move : List Nat → Movement)
    {movement : List Nat → Checked Movement}
    (hmove : ∀ o ∈ k.operands, ∀ m, movement o.shape = .ok m → m = move o.shape)
    (hf : ∀ o ∈ k.operands, (move o.shape).Valid o.shape →
      ∀ d ∈ (move o.shape).resultShape o.shape, d < Word.half)
    (h : k.moveOperands movement = .ok k') : k.Rearranges k' move ∧ k'.unrolled = k.unrolled := by
  obtain ⟨hast, hu, hmoved⟩ := moveOperands_eq_ok h
  refine ⟨⟨hast, List.forall₂_iff_get.mpr ⟨hmoved.length_eq, fun i hi hi' => ?_⟩⟩, hu⟩
  have ho := List.getElem_mem hi
  obtain ⟨m, t, hm, ht, heq⟩ := (List.forall₂_iff_get.mp hmoved).2 i hi hi'
  obtain rfl := hmove _ ho m hm
  exact heq ▸ moves_of_move (hk.within _ ho) (hf _ ho) ht

end Kernel

/-! ## Changes of shapes -/

/-- Permutations take each size from one axis. -/
theorem axisMap_permute {axes : List Nat} {rank : Nat} (h : axes.Perm (List.range rank)) :
    AxisMap ((Movement.permute axes).resultShape ·) rank rank (axes.getD · 0) fun _ d => d where
  size_one _ := rfl
  length_eq s _ := by simpa [Movement.resultShape] using h.length_eq
  getD_eq s hs p hp := by
    have hp' : p < axes.length := by simpa [h.length_eq] using hp
    have ha : axes[p] < s.length := by
      rw [hs]
      exact List.mem_range.mp (h.mem_iff.mp (List.getElem_mem hp'))
    simp [Movement.resultShape, hp', ha]

/-- Some of the axes of a shape, or a unit axis if there are none. -/
theorem axisMap_select {kept : List Nat} {rank : Nat} (h : ∀ i ∈ kept, i < rank) :
    AxisMap (fun s => if kept.isEmpty then [1] else kept.map (s.getD · 1)) rank (max kept.length 1)
      (kept.getD · rank) fun _ d => d where
  size_one _ := rfl
  length_eq s _ := by
    cases kept with
    | nil => rfl
    | cons i kept => simp
  getD_eq s hs p hp := by
    cases kept with
    | nil =>
      rw [List.getD_nil, Shape.getD_of_length_le (Nat.le_of_eq hs)]
      cases p with
      | zero => rfl
      | succ p => exact absurd hp (by simp)
    | cons i kept =>
      have hp' : p < (i :: kept).length := by
        rwa [List.length_cons, Nat.max_eq_left (by omega)] at hp
      simp only [List.isEmpty_cons, Bool.false_eq_true, if_false]
      rw [List.getD_eq_getElem _ _ (by simpa using hp'), List.getElem_map,
        List.getD_eq_getElem _ _ hp']

namespace Intervention

/-- The sizes that an axis is split into. -/
def parts (amount size : Nat) : Nat × Nat :=
  if 1 < size then (size / amount, amount) else (1, 1)

/-- A shape with one axis split. -/
def splitShape (axis amount : Nat) (shape : List Nat) : List Nat :=
  let (outer, inner) := parts amount (shape.getD axis 1)
  shape.take axis ++ outer :: inner :: shape.drop (axis + 1)

theorem split_eq_ok {axis amount : Nat} {shape target : List Nat}
    (h : split axis amount shape = .ok target) : target = splitShape axis amount shape := by
  obtain ⟨size, hsize, h⟩ := bind_eq_ok.mp h
  rw [splitShape, parts, getD_of_entry hsize 1]
  split at h
  · rename_i h1
    obtain ⟨q, hq, h⟩ := bind_eq_ok.mp h
    cases h
    rw [if_pos h1]
    unfold Word.div at hq
    split at hq
    · cases hq
    · cases hq
      simp
  · rename_i h1
    cases h
    rw [if_neg h1]
    simp

section SplitShape

variable {shape : List Nat} {axis p : Nat} (amount : Nat) (h : axis < shape.length)

include h

theorem length_splitShape : (splitShape axis amount shape).length = shape.length + 1 := by
  simp only [splitShape, List.length_append, List.length_take, List.length_cons, List.length_drop]
  omega

theorem getD_splitShape_of_lt (hp : p < axis) :
    (splitShape axis amount shape).getD p 1 = shape.getD p 1 := by
  have ht : p < (shape.take axis).length := by rw [List.length_take]; omega
  rw [splitShape, List.getD_append _ _ _ _ ht, List.getD_eq_getElem?_getD,
    List.getElem?_take_of_lt hp, List.getD_eq_getElem?_getD]

theorem getD_splitShape_self :
    (splitShape axis amount shape).getD axis 1 = (parts amount (shape.getD axis 1)).1 := by
  have ht : (shape.take axis).length = axis := by rw [List.length_take]; omega
  rw [splitShape, List.getD_append_right _ _ _ _ (Nat.le_of_eq ht), ht, Nat.sub_self]
  rfl

theorem getD_splitShape_succ :
    (splitShape axis amount shape).getD (axis + 1) 1 = (parts amount (shape.getD axis 1)).2 := by
  have ht : (shape.take axis).length = axis := by rw [List.length_take]; omega
  rw [splitShape, List.getD_append_right _ _ _ _ (by omega), ht,
    show axis + 1 - axis = 0 + 1 by omega, List.getD_cons_succ]
  rfl

theorem getD_splitShape_of_gt (hp : axis < p) :
    (splitShape axis amount shape).getD (p + 1) 1 = shape.getD p 1 := by
  have ht : (shape.take axis).length = axis := by rw [List.length_take]; omega
  rw [splitShape, List.getD_append_right _ _ _ _ (by omega), ht,
    show p + 1 - axis = p - axis - 1 + 1 + 1 by omega, List.getD_cons_succ, List.getD_cons_succ,
    List.getD_eq_getElem?_getD, List.getElem?_drop, List.getD_eq_getElem?_getD,
    show axis + 1 + (p - axis - 1) = p by omega]

end SplitShape

theorem axisMap_split {axis rank : Nat} (amount : Nat) (h : axis < rank) :
    AxisMap (splitShape axis amount) rank (rank + 1)
      (fun p => if p ≤ axis then p else p - 1)
      fun p d => if p = axis then (parts amount d).1
        else if p = axis + 1 then (parts amount d).2 else d where
  size_one p := by
    dsimp only [parts]
    split
    · rfl
    · split <;> rfl
  length_eq s hs := by rw [length_splitShape amount (hs ▸ h), hs]
  getD_eq s hs p hp := by
    have h := hs ▸ h
    rcases Nat.lt_trichotomy p axis with hlt | rfl | hgt
    · rw [getD_splitShape_of_lt amount h hlt, if_pos (Nat.le_of_lt hlt), if_neg (Nat.ne_of_lt hlt),
        if_neg (by omega)]
    · rw [getD_splitShape_self amount h, if_pos (Nat.le_refl p), if_pos rfl]
    · obtain ⟨q, rfl⟩ : ∃ q, p = q + 1 := ⟨p - 1, by omega⟩
      rw [if_neg (Nat.not_le.mpr hgt), if_neg (Nat.ne_of_gt hgt), Nat.add_sub_cancel]
      rcases Nat.eq_or_lt_of_le (Nat.le_of_lt_succ hgt) with rfl | hgt
      · rw [if_pos rfl, getD_splitShape_succ amount h]
      · rw [if_neg (by omega), getD_splitShape_of_gt amount h hgt]

end Intervention

end TensorLoom
