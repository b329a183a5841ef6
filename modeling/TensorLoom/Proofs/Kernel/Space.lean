import TensorLoom.Kernel.Evaluate
import TensorLoom.Proofs.Layout.RowMajor
import Mathlib.Data.List.GetD

/-!
# The iteration space

On each axis every operand of a kernel has size 1 or spans the iteration space, which is as large
as some operand (`Kernel.exists_getD_space`). A shape that stands in this relation to another one
`Broadcasts` to it, and an index of the larger shape is sent to one of the smaller.

Facts that hold axis by axis are stated with `getD`: beyond the rank of a shape all sizes are 1, and
beyond the length of an index all entries are 0, so that no axis needs a bound.
-/

namespace TensorLoom

open Shape (InRange)

/-! ## Axis by axis -/

namespace Shape

theorem ext_getD {s t : List Nat} (hl : s.length = t.length)
    (h : ∀ i < s.length, s.getD i 1 = t.getD i 1) : s = t := by
  refine List.ext_getElem hl fun i hs ht => ?_
  have := h i hs
  rwa [List.getD_eq_getElem _ _ hs, List.getD_eq_getElem _ _ ht] at this

theorem getD_of_length_le {s : List Nat} {i d : Nat} (h : s.length ≤ i) : s.getD i d = d :=
  List.getD_eq_default _ _ h

theorem inRange_iff_getD {idx s : List Nat} :
    InRange idx s ↔ idx.length = s.length ∧ ∀ i, idx.getD i 0 < s.getD i 1 := by
  rw [InRange, List.forall₂_iff_get]
  refine and_congr_right fun hl => ⟨fun h i => ?_, fun h i hi hs => ?_⟩
  · by_cases hi : i < idx.length
    · rw [List.getD_eq_getElem _ _ hi, List.getD_eq_getElem _ _ (hl ▸ hi)]
      exact h i hi (hl ▸ hi)
    · rw [getD_of_length_le (by omega), getD_of_length_le (by omega)]
      exact Nat.zero_lt_one
  · have := h i
    rwa [List.getD_eq_getElem _ _ hi, List.getD_eq_getElem _ _ hs] at this

theorem positive_iff_getD {s : List Nat} : (∀ d ∈ s, 0 < d) ↔ ∀ i, 0 < s.getD i 1 := by
  refine ⟨fun h i => ?_, fun h d hd => ?_⟩
  · by_cases hi : i < s.length
    · rw [List.getD_eq_getElem _ _ hi]
      exact h _ (List.getElem_mem hi)
    · rw [getD_of_length_le (by omega)]
      exact Nat.zero_lt_one
  · obtain ⟨i, hi, rfl⟩ := List.getElem_of_mem hd
    have := h i
    rwa [List.getD_eq_getElem _ _ hi] at this

theorem index_ext {i j : List Nat} (hl : i.length = j.length)
    (h : ∀ a < i.length, i.getD a 0 = j.getD a 0) : i = j := by
  refine List.ext_getElem hl fun a hi hj => ?_
  have := h a hi
  rwa [List.getD_eq_getElem _ _ hi, List.getD_eq_getElem _ _ hj] at this

theorem length_widen {s t : List Nat} (hl : s.length = t.length) :
    (widen s t).length = s.length := by
  rw [widen, List.length_zipWith]
  omega

theorem getD_widen {s t : List Nat} (hl : s.length = t.length) (i : Nat) :
    (widen s t).getD i 1 = max (s.getD i 1) (t.getD i 1) := by
  by_cases hi : i < s.length
  · have ht : i < t.length := hl ▸ hi
    have hw : i < (widen s t).length := by rwa [length_widen hl]
    rw [List.getD_eq_getElem _ _ hi, List.getD_eq_getElem _ _ ht, List.getD_eq_getElem _ _ hw]
    exact List.getElem_zipWith ..
  · rw [getD_of_length_le (s := s) (by omega), getD_of_length_le (s := t) (by omega),
      getD_of_length_le (by rw [length_widen hl]; omega)]
    rfl

end Shape

/-! ## Broadcasting -/

/-- On each axis the size of a shape is 1 or that of another one. -/
structure Broadcasts (shape full : List Nat) : Prop where
  rank : shape.length = full.length
  spans : ∀ i, shape.getD i 1 = 1 ∨ shape.getD i 1 = full.getD i 1

namespace Broadcasts

variable {shape full idx : List Nat}

theorem refl (shape : List Nat) : Broadcasts shape shape := ⟨rfl, fun _ => .inr rfl⟩

theorem iff_forall₂ :
    Broadcasts shape full ↔ List.Forall₂ (fun d f => d = 1 ∨ d = f) shape full := by
  rw [List.forall₂_iff_get]
  refine ⟨fun h => ⟨h.rank, fun i hi hi' => ?_⟩, fun ⟨hl, h⟩ => ⟨hl, fun i => ?_⟩⟩
  · have := h.spans i
    rwa [List.getD_eq_getElem _ _ hi, List.getD_eq_getElem _ _ hi'] at this
  · by_cases hi : i < shape.length
    · have hi' : i < full.length := hl ▸ hi
      rw [List.getD_eq_getElem _ _ hi, List.getD_eq_getElem _ _ hi']
      exact h i hi hi'
    · exact .inl (Shape.getD_of_length_le (by omega))

theorem length_index (h : idx.length = shape.length) :
    (broadcastIndex idx shape).length = shape.length := by
  rw [broadcastIndex, List.length_zipWith]
  omega

theorem getD_index (h : idx.length = shape.length) (i : Nat) :
    (broadcastIndex idx shape).getD i 0 = if shape.getD i 1 = 1 then 0 else idx.getD i 0 := by
  by_cases hi : i < shape.length
  · have hidx : i < idx.length := h ▸ hi
    have hb : i < (broadcastIndex idx shape).length := by rwa [length_index h]
    rw [List.getD_eq_getElem _ _ hb, List.getD_eq_getElem _ _ hidx, List.getD_eq_getElem _ _ hi]
    exact List.getElem_zipWith ..
  · rw [Shape.getD_of_length_le (by rw [length_index h]; omega),
      Shape.getD_of_length_le (s := shape) (by omega), if_pos rfl]

theorem index_inRange (h : Broadcasts shape full) (hi : InRange idx full) :
    InRange (broadcastIndex idx shape) shape := by
  obtain ⟨hl, hlt⟩ := Shape.inRange_iff_getD.mp hi
  have hl : idx.length = shape.length := hl.trans h.rank.symm
  refine Shape.inRange_iff_getD.mpr ⟨length_index hl, fun i => ?_⟩
  rw [getD_index hl]
  split
  · omega
  · rw [(h.spans i).resolve_left ‹_›]
    exact hlt i

/-- An index of a shape stays as it is. -/
theorem index_of_inRange (hi : InRange idx shape) : broadcastIndex idx shape = idx := by
  obtain ⟨hl, hlt⟩ := Shape.inRange_iff_getD.mp hi
  refine Shape.index_ext (by rw [length_index hl, hl]) fun i _ => ?_
  rw [getD_index hl]
  split
  · have := hlt i
    omega
  · rfl

/-- An index of a shape is also one of the shape that it broadcasts to. -/
theorem inRange (h : Broadcasts shape full) (hp : ∀ d ∈ full, 0 < d) (hi : InRange idx shape) :
    InRange idx full := by
  obtain ⟨hl, hlt⟩ := Shape.inRange_iff_getD.mp hi
  refine Shape.inRange_iff_getD.mpr ⟨hl.trans h.rank, fun i => ?_⟩
  rcases h.spans i with h1 | h1
  · have := Shape.positive_iff_getD.mp hp i
    have := hlt i
    omega
  · rw [← h1]
    exact hlt i

theorem positive (h : Broadcasts shape full) (hp : ∀ d ∈ full, 0 < d) : ∀ d ∈ shape, 0 < d := by
  refine Shape.positive_iff_getD.mpr fun i => ?_
  rcases h.spans i with h1 | h1
  · omega
  · rw [h1]
    exact Shape.positive_iff_getD.mp hp i

end Broadcasts

/-! ## The space of a kernel -/

namespace Kernel

/-- The largest sizes of some shapes of one rank. -/
theorem foldl_widen {shapes : List (List Nat)} {start : List Nat}
    (hl : ∀ s ∈ shapes, s.length = start.length) :
    (shapes.foldl Shape.widen start).length = start.length ∧
      ∀ i, (∃ s ∈ start :: shapes, s.getD i 1 = (shapes.foldl Shape.widen start).getD i 1) ∧
        ∀ s ∈ start :: shapes, s.getD i 1 ≤ (shapes.foldl Shape.widen start).getD i 1 := by
  induction shapes generalizing start with
  | nil => simp
  | cons s shapes ih =>
    have hs : start.length = s.length := (hl s List.mem_cons_self).symm
    have hw := Shape.length_widen hs
    obtain ⟨hlen, hall⟩ := @ih (Shape.widen start s) fun t ht => by
      rw [hw]
      exact hl t (List.mem_cons_of_mem _ ht)
    rw [List.foldl_cons]
    refine ⟨hlen.trans hw, fun i => ?_⟩
    obtain ⟨⟨t, ht, hti⟩, hle⟩ := hall i
    have hwi := Shape.getD_widen hs i
    refine ⟨?_, fun u hu => ?_⟩
    · rcases List.mem_cons.mp ht with rfl | ht
      · rcases Nat.le_total (start.getD i 1) (s.getD i 1) with h | h
        · exact ⟨s, by simp, by rw [← hti, hwi, Nat.max_eq_right h]⟩
        · exact ⟨start, by simp, by rw [← hti, hwi, Nat.max_eq_left h]⟩
      · exact ⟨t, by simp [ht], hti⟩
    · have hmax := hle (Shape.widen start s) List.mem_cons_self
      rw [hwi] at hmax
      rcases List.mem_cons.mp hu with rfl | hu
      · omega
      rcases List.mem_cons.mp hu with rfl | hu
      · omega
      · exact hle u (List.mem_cons_of_mem _ hu)

variable {k : Kernel}

/-- All operands have the rank of the kernel. -/
def Aligned (k : Kernel) : Prop := ∀ o ∈ k.operands, o.shape.length = k.rank

theorem space_eq_foldl (k : Kernel) :
    k.space = (k.inputs.map (·.shape)).foldl Shape.widen k.output.shape := by
  rw [space, List.foldl_map]

theorem Aligned.inputs (h : k.Aligned) :
    ∀ s ∈ k.inputs.map (·.shape), s.length = k.output.shape.length := by
  intro s hs
  obtain ⟨o, ho, rfl⟩ := List.mem_map.mp hs
  exact h o (List.mem_cons_of_mem _ ho)

theorem Aligned.length_space (h : k.Aligned) : k.space.length = k.rank := by
  rw [space_eq_foldl]
  exact (foldl_widen h.inputs).1

/-- On each axis some operand is as large as the space. -/
theorem Aligned.exists_getD_space (h : k.Aligned) (i : Nat) :
    ∃ o ∈ k.operands, o.shape.getD i 1 = k.space.getD i 1 := by
  obtain ⟨s, hs, hi⟩ := ((foldl_widen h.inputs).2 i).1
  rw [← space_eq_foldl] at hi
  obtain ⟨o, ho, rfl⟩ : ∃ o ∈ k.operands, o.shape = s := by
    rwa [← List.map_cons (f := Operand.shape), List.mem_map] at hs
  exact ⟨o, ho, hi⟩

theorem Aligned.getD_le_space (h : k.Aligned) {o : Operand} (ho : o ∈ k.operands) (i : Nat) :
    o.shape.getD i 1 ≤ k.space.getD i 1 := by
  rw [space_eq_foldl]
  refine ((foldl_widen h.inputs).2 i).2 _ ?_
  rw [← List.map_cons (f := Operand.shape)]
  exact List.mem_map_of_mem ho

/-- A shape that all operands broadcast to, and that none of its axes is too large for, is the
iteration space. -/
theorem space_eq {full : List Nat} (hb : ∀ o ∈ k.operands, Broadcasts o.shape full)
    (hf : ∀ i, ∃ o ∈ k.operands, o.shape.getD i 1 = full.getD i 1) (hp : ∀ d ∈ full, 0 < d) :
    k.Aligned ∧ k.space = full := by
  have houtput := hb k.output List.mem_cons_self
  have halign : k.Aligned := fun o ho => (hb o ho).rank.trans houtput.rank.symm
  refine ⟨halign, Shape.ext_getD (halign.length_space.trans houtput.rank) fun i _ => ?_⟩
  refine Nat.le_antisymm ?_ ?_
  · obtain ⟨o, ho, hi⟩ := halign.exists_getD_space i
    rw [← hi]
    rcases (hb o ho).spans i with h1 | h1
    · rw [h1]
      exact Shape.positive_iff_getD.mp hp i
    · rw [h1]
  · obtain ⟨o, ho, hi⟩ := hf i
    rw [← hi]
    exact halign.getD_le_space ho i

end Kernel

end TensorLoom
