import TensorLoom.Proofs.Tuning.LayoutEdits
import TensorLoom.Proofs.Tuning.Applied

/-!
# The output of a kernel under any accepted change of the layout

Whatever function reshapes the operands of a kernel and whatever order their axes are put in, a
change that is accepted relays every operand (`Kernel.relays_apply`). So after any changes the
output still has one index for each element of its buffer (`Kernel.bijOn_outCell`), although the
operands need not broadcast to one space any more.

The last loop of an evaluation goes through the indices of the output. It never writes beyond the
end of the output, and in the end each element is the value at its index, whatever the loop has
assigned to the others (`Kernel.Holds`). `Kernel.Edited.assigns` says so of every kernel that
accepted changes lead to.
-/

namespace TensorLoom

open Shape (InRange indices)

namespace Kernel

variable {k k' start : Kernel} {e : LayoutEdit}

/-! ## Operands under changes of the layout -/

/-- A change that is accepted relays every operand. -/
theorem relays_apply (h : e.apply k = .ok k') : List.Forall₂ Relays k.operands k'.operands := by
  cases e with
  | relayout reshape order => exact (carries_relayout h).operands
  | unroll =>
    obtain ⟨-, rfl⟩ := of_unroll h
    exact (Carries.refl k).operands
  | intervene i =>
    obtain ⟨r, hcarries, rfl⟩ := carries_intervene h
    exact hcarries.operands

/-- So do any changes in sequence. -/
theorem Edited.relays {allowed : Kernel → LayoutEdit → Prop} (h : start.Edited allowed k) :
    List.Forall₂ Relays start.operands k.operands := by
  induction h with
  | start => exact (Carries.refl start).operands
  | step _ _ happly ih => exact forall₂_trans .trans ih (relays_apply happly)

/-! ## The position of an index -/

/-- The position of an index of the output is computed, and the buffer has it. -/
theorem index_outCell (h : k.output.Covers) {idx : List Nat} (hi : InRange idx k.output.shape) :
    k.output.tracker.index idx = .ok (some (k.outCell idx)) ∧
      k.outCell idx < k.output.buffer.len := by
  obtain ⟨hread, hlt⟩ := read_outCell_of_inRange h.enumerates hi
  rw [h.index_eq hi, hread]
  exact ⟨rfl, hlt⟩

/-! ## The loops of an evaluation -/

theorem update_meets {xs : Array Float32} {i : Nat} {f : Float32 → Checked Float32}
    (hi : i < xs.size) :
    Meets (update xs i f) (f xs[i] = .error ·) fun ys =>
      ∃ v, f xs[i] = .ok v ∧ ys = xs.set i v := by
  rw [update, dif_pos hi]
  exact (Meets.self _).bind fun v hv => .pure ⟨v, hv, rfl⟩

theorem size_update {xs ys : Array Float32} {i : Nat} {f : Float32 → Checked Float32}
    (h : update xs i f = .ok ys) : ys.size = xs.size := by
  unfold update at h
  split at h
  · obtain ⟨v, -, h⟩ := bind_eq_ok.mp h
    rw [← pure_eq_ok.mp h, Array.size_set]
  · cases h

/-- There is an accumulator for each element of the output. -/
theorem size_accumulate {data : List (Array Float32)} {op : Reduction} {operand : OpTree Nat}
    {acc : Array Float32} (h : k.accumulate data op operand = .ok acc) :
    acc.size = k.output.buffer.len := by
  have hany : ∀ {α : Type} (x : Checked α), Meets x (fun _ => True) (x = .ok ·) := fun x =>
    (Meets.self x).mono (fun _ _ => trivial) fun _ => id
  have hsize : Meets (k.accumulate data op operand) (fun _ => True)
      (fun acc => acc.size = k.output.buffer.len) := by
    refine .foldlM (I := fun _ (acc : Array Float32) => acc.size = k.output.buffer.len)
      Array.size_replicate fun _ acc idx _ hacc => ?_
    refine .bind (hany _) fun value _ => .bind (hany _) fun position _ => ?_
    cases position with
    | none => exact .pure hacc
    | some o => exact (hany _).mono (fun _ => id) fun _ h => (size_update h).trans hacc
  exact hsize.of_ok h

/-- The value that is assigned at an index of the output. -/
def valueAt (k : Kernel) (data : List (Array Float32)) (acc : Option (Array Float32))
    (idx : List Nat) : Checked Float32 :=
  valueOf (k.load data idx) (k.reducedFn acc idx) k.ast

/-- An output that holds the values at some indices. -/
structure Holds (k : Kernel) (value : List Nat → Checked Float32) (done : List (List Nat))
    (out : Array Float32) : Prop where
  size : out.size = k.output.buffer.len
  inRange : ∀ idx ∈ done, InRange idx k.output.shape
  held : ∀ idx ∈ done, ∃ v, value idx = .ok v ∧ out[k.outCell idx]? = some v

/-- One more value is assigned. No other index has its position. -/
theorem Holds.set {value : List Nat → Checked Float32} {done : List (List Nat)}
    {out : Array Float32} (hout : k.Holds value done out) (h : k.output.Covers) {idx : List Nat}
    (hi : InRange idx k.output.shape) (hlt : k.outCell idx < out.size) {v : Float32}
    (hv : value idx = .ok v) : k.Holds value (done ++ [idx]) (out.set (k.outCell idx) v) where
  size := (Array.size_set hlt).trans hout.size
  inRange j hj := by
    rcases List.mem_append.mp hj with hj | hj
    · exact hout.inRange j hj
    · exact List.mem_singleton.mp hj ▸ hi
  held j hj := by
    by_cases hji : j = idx
    · subst hji
      exact ⟨v, hv, Array.getElem?_set_self hlt⟩
    · have hj : j ∈ done := (List.mem_append.mp hj).resolve_right (hji ∘ List.mem_singleton.mp)
      have hcell : k.outCell idx ≠ k.outCell j := fun e =>
        hji ((bijOn_outCell h.enumerates).injOn (hout.inRange j hj) hi e.symm)
      obtain ⟨w, hw, hheld⟩ := hout.held j hj
      exact ⟨w, hw, (Array.getElem?_set_ne hlt hcell).trans hheld⟩

/-- The last loop ends with an output that holds all values, or with the error of one of them. -/
theorem writeOutput_meets (h : k.output.Covers) (data : List (Array Float32))
    {acc : Option (Array Float32)} (hacc : ∀ a ∈ acc, a.size = k.output.buffer.len) :
    Meets (k.writeOutput data acc)
      (fun e => ∃ idx, InRange idx k.output.shape ∧ k.valueAt data acc idx = .error e)
      (k.Holds (k.valueAt data acc) (indices k.output.shape)) := by
  have hnone : k.Holds (k.valueAt data acc) [] (Array.replicate k.output.buffer.len 0) :=
    ⟨Array.size_replicate, nofun, nofun⟩
  refine .foldlM hnone fun done out idx hidx hout => ?_
  have hi : InRange idx k.output.shape := Shape.mem_indices.mp hidx
  obtain ⟨hindex, hlt⟩ := index_outCell h hi
  have hlt' : k.outCell idx < out.size := hout.size ▸ hlt
  have hupdate : Meets (update out (k.outCell idx) fun _ => k.valueAt data acc idx)
      (fun e => ∃ idx, InRange idx k.output.shape ∧ k.valueAt data acc idx = .error e)
      (k.Holds (k.valueAt data acc) (done ++ [idx])) := by
    refine (update_meets hlt').mono (fun e he => ⟨idx, hi, he⟩) ?_
    rintro _ ⟨v, hv, rfl⟩
    exact hout.set h hi hlt' hv
  refine .bind (P := (· = some (k.outCell idx))) (.of_eq_ok hindex rfl) ?_
  rintro _ rfl
  cases acc with
  | none => exact hupdate
  | some a =>
    have hcell : k.outCell idx < a.size := hacc a rfl ▸ hlt
    have hreduced : a[k.outCell idx]? = some (k.reducedFn (some a) idx) := by
      simp [reducedFn, hcell]
    simp only [hreduced]
    exact hupdate

/-! ## Every kernel that changes lead to -/

/-- How the last loop of an evaluation assigns the elements of an output of `len` elements. -/
structure Assigns (k : Kernel) (len : Nat) : Prop where
  /-- Every index of the output has a position. -/
  index : ∀ idx, InRange idx k.output.shape →
    k.output.tracker.index idx = .ok (some (k.outCell idx))
  /-- The indices and the elements belong together one to one. -/
  bijOn : Set.BijOn k.outCell {idx | InRange idx k.output.shape} (Set.Iio len)
  /-- The loop comes upon each element once. -/
  once : ∃ cells : List Nat, cells.Perm (List.range len) ∧
    (indices k.output.shape).mapM k.output.tracker.index = .ok (cells.map some)
  /-- A reduction has an accumulator for each element. -/
  accumulators : ∀ data op operand acc, k.accumulate data op operand = .ok acc → acc.size = len
  /-- The loop ends with each element assigned the value at its index, unless some value is an
  error. It has no errors of its own. -/
  written : ∀ data acc, (∀ a ∈ acc, Array.size a = len) →
    Meets (k.writeOutput data acc)
      (fun e => ∃ idx, InRange idx k.output.shape ∧ k.valueAt data acc idx = .error e)
      fun out => out.size = len ∧ ∀ idx, InRange idx k.output.shape →
        ∃ v, k.valueAt data acc idx = .ok v ∧ out[k.outCell idx]? = some v

theorem assigns_of_covers (h : k.output.Covers) : k.Assigns k.output.buffer.len where
  index _ hi := (index_outCell h hi).1
  bijOn := bijOn_outCell h.enumerates
  once := by
    refine ⟨_, perm_outCell h.enumerates, ?_⟩
    rw [List.map_map]
    exact mapM_eq_ok_of_forall fun idx hidx => (index_outCell h (Shape.mem_indices.mp hidx)).1
  accumulators _ _ _ _ := size_accumulate
  written data _ hacc := (writeOutput_meets h data hacc).mono (fun _ => id) fun _ hout =>
    ⟨hout.size, fun idx hi => hout.held idx (Shape.mem_indices.mpr hi)⟩

/-- However a kernel has been reshaped, permuted, unrolled and tuned, by any changes that have been
accepted, the indices of its output belong one to one to the elements of the output buffer. The last
loop of an evaluation assigns each of them once and none besides. -/
theorem Edited.assigns {ast : Ast} {output : Buffer} (hlen : output.len < Word.half)
    (hstart : ofAst ast output = .ok start) (h : start.Edited (fun _ _ => True) k) :
    k.output.buffer = output ∧ k.Assigns output.len := by
  obtain ⟨hcovers, hbuffer⟩ := covers_ofAst hlen hstart
  have hrelays : Relays start.output k.output := (List.forall₂_cons.mp h.relays).1
  have hbuffer : k.output.buffer = output := hrelays.buffer.trans hbuffer
  exact ⟨hbuffer, hbuffer ▸ assigns_of_covers (hrelays.covers hcovers)⟩

/-- The output axes are exchanged and then merged, so that the output is seen through two views,
and an axis is unrolled. -/
theorem assigns_innerSum :
    ∃ k, innerSum.Edited (fun _ _ => True) k ∧ k.output.tracker.below.length = 1 ∧
      k.output.shape = [6, 1] ∧ k.Assigns 6 ∧ k.outCell [1, 0] = 3 := by
  have hedited : innerSum.Edited (fun _ _ => True) _ :=
    .step (e := .unroll) (.step (e := .relayout (some mergeOuter) [0, 1])
      (.step (e := .intervene (.swap 0 1)) .start trivial rfl) trivial rfl) trivial rfl
  exact ⟨_, hedited, rfl, rfl, (hedited.assigns (by decide) ofAst_innerSumTree).2, rfl⟩

end Kernel

end TensorLoom
