import TensorLoom.Proofs.Cells
import TensorLoom.Proofs.Kernel.Rearrangement
import Mathlib.Data.Set.Function

/-!
# What a kernel evaluates to

The evaluation of a kernel, cell by cell. The value of a tree is a function of the index of the
iteration space (`Kernel.valueFn`), an accumulator is the fold of that function over the indices
that the output keeps together (`Kernel.accumulated`), and each cell of the output holds the value
at the one index that writes it (`Kernel.written`). `Kernel.evaluate_upTo` puts these together:
unless the arithmetic overflows, this is what `Kernel.evaluate` computes.
-/

namespace TensorLoom

open Shape (InRange indices)
open Cells

namespace Kernel

/-! ## Values as functions of the index -/

/-- The value of an input as a function of the index. -/
def loadFn (k : Kernel) (data : List (Array Float32)) (number : Nat) :
    Checked (List Nat → Float32) := do
  let o ← entry k.operands number
  let xs ← entry data (← Word.sub number 1)
  return fun idx => match o.tracker.read (broadcastIndex idx o.shape) with
    | some i => xs.getD i 0
    | none => 0

/-- The value of a tree as a function of the index. Whether there is one does not depend on the
index. -/
def valueFn (leaf : Nat → Checked (List Nat → Float32)) (reduced : List Nat → Float32) :
    OpTree Nat → Checked (List Nat → Float32)
  | .leaf number => leaf number
  | .node _ (.unary op) [x] => do
    let f ← valueFn leaf reduced x
    return fun idx => op.apply (f idx)
  | .node _ (.binary op) [a, b] => do
    let f ← valueFn leaf reduced a
    let g ← valueFn leaf reduced b
    return fun idx => op.apply (f idx) (g idx)
  | _ => pure reduced

theorem valueOf_upTo {leaf : Nat → Checked (List Nat → Float32)} {load : Nat → Checked Float32}
    {idx : List Nat} (h : ∀ n, UpTo .overflow (load n) ((· idx) <$> leaf n))
    (reduced : List Nat → Float32) (t : OpTree Nat) :
    UpTo .overflow (valueOf load (reduced idx) t) ((· idx) <$> valueFn leaf reduced t) := by
  induction t using valueFn.induct with
  | case1 number => exact h number
  | case2 id op x ih =>
    rw [valueOf, valueFn, map_bind]
    refine (UpTo.bind ih fun _ _ => .refl _).trans_eq ?_
    cases valueFn leaf reduced x <;> rfl
  | case3 id op a b iha ihb =>
    rw [valueOf, valueFn, map_bind]
    refine (UpTo.bind iha fun _ _ => UpTo.bind ihb fun _ _ => .refl _).trans_eq ?_
    cases valueFn leaf reduced a <;> cases valueFn leaf reduced b <;> rfl
  | case4 t h₁ h₂ h₃ =>
    rw [valueOf, valueFn]
    · exact .refl _
    all_goals assumption

variable {k : Kernel}

theorem load_upTo (hk : k.Sound) (data : List (Array Float32)) {idx : List Nat}
    (hi : InRange idx k.space) (number : Nat) :
    UpTo .overflow (k.load data idx number) ((· idx) <$> k.loadFn data number) := by
  rw [load, loadFn, map_bind]
  refine UpTo.bind (.refl _) fun o ho => ?_
  rw [map_bind]
  refine UpTo.bind (.refl _) fun n _ => ?_
  rw [map_bind]
  refine UpTo.bind (.refl _) fun xs _ => ?_
  have hmem : o ∈ k.operands := List.mem_of_getElem? (entry_eq_ok.mp ho)
  obtain ⟨_, hw⟩ := hk.within o hmem
  refine (UpTo.bind (.of_yields (Tracker.index_yields hw (hk.index_inRange hmem hi)))
    fun _ _ => .refl _).trans_eq ?_
  show (match o.tracker.read (broadcastIndex idx o.shape) with
    | some i => (return xs.getD i 0 : Checked Float32)
    | none => return 0) = _
  simp only [map_pure]
  cases o.tracker.read (broadcastIndex idx o.shape) <;> rfl

/-! ## The output cell of an index -/

/-- The position in the output that an index of the iteration space belongs to. -/
def outCell (k : Kernel) (idx : List Nat) : Nat :=
  (k.output.tracker.read (broadcastIndex idx k.output.shape)).getD 0

section Enumerates

variable {len : Nat}

theorem read_outCell (h : k.output.tracker.Enumerates len) {idx : List Nat}
    (hi : InRange (broadcastIndex idx k.output.shape) k.output.shape) :
    k.output.tracker.read (broadcastIndex idx k.output.shape) = some (k.outCell idx) ∧
      k.outCell idx < len := by
  obtain ⟨n, hn, hr⟩ := h.exists_read hi
  rw [outCell, hr]
  exact ⟨rfl, hn⟩

theorem read_outCell_of_inRange (h : k.output.tracker.Enumerates len) {idx : List Nat}
    (hi : InRange idx k.output.shape) :
    k.output.tracker.read idx = some (k.outCell idx) ∧ k.outCell idx < len := by
  have hself : broadcastIndex idx k.output.shape = idx := Broadcasts.index_of_inRange hi
  have hread := @read_outCell k len h idx (by rwa [hself])
  rwa [hself] at hread

/-- The positions of the indices of the output are all those that it enumerates, each of them
once. -/
theorem perm_outCell (h : k.output.tracker.Enumerates len) :
    ((indices k.output.shape).map k.outCell).Perm (List.range len) := by
  have hreadings :
      k.output.tracker.readings = ((indices k.output.shape).map k.outCell).map some := by
    rw [List.map_map]
    exact List.map_congr_left fun idx hidx =>
      (read_outCell_of_inRange h (Shape.mem_indices.mp hidx)).1
  rw [Tracker.Enumerates, hreadings] at h
  exact (List.map_perm_map_iff (Option.some_injective _)).mp h

/-- Indices of the output belong to different positions, and every position has one. -/
theorem bijOn_outCell (h : k.output.tracker.Enumerates len) :
    Set.BijOn k.outCell {idx | InRange idx k.output.shape} (Set.Iio len) := by
  have hperm := perm_outCell h
  refine ⟨fun idx hi => (read_outCell_of_inRange h hi).2, fun i hi j hj e => ?_, fun n hn => ?_⟩
  · have hnodup := hperm.nodup_iff.mpr List.nodup_range
    exact List.inj_on_of_nodup_map hnodup (Shape.mem_indices.mpr hi) (Shape.mem_indices.mpr hj) e
  · obtain ⟨idx, hidx, rfl⟩ := List.mem_map.mp (hperm.mem_iff.mpr (List.mem_range.mpr hn))
    exact ⟨idx, Shape.mem_indices.mp hidx, rfl⟩

end Enumerates

theorem Placed.read_output (hk : k.Placed) {idx : List Nat} (hi : InRange idx k.space) :
    k.output.tracker.read (broadcastIndex idx k.output.shape) = some (k.outCell idx) ∧
      k.outCell idx < k.output.buffer.len :=
  read_outCell hk.output (hk.index_inRange (mem_output k) hi)

theorem Placed.index_output (hk : k.Placed) {idx : List Nat} (hi : InRange idx k.space) :
    Yields (k.output.tracker.index (broadcastIndex idx k.output.shape)) (some (k.outCell idx)) := by
  obtain ⟨_, hw⟩ := hk.within
  exact (Tracker.index_yields hw (hk.index_inRange (mem_output k) hi)).of_eq (hk.read_output hi).1

theorem Placed.outCell_inj (hk : k.Placed) {i j : List Nat} (hi : InRange i k.output.shape)
    (hj : InRange j k.output.shape) (e : k.outCell i = k.outCell j) : i = j :=
  (bijOn_outCell hk.output).injOn hi hj e

theorem Placed.exists_outCell (hk : k.Placed) {n : Nat} (hn : n < k.output.buffer.len) :
    ∃ idx, InRange idx k.output.shape ∧ k.outCell idx = n :=
  (bijOn_outCell hk.output).surjOn hn

theorem update_upTo {xs : Array Float32} {i : Nat} (h : i < xs.size)
    {f : Float32 → Checked Float32} {g : Float32 → Checked Float32}
    (hf : ∀ x, UpTo .overflow (f x) (g x)) :
    UpTo .overflow (update xs i f) ((fun v => xs.modify i fun _ => v) <$> g xs[i]) := by
  rw [update, dif_pos h, map_eq_pure_bind]
  refine UpTo.bind (hf xs[i]) fun v _ => .inl (congrArg Except.ok ?_)
  refine Array.ext (by simp) fun j hj _ => ?_
  rw [Array.getElem_set, Array.getElem_modify]

/-! ## Accumulators and output -/

/-- The accumulators of a reduction: each cell of the output folds the values at its indices, in
row-major order. -/
def accumulated (k : Kernel) (op : Reduction) (f : List Nat → Float32) : Array Float32 :=
  foldCells k.outCell (fun idx x => op.combine x (f idx)) (indices k.space)
    (Array.replicate k.output.buffer.len op.identity)

/-- The output: each cell holds the value at its index. -/
def written (k : Kernel) (g : List Nat → Float32) : Array Float32 :=
  foldCells k.outCell (fun idx _ => g idx) (indices k.output.shape)
    (Array.replicate k.output.buffer.len 0)

/-- The value that stands for the reduction at an index of the output. -/
def reducedFn (k : Kernel) (acc : Option (Array Float32)) (idx : List Nat) : Float32 :=
  match acc with
  | none => 0
  | some acc => acc.getD (k.outCell idx) 0

/-- A loop over the indices of a shape whose every step needs a value and then changes one cell. -/
theorem foldlM_cells_upTo {shape : List Nat} (hp : ∀ d ∈ shape, 0 < d) {len : Nat}
    {f : Array Float32 → List Nat → Checked (Array Float32)} {cell : List Nat → Nat}
    (step : Float32 → Float32 → Float32) {value : Checked (List Nat → Float32)}
    (hf : ∀ acc : Array Float32, acc.size = len → ∀ idx, InRange idx shape →
      UpTo .overflow (f acc idx)
        ((fun v => acc.modify (cell idx) fun x => step x (v idx)) <$> value))
    {init : Array Float32} (hinit : init.size = len) :
    UpTo .overflow ((indices shape).foldlM f init)
      ((fun v => foldCells cell (fun idx x => step x (v idx)) (indices shape) init) <$> value) := by
  cases value with
  | ok v =>
    refine .of_yields (Yields.foldlM_inv (·.size = len) (fun acc hacc idx hi => ?_) hinit)
    exact ⟨hf acc hacc idx (Shape.mem_indices.mp hi), by rw [Array.size_modify, hacc]⟩
  | error e =>
    -- every step ends with the same error, or overflows before
    cases hs : indices shape with
    | nil =>
      have := Shape.length_indices shape
      rw [hs, List.length_nil] at this
      exact absurd this.symm (Nat.ne_of_gt (Shape.prod_pos hp))
    | cons idx rest =>
      have hi : InRange idx shape := Shape.mem_indices.mp (hs ▸ List.mem_cons_self)
      rw [List.foldlM_cons]
      rcases hf init hinit idx hi with h | h
      · rw [h]
        exact .refl _
      · rw [h]
        exact .inr rfl

theorem accumulate_upTo (hk : k.Sound) (data : List (Array Float32)) (op : Reduction)
    (operand : OpTree Nat) :
    UpTo .overflow (k.accumulate data op operand)
      (k.accumulated op <$> valueFn (k.loadFn data) (fun _ => 0) operand) := by
  refine foldlM_cells_upTo hk.positive_space op.combine (fun acc hacc idx hi => ?_)
    Array.size_replicate
  have hcell : k.outCell idx < acc.size := hacc ▸ (hk.placed.read_output hi).2
  refine (UpTo.bind (valueOf_upTo (load_upTo hk data hi) (fun _ => 0) operand)
    (g := fun value => .ok (acc.modify (k.outCell idx) fun x => op.combine x value))
    fun value _ => ?_).trans_eq ?_
  · refine UpTo.bind (g := fun _ => .ok (acc.modify (k.outCell idx) fun x => op.combine x value))
      (.of_yields (hk.placed.index_output hi)) fun o ho => ?_
    obtain rfl := Except.ok.inj ho
    refine (update_upTo hcell fun x => .refl (pure (op.combine x value))).trans_eq ?_
    refine congrArg Except.ok (Array.ext (by simp) fun j hj _ => ?_)
    rw [Array.getElem_modify, Array.getElem_modify]
    split
    · subst_vars
      rfl
    · rfl
  · cases valueFn (k.loadFn data) (fun _ => 0) operand <;> rfl

theorem writeOutput_upTo (hk : k.Sound) (data : List (Array Float32))
    {acc : Option (Array Float32)} (hacc : ∀ a ∈ acc, a.size = k.output.buffer.len) :
    UpTo .overflow (k.writeOutput data acc)
      (k.written <$> valueFn (k.loadFn data) (k.reducedFn acc) k.ast) := by
  refine foldlM_cells_upTo (hk.positive (mem_output k)) (fun _ v => v)
    (fun out hout idx hi => ?_) Array.size_replicate
  have hspace := hk.placed.inRange_space hi
  have hcell := (hk.placed.read_output hspace).2
  have hindex := hk.placed.index_output hspace
  rw [Broadcasts.index_of_inRange hi] at hindex
  have hcell' : k.outCell idx < out.size := hout ▸ hcell
  have hupdate := update_upTo hcell' fun _ =>
    valueOf_upTo (load_upTo hk data hspace) (k.reducedFn acc) k.ast
  rw [Functor.map_map] at hupdate
  refine (UpTo.bind (g := fun _ => (fun v => out.modify (k.outCell idx) fun _ => v idx) <$>
    valueFn (k.loadFn data) (k.reducedFn acc) k.ast) (.of_yields hindex) fun o ho => ?_)
  obtain rfl := Except.ok.inj ho
  cases acc with
  | none => exact hupdate
  | some a =>
    have hlt : k.outCell idx < a.size := hacc a rfl ▸ hcell
    have hreduced : k.reducedFn (some a) idx = a[k.outCell idx] := by
      simp [reducedFn, Array.getD_eq_getD_getElem?, hlt]
    rw [hreduced] at hupdate
    simp only [Array.getElem?_eq_getElem hlt]
    exact hupdate

/-! ## The whole kernel -/

/-- The output of a kernel as functions of the index. -/
def evaluated (k : Kernel) (data : List (Array Float32)) : Attempt KernelError (Array Float32) := do
  match k.checkData data with
  | .error e => refuse (.device e)
  | .ok () =>
    let acc ← match k.reduced? with
      | some (op, operand) => do
        let f ← valueFn (k.loadFn data) (fun _ => 0) operand
        pure (some (k.accumulated op f))
      | none => pure none
    let g ← valueFn (k.loadFn data) (k.reducedFn acc) k.ast
    return k.written g

theorem size_accumulated (k : Kernel) (op : Reduction) (f : List Nat → Float32) :
    (k.accumulated op f).size = k.output.buffer.len := by
  rw [accumulated, size_foldCells, Array.size_replicate]

theorem size_written (k : Kernel) (g : List Nat → Float32) :
    (k.written g).size = k.output.buffer.len := by
  rw [written, size_foldCells, Array.size_replicate]

/-- Each cell of the output holds the value at its index. -/
theorem getElem?_written (hk : k.Sound) (g : List Nat → Float32) {idx : List Nat}
    (hi : InRange idx k.output.shape) : (k.written g)[k.outCell idx]? = some (g idx) := by
  rw [written, getElem?_foldCells_of_unique (Shape.nodup_indices _) (Shape.mem_indices.mpr hi)]
  · rw [Array.getElem?_replicate, if_pos (hk.placed.read_output (hk.placed.inRange_space hi)).2]
    rfl
  · exact fun j hj e => hk.placed.outCell_inj (Shape.mem_indices.mp hj) hi e

/-- Each accumulator folds the values at the indices of its cell. -/
theorem getElem?_accumulated (op : Reduction) (f : List Nat → Float32) {i : Nat}
    (hi : i < k.output.buffer.len) :
    (k.accumulated op f)[i]? =
      some ((((indices k.space).filter (k.outCell · = i)).map f).foldl op.combine op.identity) := by
  rw [accumulated, getElem?_foldCells, Array.getElem?_replicate, if_pos hi, List.foldl_map]
  rfl

theorem liftM_map {α β ε : Type} (f : α → β) (x : Checked α) :
    (liftM (f <$> x) : Attempt ε β) = liftM x >>= fun a => pure (f a) := by
  cases x <;> rfl

/-- Unless the arithmetic overflows, a kernel evaluates to its output as functions of the index. -/
theorem evaluate_upTo (hk : k.Sound) (data : List (Array Float32)) :
    UpTo (.fault .overflow) (k.evaluate data) (k.evaluated data) := by
  have hwrite : ∀ acc : Option (Array Float32), (∀ a ∈ acc, a.size = k.output.buffer.len) →
      UpTo (.fault .overflow) (liftM (k.writeOutput data acc) : Attempt KernelError _) (do
        let g ← valueFn (k.loadFn data) (k.reducedFn acc) k.ast
        return k.written g) := fun acc hacc => by
    have h := (writeOutput_upTo hk data hacc).lift (δ := KernelError)
    rwa [liftM_map] at h
  unfold evaluate evaluated
  cases k.checkData data with
  | error e => exact .refl _
  | ok _ =>
    cases k.reduced? with
    | none => exact hwrite none (fun _ h => by cases h)
    | some reduced =>
      obtain ⟨op, operand⟩ := reduced
      have h := (accumulate_upTo hk data op operand).lift (δ := KernelError)
      rw [liftM_map] at h
      refine (UpTo.bind h fun acc hacc => hwrite (some acc) fun a ha => ?_).trans_eq ?_
      · obtain ⟨f, -, hf⟩ := bind_eq_ok.mp hacc
        cases ha
        rw [← pure_eq_ok.mp hf, size_accumulated]
      · simp only [bind_assoc, pure_bind]

end Kernel

end TensorLoom
