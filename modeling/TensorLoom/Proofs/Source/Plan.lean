import TensorLoom.Proofs.Kernel.Arrangement
import TensorLoom.Proofs.Kernel.Evaluate
import TensorLoom.Proofs.Source.Grid

/-!
# Plans

A plan takes the axes of a kernel apart: into those that the output spans, the reduced ones and the
unrolled ones (`Plan.Fits`, `Kernel.Ordered.fits`). An index of the iteration space comes apart in
the same way. The indices of the output are met in row-major order if the work items are and each of
them goes through the accumulators (`Plan.Fits.indices_shape`), and the indices that are folded for
an output element are those of one work item with one accumulator, in the order in which the work
item meets them (`Plan.Fits.filter_outCell`).
-/

namespace TensorLoom

open Shape (InRange indices)
open IndexExpr (Stand)

namespace Plan

/-! ## The unrolled axes -/

@[simp] theorem restrict_nil (idx : List Nat) : restrict [] idx = [] := rfl

@[simp] theorem restrict_cons (mark : Bool) (marks : List Bool) (i : Nat) (idx : List Nat) :
    restrict (mark :: marks) (i :: idx) =
      if mark then i :: restrict marks idx else restrict marks idx := by
  cases mark <;> rfl

/-- The sizes of an output on some axes: it has size 1 or spans the axis. -/
abbrev Spans (outs sizes : List Nat) : Prop :=
  List.Forall₂ (fun out size => out = 1 ∨ (1 < out ∧ out = size)) outs sizes

/-- For each axis, whether an output of the given sizes spans it. -/
def marksOf (outs : List Nat) : List Bool := outs.map fun size => decide (1 < size)

@[simp] theorem marksOf_nil : marksOf [] = [] := rfl

@[simp] theorem marksOf_cons (out : Nat) (outs : List Nat) :
    marksOf (out :: outs) = decide (1 < out) :: marksOf outs := rfl

@[simp] theorem extend_true_cons (marks : List Bool) (i : Nat) (idx : List Nat) :
    extend (true :: marks) (i :: idx) = i :: extend marks idx := rfl

@[simp] theorem extend_false_cons (marks : List Bool) (idx : List Nat) :
    extend (false :: marks) idx = 0 :: extend marks idx := by
  cases idx <;> rfl

namespace Spans

variable {outs sizes : List Nat}

/-- The indices of the output are those of the axes that it spans. -/
theorem indices_eq (h : Spans outs sizes) :
    indices outs = (indices (restrict (marksOf outs) sizes)).map (extend (marksOf outs)) := by
  induction h with
  | nil => rfl
  | @cons out size outs sizes hout _ ih =>
    rcases hout with rfl | ⟨hlt, rfl⟩
    · simp [indices, ih]
    · rw [marksOf_cons, restrict_cons, if_pos (decide_eq_true hlt), decide_eq_true hlt, indices,
        indices, ih, List.map_flatMap]
      refine List.flatMap_congr fun i _ => ?_
      rw [List.map_map, List.map_map]
      rfl

/-- The entries that belong to an output index, in an index of all sizes. -/
theorem extend_restrict (h : Spans outs sizes) {idx : List Nat} (hi : InRange idx sizes) :
    extend (marksOf outs) (restrict (marksOf outs) idx) = broadcastIndex idx outs := by
  induction h generalizing idx with
  | nil =>
    cases hi
    rfl
  | @cons out size outs sizes hout _ ih =>
    obtain ⟨i, rest, -, hrest, rfl⟩ := List.forall₂_cons_right_iff.mp hi
    have ih := ih hrest
    rcases hout with rfl | ⟨hlt, rfl⟩
    · simpa [broadcastIndex] using ih
    · simpa [broadcastIndex, hlt, Nat.ne_of_gt hlt] using ih

theorem restrict_inRange (h : Spans outs sizes) {idx : List Nat} (hi : InRange idx sizes) :
    InRange (restrict (marksOf outs) idx) (restrict (marksOf outs) sizes) := by
  induction h generalizing idx with
  | nil => exact .nil
  | @cons out size outs sizes hout _ ih =>
    obtain ⟨i, rest, hlt, hrest, rfl⟩ := List.forall₂_cons_right_iff.mp hi
    have ih := ih hrest
    by_cases h1 : 1 < out
    · simpa [h1] using ⟨hlt, ih⟩
    · simpa [h1] using ih

theorem restrict_extend (h : Spans outs sizes) {idx : List Nat}
    (hi : InRange idx (restrict (marksOf outs) sizes)) :
    restrict (marksOf outs) (extend (marksOf outs) idx) = idx := by
  induction h generalizing idx with
  | nil =>
    cases hi
    rfl
  | @cons out size outs sizes hout _ ih =>
    rw [marksOf_cons, restrict_cons] at hi
    by_cases h1 : 1 < out
    · rw [if_pos (decide_eq_true h1)] at hi
      obtain ⟨i, rest, -, hrest, rfl⟩ := List.forall₂_cons_right_iff.mp hi
      simpa [h1] using ih hrest
    · rw [if_neg (by simpa using h1)] at hi
      simpa [h1] using ih hi

end Spans

/-! ## Parts of the iteration space -/

theorem indices_replicate_one (n : Nat) : indices (List.replicate n 1) = [List.replicate n 0] := by
  induction n with
  | zero => rfl
  | succ n ih => simp [List.replicate_succ, indices, ih]

/-- A plan takes the axes of a kernel apart, and the shape of its output in the same way. -/
structure Fits (p : Plan) (k : Kernel) (spans reduced sizes outs : List Nat) : Prop where
  space : k.space = spans ++ (reduced ++ sizes)
  shape : k.output.shape = spans ++ (List.replicate reduced.length 1 ++ outs)
  unrolledSpans : Spans outs sizes
  /-- A reduced axis is longer than 1. -/
  reduces : reduced ≠ [] → k.output.shape ≠ k.space
  grid : Grid.ofSizes spans = .ok p.grid
  bounds : p.loops.map (·.bound) = reduced
  axes : (p.loops.map (·.axis)).Nodup
  marks : p.marks = marksOf outs
  accumulators : p.accumulators = indices (restrict p.marks sizes)
  unrolled : p.unrolled = indices sizes

/-- The indices of the output that a work item writes. -/
def outputs (p : Plan) (g : List Nat) : List (List Nat) :=
  p.accumulators.map fun a => g ++ (List.replicate p.loops.length 0 ++ extend p.marks a)

namespace Fits

variable {p : Plan} {k : Kernel} {spans reduced sizes outs : List Nat}

theorem length_loops (h : p.Fits k spans reduced sizes outs) : p.loops.length = reduced.length := by
  rw [← h.bounds, List.length_map]

theorem indexOf_inRange (h : p.Fits k spans reduced sizes outs) {item : List Nat}
    (hitem : InRange item p.grid.globalSize) : InRange (Grid.indexOf spans item) spans := by
  rw [← Shape.mem_indices, ← Grid.map_indexOf h.grid]
  exact List.mem_map_of_mem (Shape.mem_indices.mpr hitem)

theorem stand_names (h : p.Fits k spans reduced sizes outs) (hk : k.Shaped) {item : List Nat}
    (hitem : InRange item p.grid.globalSize) :
    ∃ names, p.grid.definitions.foldlM (IndexDefinition.run item) .none = some names ∧
      Stand names p.grid.names (Grid.indexOf spans item) :=
  Grid.stand_names (fun d hd => hk.positive d (h.space ▸ List.mem_append_left _ hd)) h.grid
    hitem

/-- If nothing is reduced the output has all indices of the unrolled axes. -/
theorem outputs_whole (h : p.Fits k spans [] sizes outs) (hwhole : k.output.shape = k.space)
    (g : List Nat) : p.outputs g = (indices sizes).map (g ++ ·) := by
  have hsame : outs = sizes := by
    have := h.shape.symm.trans (hwhole.trans h.space)
    simpa using this
  have hloops : p.loops = [] := List.length_eq_zero_iff.mp h.length_loops
  rw [outputs, h.accumulators, h.marks, hloops]
  conv_rhs => rw [← hsame, h.unrolledSpans.indices_eq, List.map_map]
  rfl

/-- The indices of the output, work item by work item. -/
theorem indices_shape (h : p.Fits k spans reduced sizes outs) :
    indices k.output.shape = (indices spans).flatMap p.outputs := by
  rw [h.shape, Shape.indices_append]
  refine List.flatMap_congr fun g _ => ?_
  rw [Shape.indices_append, indices_replicate_one, List.flatMap_singleton,
    h.unrolledSpans.indices_eq, outputs, h.accumulators, h.marks, h.length_loops, List.map_map,
    List.map_map]
  rfl

/-- The index of the output that an index of the space belongs to. -/
theorem broadcastIndex_eq (h : p.Fits k spans reduced sizes outs) {g r u : List Nat}
    (hg : InRange g spans) (hr : InRange r reduced) (hu : InRange u sizes) :
    broadcastIndex (g ++ (r ++ u)) k.output.shape =
      g ++ (List.replicate reduced.length 0 ++ extend p.marks (restrict p.marks u)) := by
  have hlength := hr.length_eq
  rw [h.shape, broadcastIndex, List.zipWith_append hg.length_eq,
    List.zipWith_append (by rw [List.length_replicate, hlength]), h.marks,
    h.unrolledSpans.extend_restrict hu]
  refine congrArg₂ _ (Broadcasts.index_of_inRange hg) (congrArg₂ _ ?_ rfl)
  refine List.ext_getElem (by simp [hlength]) fun i _ _ => by simp

theorem mem_accumulators (h : p.Fits k spans reduced sizes outs) {a : List Nat} :
    a ∈ p.accumulators ↔ InRange a (restrict (marksOf outs) sizes) := by
  rw [h.accumulators, h.marks, Shape.mem_indices]

/-- An index of the unrolled axes goes to the accumulator of its entries on those axes that the
output spans. -/
theorem accumulatorOf_eq_iff (h : p.Fits k spans reduced sizes outs) {u : List Nat}
    (hu : InRange u sizes) {m : Nat} (hm : m < p.accumulators.length) :
    p.accumulatorOf u = m ↔ restrict p.marks u = p.accumulators[m] := by
  have hmem : restrict p.marks u ∈ p.accumulators := by
    rw [h.mem_accumulators, h.marks]
    exact h.unrolledSpans.restrict_inRange hu
  have hlt : p.accumulatorOf u < p.accumulators.length :=
    List.findIdx_lt_length_of_exists ⟨_, hmem, decide_eq_true rfl⟩
  have hget : p.accumulators[p.accumulatorOf u] = restrict p.marks u :=
    of_decide_eq_true (List.findIdx_getElem (w := hlt))
  have hnodup : p.accumulators.Nodup := h.accumulators ▸ Shape.nodup_indices _
  rw [← hget, hnodup.getElem_inj_iff]

theorem accumulatorOf_lt (h : p.Fits k spans reduced sizes outs) {u : List Nat}
    (hu : InRange u sizes) : p.accumulatorOf u < p.accumulators.length := by
  refine List.findIdx_lt_length_of_exists ⟨restrict p.marks u, ?_, decide_eq_true rfl⟩
  rw [h.mem_accumulators, h.marks]
  exact h.unrolledSpans.restrict_inRange hu

theorem flatMap_eq_of_unique {α β : Type} {xs : List α} {f : α → List β} {x : α} (hn : xs.Nodup)
    (hx : x ∈ xs) (hf : ∀ y ∈ xs, y ≠ x → f y = []) : xs.flatMap f = f x := by
  induction xs with
  | nil => cases hx
  | cons y ys ih =>
    obtain ⟨hy, hys⟩ := List.nodup_cons.mp hn
    rw [List.flatMap_cons]
    by_cases hyx : y = x
    · subst hyx
      rw [List.flatMap_eq_nil_iff.mpr, List.append_nil]
      exact fun z hz => hf z (List.mem_cons_of_mem _ hz) fun e => hy (e ▸ hz)
    · rw [hf y List.mem_cons_self hyx, List.nil_append]
      exact ih hys ((List.mem_cons.mp hx).resolve_left (Ne.symm hyx))
        fun z hz => hf z (List.mem_cons_of_mem _ hz)

/-- The output index of a work item and an accumulator. -/
theorem inRange_output (h : p.Fits k spans reduced sizes outs) {g o : List Nat}
    (hg : InRange g spans) (ho : o ∈ p.outputs g) : InRange o k.output.shape := by
  rw [← Shape.mem_indices, h.indices_shape]
  exact List.mem_flatMap.mpr ⟨g, Shape.mem_indices.mpr hg, ho⟩

/-- The indices folded for an output index: those of its work item with its accumulator. -/
theorem filter_outCell (h : p.Fits k spans reduced sizes outs) (hk : k.Placed) {g : List Nat}
    (hg : InRange g spans) {m : Nat} (hm : m < (p.outputs g).length) :
    (indices k.space).filter (k.outCell · = k.outCell (p.outputs g)[m]) =
      ((indices (reduced ++ sizes)).filter
        (fun j => p.accumulatorOf (j.drop reduced.length) = m)).map (g ++ ·) := by
  have hm' : m < p.accumulators.length := by rwa [outputs, List.length_map] at hm
  have ho := h.inRange_output hg (List.getElem_mem hm)
  have hget : (p.outputs g)[m] =
      g ++ (List.replicate reduced.length 0 ++ extend p.marks p.accumulators[m]) := by
    simp only [outputs, List.getElem_map, h.length_loops]
  -- an index is folded there if its work item is the one and its unrolled entries select it
  have hcell : ∀ g', InRange g' spans → ∀ j, InRange j (reduced ++ sizes) →
      (k.outCell (g' ++ j) = k.outCell (p.outputs g)[m] ↔
        g' = g ∧ p.accumulatorOf (j.drop reduced.length) = m) := by
    intro g' hg' j hj
    obtain ⟨r, u, rfl, hr, hu⟩ := Shape.inRange_append_iff.mp hj
    have hspace : InRange (g' ++ (r ++ u)) k.space :=
      h.space ▸ Shape.inRange_append hg' (Shape.inRange_append hr hu)
    have hb := hk.index_inRange (Kernel.mem_output k) hspace
    have hsame : k.outCell (g' ++ (r ++ u)) =
        k.outCell (broadcastIndex (g' ++ (r ++ u)) k.output.shape) := by
      rw [Kernel.outCell, Kernel.outCell, Broadcasts.index_of_inRange hb]
    have hdrop : (r ++ u).drop reduced.length = u := by rw [← hr.length_eq, List.drop_left]
    rw [hsame, hdrop, h.accumulatorOf_eq_iff hu hm']
    constructor
    · intro e
      have e := hk.outCell_inj hb ho e
      rw [h.broadcastIndex_eq hg' hr hu, hget] at e
      obtain ⟨rfl, e⟩ := List.append_inj e (by rw [hg'.length_eq, hg.length_eq])
      refine ⟨rfl, ?_⟩
      have e := congrArg (restrict p.marks) (List.append_cancel_left (List.append_cancel_left e))
      rwa [h.marks, h.unrolledSpans.restrict_extend (h.unrolledSpans.restrict_inRange hu),
        h.unrolledSpans.restrict_extend (h.mem_accumulators.mp (List.getElem_mem hm')),
        ← h.marks] at e
    · rintro ⟨rfl, e⟩
      rw [h.broadcastIndex_eq hg' hr hu, hget, e]
  rw [h.space, Shape.indices_append, List.filter_flatMap]
  rw [flatMap_eq_of_unique (Shape.nodup_indices _) (Shape.mem_indices.mpr hg) fun g' hg' hne => ?_]
  · rw [List.filter_map]
    refine congrArg _ (List.filter_congr fun j hj => ?_)
    simp only [Function.comp_apply, hcell g hg j (Shape.mem_indices.mp hj), true_and]
  · rw [List.filter_map, List.filter_eq_nil_iff.mpr, List.map_nil]
    intro j hj
    simp only [Function.comp_apply, hcell g' (Shape.mem_indices.mp hg') j (Shape.mem_indices.mp hj)]
    simp [hne]

end Fits

end Plan

namespace Kernel

variable {k : Kernel} {src : KernelSource}

theorem unrolledIndices_eq_ok {sizes : List Nat} {idxs : List (List Nat)}
    (h : unrolledIndices sizes = .ok idxs) : idxs = indices sizes := by
  obtain ⟨_, -, h⟩ := bind_eq_ok.mp h
  obtain ⟨_, -, h⟩ := bind_eq_ok.mp h
  exact (pure_eq_ok.mp h).symm

theorem eq_take_append_take_drop {s l : Nat} (h : s ≤ l) (xs : List Nat) :
    xs = xs.take s ++ ((xs.drop s).take (l - s) ++ xs.drop l) := by
  rw [show xs.drop l = (xs.drop s).drop (l - s) by rw [List.drop_drop, Nat.add_sub_of_le h],
    List.take_append_drop, List.take_append_drop]

/-- On the unrolled axes the output has size 1 or spans the space, as on all axes. -/
theorem Shaped.spans_drop (hk : k.Shaped) (n : Nat) :
    Plan.Spans (k.output.shape.drop n) (k.space.drop n) := by
  have hb := hk.broadcasts _ (mem_output k)
  refine List.forall₂_iff_get.mpr ⟨by simp [hb.rank], fun i hi hi' => ?_⟩
  simp only [List.get_eq_getElem, List.getElem_drop]
  rw [List.length_drop] at hi hi'
  have hspans := hb.spans (n + i)
  have hpos := hk.positive_operand (mem_output k) _ (List.getElem_mem (show n + i < _ by omega))
  rw [List.getD_eq_getElem _ _ (by omega), List.getD_eq_getElem _ _ (by omega)] at hspans
  omega

/-- The axes between those that the output spans and the unrolled ones. -/
theorem Shaped.length_reduced (hk : k.Shaped) (spanned : Nat) :
    ((k.space.drop spanned).take (k.rank - k.unrolled - spanned)).length =
      k.rank - k.unrolled - spanned := by
  rw [List.length_take, List.length_drop, hk.length_space]
  omega

/-- The output spans the leading axes. -/
theorem Shaped.take_spanned (hk : k.Shaped) {spanned : Nat} (h : k.spanned = .ok spanned) :
    k.output.shape.take spanned = k.space.take spanned := by
  obtain ⟨hle, hspans, -⟩ := spanned_eq_ok hk h
  have hrank := hk.length_space
  refine List.ext_getElem (by simp [hrank, rank]) fun i hi hi' => ?_
  rw [List.length_take] at hi hi'
  have := hspans i (by omega)
  rw [List.getD_eq_getElem _ _ (by omega), List.getD_eq_getElem _ _ (by omega)] at this
  rw [List.getElem_take, List.getElem_take, this]

/-- The output spans the leading axes and has size 1 on the others that are not unrolled. -/
theorem Ordered.shape_eq (ho : k.Ordered) (hk : k.Shaped) {spanned : Nat}
    (h : k.spanned = .ok spanned) :
    k.output.shape = k.space.take spanned ++
      (List.replicate ((k.space.drop spanned).take (k.rank - k.unrolled - spanned)).length 1 ++
        k.output.shape.drop (k.rank - k.unrolled)) := by
  obtain ⟨hle, -, -⟩ := spanned_eq_ok hk h
  conv_lhs => rw [eq_take_append_take_drop hle k.output.shape]
  refine congrArg₂ _ (hk.take_spanned h) (congrArg₂ _ ?_ rfl)
  refine List.eq_replicate_iff.mpr ⟨?_, fun d hd => ?_⟩
  · rw [hk.length_reduced spanned, List.length_take, List.length_drop, ← rank]
    omega
  · obtain ⟨i, hi, rfl⟩ := List.getElem_of_mem hd
    rw [List.length_take, List.length_drop] at hi
    have := ho.reduced hk h (i := spanned + i) (by omega) (by omega)
    rw [List.getD_eq_getElem _ _ (by omega)] at this
    rw [List.getElem_take, List.getElem_drop, this]

/-- The plan of a kernel takes its axes apart. -/
theorem Ordered.fits (ho : k.Ordered) (hk : k.Shaped) {p : Plan} (h : k.plan = .ok p) :
    ∃ spans reduced sizes outs, p.Fits k spans reduced sizes outs := by
  obtain ⟨loops, hloops, h⟩ := bind_eq_ok.mp h
  obtain ⟨rfl, -⟩ := loops_eq_ok hloops
  obtain ⟨spanned, hspanned, h⟩ := bind_eq_ok.mp h
  obtain ⟨grid, hgrid, h⟩ := bind_eq_ok.mp h
  obtain ⟨accumulators, haccumulators, h⟩ := bind_eq_ok.mp h
  obtain ⟨unrolled, hunrolled, h⟩ := bind_eq_ok.mp h
  obtain rfl := pure_eq_ok.mp h
  obtain ⟨hle, -, hne⟩ := spanned_eq_ok hk hspanned
  have hrank := hk.length_space
  have hlength := hk.length_reduced spanned
  refine ⟨k.space.take spanned, (k.space.drop spanned).take (k.rank - k.unrolled - spanned),
    k.space.drop (k.rank - k.unrolled), k.output.shape.drop (k.rank - k.unrolled), ?_⟩
  constructor
  case space => exact eq_take_append_take_drop hle _
  case shape => exact ho.shape_eq hk hspanned
  case unrolledSpans => exact hk.spans_drop _
  case reduces =>
    intro hreduced hsame
    have := List.length_pos_of_ne_nil hreduced
    exact hne (by omega) (by rw [hsame])
  case grid => exact hgrid
  case bounds =>
    rw [List.map_map]
    exact List.ext_getElem (by simp [hrank]) fun i _ _ => by simp
  case axes =>
    rw [List.map_map]
    refine (congrArg List.Nodup (List.map_fst_zip ?_)).mpr List.nodup_range'
    rw [List.length_range', List.length_drop, hrank]
    omega
  case marks => rfl
  case accumulators => exact unrolledIndices_eq_ok haccumulators
  case unrolled => exact unrolledIndices_eq_ok hunrolled

/-! ## Sources -/

/-- The parts of the source of a kernel that reduces. -/
theorem source_reduced {op : Reduction} {operand : OpTree Nat}
    (hr : k.reduced? = some (op, operand)) (h : k.source = .ok src) :
    ∃ p a, k.plan = .ok p ∧ k.accumulation p op operand = .ok a ∧
      src.globalSize = p.grid.globalSize ∧ src.definitions = p.grid.definitions ∧
      src.accumulation = some a ∧
      List.Forall₂ (fun (i : List Nat × Nat) s =>
        k.storeAt (p.behind (Plan.extend p.marks i.1)) (.accumulator i.2) = .ok s)
        p.accumulators.zipIdx src.stores := by
  obtain ⟨_, -, h⟩ := bind_eq_ok.mp h
  obtain ⟨p, hp, h⟩ := bind_eq_ok.mp h
  rw [hr] at h
  obtain ⟨a, ha, h⟩ := bind_eq_ok.mp h
  obtain ⟨stores, hstores, h⟩ := bind_eq_ok.mp h
  obtain rfl := pure_eq_ok.mp h
  exact ⟨p, a, hp, ha, rfl, rfl, rfl, mapM_eq_ok hstores⟩

/-- The parts of the source of a kernel that does not. -/
theorem source_whole (hr : k.reduced? = none) (h : k.source = .ok src) :
    ∃ p, k.plan = .ok p ∧ src.globalSize = p.grid.globalSize ∧
      src.definitions = p.grid.definitions ∧ src.accumulation = none ∧
      List.Forall₂ (fun i s => k.storeAt (p.inside i) .zero = .ok s) p.unrolled src.stores := by
  obtain ⟨_, -, h⟩ := bind_eq_ok.mp h
  obtain ⟨p, hp, h⟩ := bind_eq_ok.mp h
  rw [hr] at h
  obtain ⟨stores, hstores, h⟩ := bind_eq_ok.mp h
  obtain rfl := pure_eq_ok.mp h
  exact ⟨p, hp, rfl, rfl, rfl, mapM_eq_ok hstores⟩

/-- A source is run over the grid of the plan. -/
theorem source_grid (h : k.source = .ok src) :
    ∃ p, k.plan = .ok p ∧ src.globalSize = p.grid.globalSize := by
  cases hr : k.reduced? with
  | none =>
    obtain ⟨p, hp, hsize, -⟩ := source_whole hr h
    exact ⟨p, hp, hsize⟩
  | some reduced =>
    obtain ⟨p, -, hp, -, hsize, -⟩ := source_reduced hr h
    exact ⟨p, hp, hsize⟩

end Kernel

end TensorLoom
