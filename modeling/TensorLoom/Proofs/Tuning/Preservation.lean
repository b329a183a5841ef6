import TensorLoom.Proofs.Kernel.Iterations
import TensorLoom.Proofs.Kernel.Lowering
import TensorLoom.Proofs.OpTree.MapLeaves

/-!
# Interventions do not change what a kernel computes

The iterations of a kernel are looked at by the position of the output that they belong to. At each
of them every input slot reads a position or nothing, and the tuples read for one position of the
output are the same after any interventions, up to their order (`Kernel.perm_tuplesRead`). The
epilogue reads one tuple for each position, and that one does not change at all.

So a kernel without a reduction evaluates to what it did before, and so does one whose reduction may
fold the values that occur in any order (`Reduction.RegularOn`). Index arithmetic may overflow in
one layout and not in the other, which is the one difference that there can be
(`Kernel.interveneAll_preserves`).
-/

namespace TensorLoom

open Shape (InRange indices)
open scoped List

/-! ## Folding in any order -/

namespace Reduction

/-- A reduction is commutative and associative on what occurs in a fold of some values in any order:
the values themselves, and the folds of some of them. -/
structure RegularOn (op : Reduction) (values : List Float32) : Prop where
  comm : ∀ a b, [a, b] <+~ values → op.combine a b = op.combine b a
  assoc : ∀ folded a b, folded ++ [a, b] <+~ values →
    op.combine (op.combine (folded.foldl op.combine op.identity) a) b =
      op.combine (folded.foldl op.combine op.identity) (op.combine a b)

/-- Two values may be folded in either order, after any others. -/
theorem RegularOn.right_comm {op : Reduction} {values folded : List Float32} {a b : Float32}
    (h : op.RegularOn values) (hs : folded ++ [a, b] <+~ values) :
    op.combine (op.combine (folded.foldl op.combine op.identity) a) b =
      op.combine (op.combine (folded.foldl op.combine op.identity) b) a := by
  have hswap : folded ++ [b, a] <+~ values :=
    ((List.Perm.swap a b []).append_left folded).subperm.trans hs
  have hpair : [a, b] <+~ values := (List.sublist_append_right folded [a, b]).subperm.trans hs
  rw [h.assoc folded a b hs, h.comm a b hpair, ← h.assoc folded b a hswap]

/-- A fold whose steps commute wherever they occur does not depend on the order. -/
theorem foldl_perm {α β : Type} {f : β → α → β} {xs ys : List α} (h : xs.Perm ys) (init : β)
    (hf : ∀ zs a b, zs ++ [a, b] <+~ xs →
      f (f (zs.foldl f init) a) b = f (f (zs.foldl f init) b) a) :
    xs.foldl f init = ys.foldl f init := by
  induction h generalizing init with
  | nil => rfl
  | cons x _ ih =>
    exact ih (f init x) fun zs a b hs => hf (x :: zs) a b ((List.subperm_cons x).mpr hs)
  | swap x y xs =>
    have := hf [] y x ⟨[y, x], .refl _, by simp⟩
    rw [List.foldl_cons, List.foldl_cons, List.foldl_cons, List.foldl_cons]
    exact congrArg (xs.foldl f) this
  | trans h₁ _ ih₁ ih₂ =>
    rw [ih₁ init hf]
    exact ih₂ init fun zs a b hs => hf zs a b (hs.trans h₁.symm.subperm)

theorem RegularOn.foldl_perm {op : Reduction} {xs ys : List Float32} (h : op.RegularOn xs)
    (hperm : xs.Perm ys) :
    xs.foldl op.combine op.identity = ys.foldl op.combine op.identity :=
  Reduction.foldl_perm hperm _ fun _ _ _ hs => h.right_comm hs

end Reduction

namespace Kernel

/-! ## What is read for a position of the output -/

/-- The values at those of some indices that a projection sends to a position. -/
def collect {β : Type} (project : List Nat → Checked (Option Nat)) (value : List Nat → Checked β)
    (idxs : List (List Nat)) (position : Nat) : Checked (List β) := do
  let rows ← idxs.mapM fun idx => do
    let cell ← project idx
    return (cell, ← value idx)
  return rows.filterMap fun (cell, v) => if cell = some position then some v else none

/-- What each input slot reads at an index of the iteration space. -/
def slots (k : Kernel) (idx : List Nat) : Checked (List (Option Nat)) :=
  k.inputs.mapM fun o => o.tracker.index (broadcastIndex idx o.shape)

/-- The position of the output that an index of the iteration space is projected to. -/
def project (k : Kernel) (idx : List Nat) : Checked (Option Nat) :=
  k.output.tracker.index (broadcastIndex idx k.output.shape)

/-- The tuples read in the iterations for a position of the output. -/
def tuples (k : Kernel) (position : Nat) : Checked (List (List (Option Nat))) :=
  collect k.project k.slots (indices k.space) position

/-- The tuples read by the epilogue for a position of the output. -/
def epilogueTuples (k : Kernel) (position : Nat) : Checked (List (List (Option Nat))) :=
  collect k.output.tracker.index k.slots (indices k.output.shape) position

/-- The values that are folded for a position of the output. -/
def folded (k : Kernel) (data : List (Array Float32)) (operand : OpTree Nat) (position : Nat) :
    Checked (List Float32) :=
  collect k.project (fun idx => valueOf (k.load data idx) 0 operand) (indices k.space) position

theorem filterMap_cells {α β : Type} (cell : α → Nat) (v : α → β) (xs : List α) (position : Nat) :
    ((xs.map fun x => (some (cell x), v x)).filterMap fun (c, v) =>
        if c = some position then some v else none) = (xs.filter (cell · = position)).map v := by
  rw [List.filterMap_map, ← List.filterMap_eq_map, ← List.filterMap_eq_filter,
    List.filterMap_filterMap]
  refine List.filterMap_congr fun x _ => ?_
  simp only [Function.comp_apply, Option.some.injEq, Option.guard, decide_eq_true_eq]
  split <;> rfl

section Collect

variable {β : Type} {project : List Nat → Checked (Option Nat)} {value : List Nat → Checked β}
  {cell : List Nat → Nat} {v : List Nat → β} {idxs : List (List Nat)}

theorem collect_yields
    (h : ∀ idx ∈ idxs, Yields (project idx) (some (cell idx)) ∧ Yields (value idx) (v idx))
    (position : Nat) :
    Yields (collect project value idxs position) ((idxs.filter (cell · = position)).map v) := by
  refine .bind (Yields.mapM (g := fun idx => (some (cell idx), v idx)) fun idx hi => ?_)
    (.of_eq (.pure _) (filterMap_cells cell v idxs position))
  exact .bind (h idx hi).1 (.bind (h idx hi).2 (.pure _))

theorem collect_eq_ok
    (h : ∀ idx ∈ idxs, project idx = .ok (some (cell idx)) ∧ value idx = .ok (v idx))
    (position : Nat) :
    collect project value idxs position = .ok ((idxs.filter (cell · = position)).map v) := by
  rw [collect, mapM_eq_ok_of_forall (g := fun idx => (some (cell idx), v idx)) fun idx hi => ?_]
  · exact congrArg Except.ok (filterMap_cells cell v idxs position)
  · rw [(h idx hi).1, (h idx hi).2]
    rfl

end Collect

/-! ## Iterations of another layout -/

/-- What each input slot reads, as a function of the index. -/
def slotsRead (k : Kernel) (idx : List Nat) : List (Option Nat) :=
  k.inputs.map fun o => o.tracker.read (broadcastIndex idx o.shape)

variable {k k' : Kernel}

theorem Sound.slots_yields (hk : k.Sound) {idx : List Nat} (hi : InRange idx k.space) :
    Yields (k.slots idx) (k.slotsRead idx) := by
  refine Yields.mapM fun o ho => ?_
  have ho : o ∈ k.operands := List.mem_cons_of_mem _ ho
  obtain ⟨_, hw⟩ := hk.within o ho
  exact Tracker.index_yields hw (hk.index_inRange ho hi)

theorem Sound.tuples_yields (hk : k.Sound) (position : Nat) :
    Yields (k.tuples position)
      (((indices k.space).filter (k.outCell · = position)).map k.slotsRead) :=
  collect_yields (fun _ hi => have hi := Shape.mem_indices.mp hi
    ⟨hk.placed.index_output hi, hk.slots_yields hi⟩) position

theorem Sound.epilogueTuples_yields (hk : k.Sound) (position : Nat) :
    Yields (k.epilogueTuples position)
      (((indices k.output.shape).filter (k.outCell · = position)).map k.slotsRead) := by
  refine collect_yields (fun idx hi => ?_) position
  have hi := Shape.mem_indices.mp hi
  have hspace := hk.placed.inRange_space hi
  have hindex := hk.placed.index_output hspace
  rw [Broadcasts.index_of_inRange hi] at hindex
  exact ⟨hindex, hk.slots_yields hspace⟩

namespace RelabelsBy

variable {φ : List Nat → List Nat}

theorem slotsRead (h : k.RelabelsBy k' φ) {idx : List Nat} (hi : InRange idx k'.space) :
    k'.slotsRead idx = k.slotsRead (φ idx) := by
  have hinputs := (List.forall₂_cons.mp h.operands).2
  rw [Kernel.slotsRead, Kernel.slotsRead, ← List.forall₂_eq_eq_eq, List.forall₂_map_left_iff,
    List.forall₂_map_right_iff]
  exact hinputs.flip.imp fun _ _ ho => ho.2 idx hi

/-- So is the one in which the epilogue writes it. -/
theorem perm_results {β : Type} (h : k.RelabelsBy k' φ) (hk' : k'.Sound) {f g : List Nat → β}
    (hfg : ∀ idx, InRange idx k'.space → g idx = f (φ idx)) (position : Nat) :
    (((indices k'.output.shape).filter (k'.outCell · = position)).map g).Perm
      (((indices k.output.shape).filter (k.outCell · = position)).map f) := by
  have hspace : ∀ idx ∈ indices k'.output.shape, InRange idx k'.space :=
    fun _ hi => hk'.placed.inRange_space (Shape.mem_indices.mp hi)
  refine perm_map_filter h.result (fun idx hi => ?_) fun idx hi => hfg idx (hspace idx hi)
  rw [h.output.2 idx (hspace idx hi)]

end RelabelsBy

/-- One index of the output is written at each position. -/
theorem Sound.filter_outCell (hk : k.Sound) {position : Nat}
    (hp : position < k.output.buffer.len) :
    ∃ idx, InRange idx k.output.shape ∧
      (indices k.output.shape).filter (k.outCell · = position) = [idx] := by
  obtain ⟨idx, hi, rfl⟩ := hk.placed.exists_outCell hp
  refine ⟨idx, hi, Cells.filter_eq_singleton (Shape.nodup_indices _) (Shape.mem_indices.mpr hi)
    fun j hj => ?_⟩
  rw [decide_eq_true_iff]
  exact ⟨hk.placed.outCell_inj (Shape.mem_indices.mp hj) hi, fun e => e ▸ rfl⟩

/-- The tuples read for a position of the output are the same, in another order. -/
theorem Relabels.perm_tuples (h : k.Relabels k') (hk : k.Sound) (hk' : k'.Sound) (position : Nat) :
    ∃ before after, Yields (k.tuples position) before ∧ Yields (k'.tuples position) after ∧
      after.Perm before := by
  obtain ⟨φ, h⟩ := h
  exact ⟨_, _, hk.tuples_yields position, hk'.tuples_yields position,
    h.perm_iterations (fun _ hi => h.slotsRead hi) position⟩

/-- The tuple that the epilogue reads for a position of the output is the same. -/
theorem Relabels.epilogueTuples_eq (h : k.Relabels k') (hk : k.Sound) (hk' : k'.Sound)
    {position : Nat} (hp : position < k.output.buffer.len) :
    ∃ slots, Yields (k.epilogueTuples position) [slots] ∧
      Yields (k'.epilogueTuples position) [slots] := by
  obtain ⟨φ, h⟩ := h
  obtain ⟨idx, -, hidx⟩ := hk.filter_outCell hp
  have hyields := hk.epilogueTuples_yields position
  have hperm := h.perm_results hk' (fun _ hi => h.slotsRead hi) position
  rw [hidx, List.map_singleton] at hyields hperm
  exact ⟨_, hyields, (hk'.epilogueTuples_yields position).of_eq (List.perm_singleton.mp hperm)⟩

/-! ## Evaluation in another layout -/

/-- The values that are folded are all computed, if the evaluation does not overflow. -/
theorem Sound.folded_eq_ok (hk : k.Sound) {data : List (Array Float32)} {op : Reduction}
    {operand : OpTree Nat} {f : List Nat → Float32} (hcheck : k.checkData data = .ok ())
    (hreduced : k.reduced? = some (op, operand))
    (hf : valueFn (k.loadFn data) (fun _ => 0) operand = .ok f)
    (h : k.evaluate data ≠ .error (.fault .overflow)) (position : Nat) :
    k.folded data operand position =
      .ok (((indices k.space).filter (k.outCell · = position)).map f) := by
  have hacc := accumulate_upTo hk data op operand
  rw [hf] at hacc
  rcases hacc with hacc | hacc
  · refine collect_eq_ok (fun idx hi => ?_) position
    obtain ⟨_, _, hstep⟩ := foldlM_eq_ok hacc idx hi
    obtain ⟨value, hvalue, hstep⟩ := bind_eq_ok.mp hstep
    obtain ⟨cell, hcell, -⟩ := bind_eq_ok.mp hstep
    have hi := Shape.mem_indices.mp hi
    have hy := valueOf_upTo (load_upTo hk data hi) (fun _ => 0) operand
    rw [hf] at hy
    refine ⟨?_, ?_⟩
    · rw [project, hcell, (hk.placed.index_output hi).eq_of_ok hcell]
    · rw [hvalue, Yields.eq_of_ok hy hvalue]
  · refine absurd ?_ h
    rw [evaluate, hcheck, hreduced]
    show (liftM (k.accumulate data op operand) >>= _) = _
    rw [hacc]
    rfl

/-- A kernel evaluates to the same in another layout, unless one of the two overflows. -/
theorem Relabels.evaluate_eq (h : k.Relabels k') (hk : k.Sound) (hk' : k'.Sound)
    (data : List (Array Float32))
    (hop : ∀ op operand, k.reduced? = some (op, operand) → ∀ position values,
      k.folded data operand position = .ok values → op.RegularOn values) :
    k'.evaluate data = k.evaluate data ∨ k'.evaluate data = .error (.fault .overflow) ∨
      k.evaluate data = .error (.fault .overflow) := by
  obtain ⟨φ, h⟩ := h
  by_cases hover : k.evaluate data = .error (.fault .overflow)
  · exact .inr (.inr hover)
  refine (evaluate_upTo hk' data).eq_or ((evaluate_upTo hk data).trans_eq ?_)
  refine (h.evaluated_eq hk hk' data fun hcheck op operand hred f g hf hfg i => ?_).symm
  have hregular := hop op operand hred i _ (hk.folded_eq_ok hcheck hred hf hover i)
  exact (hregular.foldl_perm (h.perm_iterations hfg i).symm).symm

/-- Interventions do not change what a kernel computes. For each position of the output the same
tuples are read, in some order, and the epilogue reads the same one. The kernel evaluates to the
same on all data for which a reduction in it may fold the values that occur in any order. Either
kernel may overflow where the other one does not. -/
theorem interveneAll_preserves {ast : Ast} {output : Buffer} {is : List Intervention}
    (hleaves : ∀ o, OpTree.Subtree (.leaf o) ast → ∃ size, o.tracker.BuiltOver size)
    (hk : ofAst ast output = .ok k) (h : k.after (is.forM intervene) = .ok k') :
    (∀ position, ∃ before after, Yields (k.tuples position) before ∧
      Yields (k'.tuples position) after ∧ after.Perm before) ∧
    (∀ position < k.output.buffer.len, ∃ slots, Yields (k.epilogueTuples position) [slots] ∧
      Yields (k'.epilogueTuples position) [slots]) ∧
    ∀ data, (∀ op operand, k.reduced? = some (op, operand) → ∀ position values,
        k.folded data operand position = .ok values → op.RegularOn values) →
      k'.evaluate data = k.evaluate data ∨ k'.evaluate data = .error (.fault .overflow) ∨
        k.evaluate data = .error (.fault .overflow) := by
  have hsound := sound_ofAst hleaves hk
  obtain ⟨hsound', hrelabels⟩ := hsound.interveneAll h
  exact ⟨hrelabels.perm_tuples hsound hsound',
    fun _ hp => hrelabels.epilogueTuples_eq hsound hsound' hp,
    hrelabels.evaluate_eq hsound hsound'⟩

/-- The two inner axes of a tensor are summed, one of them is unrolled by 2 and then they are
exchanged. The first element of the sum is made of the same elements, in another order. -/
theorem perm_tuples_sum :
    ∃ k k' before after,
      ofAst (.node 0 (.reduce .sum [2, 1, 1]) [.leaf ⟨⟨0, 16⟩, ⟨.row [2, 2, 4], []⟩⟩]) ⟨1, 2⟩ =
        .ok k ∧
      k.after ([Intervention.unroll 2 2, .swap 1 2].forM intervene) = .ok k' ∧
      k.tuples 0 = .ok before ∧ k'.tuples 0 = .ok after ∧ before ≠ after ∧ after.Perm before := by
  have hk : ofAst (.node 0 (.reduce .sum [2, 1, 1]) [.leaf ⟨⟨0, 16⟩, ⟨.row [2, 2, 4], []⟩⟩])
      ⟨1, 2⟩ = .ok ⟨.node 0 (.reduce .sum [2, 1, 1]) [.leaf 1], ⟨⟨1, 2⟩, ⟨.row [2, 1, 1], []⟩⟩,
        [⟨⟨0, 16⟩, ⟨.row [2, 2, 4], []⟩⟩], 0⟩ :=
    (ofAst_single rfl _ _ _).trans rfl
  have hleaves : ∀ o : Operand, OpTree.Subtree (.leaf o) (.node 0 (.reduce .sum [2, 1, 1])
      [.leaf ⟨⟨0, 16⟩, ⟨.row [2, 2, 4], []⟩⟩]) → ∃ size, o.tracker.BuiltOver size := by
    intro o ho
    obtain rfl := OpTree.subtree_single ho
    exact ⟨16, [2, 2, 4], [], rfl, by decide, rfl⟩
  obtain ⟨before, after, hbefore, hafter, hperm⟩ := (interveneAll_preserves hleaves hk
    (show Kernel.after _ ([Intervention.unroll 2 2, .swap 1 2].forM intervene) = .ok _ from
      rfl)).1 0
  have hbefore := hbefore.eq_of_ok rfl
  have hafter := hafter.eq_of_ok rfl
  refine ⟨_, _, _, _, hk, rfl, rfl, rfl, by decide, ?_⟩
  rw [hafter, hbefore]
  exact hperm

/-- A tensor whose first element lies far from the origin of the padded axes. -/
def farElement : Operand :=
  ⟨⟨0, 1⟩, ⟨⟨-4611686018427387904, [⟨4, 2305843009213693952, 2, 4⟩,
    ⟨5, -576460752303423488, 3, 5⟩, ⟨4, 1152921504606846976, 2, 4⟩, ⟨1, 0, 0, 1⟩]⟩, []⟩⟩

/-- The kernel that copies it. -/
def farCopy : Kernel :=
  ⟨.node 0 (.unary .noop) [.leaf 1], ⟨⟨1, 80⟩, ⟨.row [4, 5, 4], []⟩⟩,
    [⟨⟨0, 1⟩, ⟨⟨-4611686018427387904, farElement.tracker.top.axes.take 3⟩, []⟩⟩], 0⟩

/-- The kernel that copies it with two axes exchanged. -/
def farCopySwapped : Kernel :=
  ⟨.node 0 (.unary .noop) [.leaf 1], ⟨⟨1, 80⟩, ⟨(View.row [4, 5, 4]).permute [0, 2, 1], []⟩⟩,
    [⟨⟨0, 1⟩, ⟨(View.mk (-4611686018427387904)
      (farElement.tracker.top.axes.take 3)).permute [0, 2, 1], []⟩⟩], 0⟩

/-- A layout in which index arithmetic overflows can come from one in which it does not: the terms
of an offset are added in the order of the axes. -/
theorem not_forall_evaluate_eq :
    ¬ ∀ ast output k k' (is : List Intervention) data,
      (∀ o, OpTree.Subtree (.leaf o) ast → ∃ size, o.tracker.BuiltOver size) →
      ofAst ast output = .ok k → k.after (is.forM intervene) = .ok k' → k.reduced? = none →
        k'.evaluate data = k.evaluate data := by
  intro h
  have hleaves : ∀ o, OpTree.Subtree (.leaf o) (.node 0 (.unary .noop) [.leaf farElement]) →
      ∃ size, o.tracker.BuiltOver size := by
    intro o ho
    obtain rfl := OpTree.subtree_single ho
    exact ⟨_, [2, 2, 2, 576460752303423488],
      [.shrink [(0, 2), (0, 2), (0, 2), (0, 1)], .stride [1, 1, -1, 1],
        .pad [(2, 0), (2, 0), (3, 0), (0, 0)], .permute [0, 2, 1, 3]], rfl, by decide, rfl⟩
  have hk : ofAst (.node 0 (.unary .noop) [.leaf farElement]) ⟨1, 80⟩ = .ok farCopy :=
    (ofAst_single rfl _ _ _).trans rfl
  have hk' : farCopy.after ([.swap 1 2].forM intervene) = .ok farCopySwapped := rfl
  have hreduced : farCopy.reduced? = none := by
    simp only [reduced?, farCopy, OpTree.find?, OpTree.nodes, OpTree.walk_single]
    rfl
  have heq := congrArg Except.isOk (h _ _ _ _ _ [#[1]] hleaves hk hk' hreduced)
  have hbefore : (farCopy.evaluate [#[1]]).isOk = true := by
    simp only [evaluate, hreduced]
    decide +kernel
  have hafter : (farCopySwapped.evaluate [#[1]]).isOk = false := by
    have hreduced' : farCopySwapped.reduced? = none := hreduced
    simp only [evaluate, hreduced']
    decide +kernel
  rw [hbefore, hafter] at heq
  cases heq

end Kernel

end TensorLoom
