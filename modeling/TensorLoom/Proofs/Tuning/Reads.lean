import TensorLoom.Proofs.Tuning.Applied

/-!
# Kernels that read inside their buffers

A leaf pairs a buffer with a tracker, and the length of the one is never held against the other. A
kernel moves the trackers of its operands and leaves their buffers alone, so what its operands read
is decided by the leaves: from trackers that end with their buffers it never leads to others, and
every operand reads inside its buffer at every index of the iteration space
(`Ast.reads_inside_buffers`).

A tree with a leaf that reads beyond its buffer is lowered all the same
(`Ast.not_forall_reads_inside_buffers`).
-/

namespace TensorLoom

open Shape (InRange)

/-- The tracker of every leaf ends with the buffer of the leaf. -/
def Ast.Confined (ast : Ast) : Prop := ∀ o, OpTree.Subtree (.leaf o) ast → o.Confined

/-- Trackers that movements have made of row-major buffers end with their buffers. -/
theorem Ast.confined_of_builtOver {ast : Ast} (h : ∀ o, OpTree.Subtree (.leaf o) ast →
    ∃ size ≤ o.buffer.len, o.tracker.BuiltOver size) : ast.Confined := by
  intro o ho
  obtain ⟨size, hle, hbuilt⟩ := h o ho
  exact hbuilt.within.confined hle

namespace Kernel

variable {k k' : Kernel}

/-- The operands of the kernel of a tree are its leaves, and an output that has as many elements as
its buffer. -/
theorem confined_ofAst {ast : Ast} {output : Buffer} (hleaves : ast.Confined)
    (h : ofAst ast output = .ok k) : k.Confined := by
  obtain ⟨full, tracker, hsize, -, htracker, hcarries⟩ := carries_ofAst h
  refine hcarries.confined fun o ho => ?_
  rcases List.mem_cons.mp ho with rfl | ho
  · exact Tracker.confined_ofShape htracker (Nat.le_of_eq hsize.symm)
  · exact hleaves o (Ast.subtree_of_belowReshape
      (OpTree.subtree_of_mem_leaves (List.mem_eraseDups.mp ho)))

theorem Confined.intervene {i : Intervention} (hk : k.Confined)
    (h : k.after (Kernel.intervene i) = .ok k') : k'.Confined := by
  obtain ⟨r, hr, rfl⟩ := carries_intervene h
  exact hr.confined hk

end Kernel

namespace Ast

variable {ast : Ast} {output : Buffer} {is : List Intervention} {k : Kernel}

/-- Whatever interventions have been applied to the kernel of a tree whose trackers end with their
buffers, each of its operands reads inside its buffer at every index of the iteration space. -/
theorem reads_inside_buffers (hleaves : ast.Confined) (h : ast.tuned output is = .ok k)
    {o : Operand} (ho : o ∈ k.operands) {idx : List Nat} (hi : InRange idx k.space) {p : Nat}
    (hp : o.tracker.index (broadcastIndex idx o.shape) = .ok (some p)) : p < o.buffer.len := by
  have hconfined : k.Confined :=
    tuned_induction (fun _ => Kernel.confined_ofAst hleaves) Kernel.Confined.intervene h
  exact (hconfined o ho).index_lt ((shaped_of_tuned h).index_inRange ho hi) hp

/-- A matrix of four elements that is padded with a row, transposed and flattened, which takes two
views, and summed up. -/
def paddedColumns : Ast :=
  .node 0 (.reduce .sum [1])
    [.leaf ⟨⟨0, 4⟩, ⟨.row [6], [⟨-2, [⟨2, 1, 0, 2⟩, ⟨3, 2, 1, 3⟩]⟩]⟩⟩]

theorem confined_paddedColumns : paddedColumns.Confined := by
  refine confined_of_builtOver fun o ho => ?_
  obtain rfl := OpTree.subtree_single ho
  exact ⟨4, by decide, [2, 2], [.pad [(1, 0), (0, 0)], .permute [1, 0], .reshape [6]], rfl,
    by decide, rfl⟩

/-- The axis is split, and the last index reads the last element of the buffer. -/
theorem reads_inside_buffers_paddedColumns :
    ∃ k o, paddedColumns.tuned ⟨1, 1⟩ [.unroll 0 2] = .ok k ∧ o ∈ k.inputs ∧ k.space = [3, 2] ∧
      o.tracker.index (broadcastIndex [2, 1] o.shape) = .ok (some 3) ∧ 3 < o.buffer.len := by
  have htuned : paddedColumns.tuned ⟨1, 1⟩ [.unroll 0 2] = .ok
      ⟨.node 0 (.reduce .sum [1]) [.leaf 1], ⟨⟨1, 1⟩, ⟨.row [1, 1], []⟩⟩,
        [⟨⟨0, 4⟩, ⟨.row [3, 2], [⟨-2, [⟨2, 1, 0, 2⟩, ⟨3, 2, 1, 3⟩]⟩]⟩⟩], 1⟩ := by
    rw [tuned, paddedColumns, Kernel.ofAst_single rfl]
    rfl
  have hmem : ∀ o : Operand, o ∈ [o] := List.mem_singleton_self
  exact ⟨_, _, htuned, hmem _, rfl, rfl, reads_inside_buffers confined_paddedColumns htuned
    (List.mem_cons_of_mem _ (hmem _)) (show InRange [2, 1] [3, 2] by decide) rfl⟩

/-- The length of a buffer is not held against its tracker. A tree that copies four elements of a
buffer of two is lowered, and reads the positions behind the end. -/
theorem not_forall_reads_inside_buffers :
    ¬ ∀ ast output start k, Kernel.ofAst ast output = .ok start → start.Offered k →
      ∀ o ∈ k.inputs, ∀ idx, InRange idx k.space → ∀ p,
        o.tracker.index (broadcastIndex idx o.shape) = .ok (some p) → p < o.buffer.len := by
  intro h
  have hstart : Kernel.ofAst (.node 0 (.unary .noop) [.leaf ⟨⟨0, 2⟩, ⟨.row [4], []⟩⟩]) ⟨1, 4⟩ =
      .ok ⟨.node 0 (.unary .noop) [.leaf 1], ⟨⟨1, 4⟩, ⟨.row [4], []⟩⟩,
        [⟨⟨0, 2⟩, ⟨.row [4], []⟩⟩], 0⟩ :=
    (Kernel.ofAst_single rfl _ _ _).trans rfl
  have hlt := h _ _ _ _ hstart .start _ (List.mem_singleton_self _) [3] (by decide) 3 rfl
  revert hlt
  decide

/-- Every second position of a buffer, of which the last two are lost behind its four elements. -/
def everyOther : Operand :=
  ⟨⟨0, 4⟩, ⟨⟨0, [⟨2, 4, 0, 2⟩, ⟨2, 2, 0, 2⟩]⟩, [.row [4]]⟩⟩

theorem everyOther_reads_inside {idx : List Nat} (hi : InRange idx everyOther.shape) {p : Nat}
    (hp : everyOther.tracker.index idx = .ok (some p)) : p < everyOther.buffer.len := by
  have hreads : (Shape.indices everyOther.shape).map everyOther.tracker.index =
      [.ok (some 0), .ok (some 2), .ok none, .ok none] := rfl
  have hmem := List.mem_map_of_mem (f := everyOther.tracker.index) (Shape.mem_indices.mpr hi)
  rw [hreads, hp] at hmem
  simp only [List.mem_cons, Except.ok.injEq, Option.some.injEq, reduceCtorEq, List.not_mem_nil,
    or_false] at hmem
  show p < 4
  omega

/-- It is not enough that every leaf reads inside its buffer. When two axes are exchanged, the
row-major view is dropped at which positions have been lost. -/
theorem not_forall_reads_inside_of_leaves :
    ¬ ∀ (ast : Ast) output is k, ast.tuned output is = .ok k →
      (∀ o, OpTree.Subtree (.leaf o) ast → ∀ idx, InRange idx o.shape → ∀ p,
        o.tracker.index idx = .ok (some p) → p < o.buffer.len) →
      ∀ o ∈ k.inputs, ∀ idx, InRange idx k.space → ∀ p,
        o.tracker.index (broadcastIndex idx o.shape) = .ok (some p) → p < o.buffer.len := by
  intro h
  have htuned : Ast.tuned (.node 0 (.unary .noop) [.leaf everyOther]) ⟨1, 4⟩ [.swap 0 1] =
      .ok ⟨.node 0 (.unary .noop) [.leaf 1],
        ⟨⟨1, 4⟩, ⟨⟨0, [⟨2, 1, 0, 2⟩, ⟨2, 2, 0, 2⟩]⟩, []⟩⟩,
        [⟨⟨0, 4⟩, ⟨⟨0, [⟨2, 2, 0, 2⟩, ⟨2, 4, 0, 2⟩]⟩, []⟩⟩], 0⟩ := by
    rw [tuned, Kernel.ofAst_single rfl]
    rfl
  have hlt := h _ _ _ _ htuned (fun o ho idx hi p hp => by
    obtain rfl := OpTree.subtree_single ho
    exact everyOther_reads_inside hi hp) _ (List.mem_singleton_self _) [1, 1] (by decide) 6 rfl
  revert hlt
  decide

end Ast

end TensorLoom
