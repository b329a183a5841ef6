import TensorLoom.Proofs.Distinct
import TensorLoom.Proofs.Kernel.Counted

/-!
# The normal form of a lowered kernel

Checking a tree and building its kernel are separate passes, and building may fail only where
checking has failed (`Kernel.ofAst_meets`). The kernel that is built is in normal form
(`Kernel.NormalForm`). It has one input for each distinct leaf, in the order in which the leaves
first occur, and the leaves of its tree are the numbers of these inputs. All operands have one rank
and broadcast to the space. No axis has size 1 throughout, unless it is the only one, and the
reduced axes stand behind those that the output spans.

Two changes of the layout lead to this form. Dropping the unit axes leaves none
(`Kernel.Shaped.noUnitAxis_dropUnitAxes`), and putting the reduced axes last keeps it so. Both move
an operand by reshapes and permutations alone (`Operand.Rearranged`).
-/

namespace TensorLoom

/-! ## Operands in other layouts -/

namespace Operand

/-- An operand in another layout. Its tracker has been reshaped and permuted. -/
def Rearranged (o o' : Operand) : Prop :=
  o'.buffer = o.buffer ∧
    ∃ ms : List Movement, (∀ m ∈ ms, m.Keeps) ∧ o.tracker.moveAll ms = .ok o'.tracker

theorem Rearranged.refl (o : Operand) : o.Rearranged o :=
  ⟨rfl, [], fun _ hm => absurd hm List.not_mem_nil, rfl⟩

theorem Rearranged.trans {o o₁ o' : Operand} (h : o.Rearranged o₁) (h' : o₁.Rearranged o') :
    o.Rearranged o' := by
  obtain ⟨hb, ms, hms, ht⟩ := h
  obtain ⟨hb', ms', hms', ht'⟩ := h'
  refine ⟨hb'.trans hb, ms ++ ms', fun m hm => ?_, ?_⟩
  · exact (List.mem_append.mp hm).elim (hms m) (hms' m)
  · rw [Tracker.moveAll, List.foldlM_append]
    exact bind_eq_ok.mpr ⟨_, ht, ht'⟩

theorem rearranged_of_move {o : Operand} {m : Movement} {t : Tracker} (hm : m.Keeps)
    (h : o.tracker.move m = .ok t) : o.Rearranged { o with tracker := t } := by
  refine ⟨rfl, [m], List.forall_mem_singleton.mpr hm, ?_⟩
  rw [Tracker.moveAll, List.foldlM_cons]
  exact bind_eq_ok.mpr ⟨t, h, rfl⟩

end Operand

namespace Kernel

variable {k k₁ k' : Kernel}

/-- All operands of a kernel in other layouts. -/
abbrev Rearranged (k k' : Kernel) : Prop :=
  List.Forall₂ Operand.Rearranged k.operands k'.operands

theorem Rearranged.refl (k : Kernel) : k.Rearranged k :=
  List.forall₂_same.mpr fun o _ => .refl o

theorem Rearranged.trans (h : k.Rearranged k₁) (h' : k₁.Rearranged k') : k.Rearranged k' :=
  forall₂_trans (fun ho ho' => ho.trans ho') h h'

theorem rearranged_moveOperands {movement : List Nat → Checked Movement}
    (hmove : ∀ shape m, movement shape = .ok m → m.Keeps)
    (h : k.moveOperands movement = .ok k') : k.Rearranged k' := by
  obtain ⟨-, -, hmoved⟩ := moveOperands_eq_ok h
  refine hmoved.imp ?_
  rintro o _ ⟨m, t, hm, ht, rfl⟩
  exact Operand.rearranged_of_move (hmove _ m hm) ht

theorem rearranged_relayout {reshape : Option (List Nat → Checked (List Nat))} {order : List Nat}
    (h : k.relayout reshape order = .ok k') : k.Rearranged k' := by
  obtain ⟨r, hr, -, -, h⟩ := relayout_eq_ok h
  have hreshaped : k.Rearranged r := by
    cases reshape with
    | none => exact pure_eq_ok.mp hr ▸ .refl k
    | some f =>
      refine rearranged_moveOperands (fun shape m hm => ?_) hr
      obtain ⟨target, -, hm⟩ := bind_eq_ok.mp hm
      exact pure_eq_ok.mp hm ▸ .reshape target
  rcases h with ⟨-, rfl⟩ | h
  · exact hreshaped
  · exact hreshaped.trans
      (rearranged_moveOperands (fun _ m hm => pure_eq_ok.mp hm ▸ .permute _) h)

theorem rearranged_dropUnitAxes (h : k.dropUnitAxes = .ok k') : k.Rearranged k' := by
  unfold Kernel.dropUnitAxes at h
  dsimp only at h
  split at h
  · exact pure_eq_ok.mp h ▸ .refl k
  · exact rearranged_relayout h

theorem rearranged_putReducedLast (h : k.putReducedLast = .ok k') : k.Rearranged k' := by
  unfold Kernel.putReducedLast at h
  dsimp only at h
  split at h
  · exact pure_eq_ok.mp h ▸ .refl k
  · exact rearranged_relayout h

/-! ## Unit axes -/

/-- No axis of the space has size 1, unless it is the only one. -/
def NoUnitAxis (k : Kernel) : Prop := ∀ i < k.rank, k.space.getD i 1 = 1 → k.rank = 1

theorem NoUnitAxis.permuted {axes : List Nat} (hn : k.NoUnitAxis) (hk : k.Shaped)
    (haxes : axes.Perm (List.range k.rank))
    (h : k.Reshapes k' (Movement.permute axes).resultShape) : k'.NoUnitAxis := by
  have hmap := axisMap_permute haxes
  intro i hi hone
  rw [h.rank hmap] at hi ⊢
  rw [(h.getD hk hmap hi).2] at hone
  have hi' : i < axes.length := by rwa [haxes.length_eq, List.length_range]
  refine hn _ (List.mem_range.mp (haxes.mem_iff.mp ?_)) hone
  rw [List.getD_eq_getElem _ _ hi']
  exact List.getElem_mem hi'

theorem Shaped.wide_of_mem_keptAxes (hk : k.Shaped) {i : Nat} (hi : i ∈ k.keptAxes) :
    k.space.getD i 1 ≠ 1 := by
  obtain ⟨hrange, hne⟩ := List.mem_filter.mp hi
  rw [(hk.getElem?_eq (List.mem_range.mp hrange)).2] at hne
  simpa using hne

/-- Of the axes that are kept none is a unit axis. -/
theorem Reshapes.noUnitAxis_squeezed (h : k.Reshapes k' k.squeezed) (hk : k.Shaped) :
    k'.NoUnitAxis := by
  have hmap : AxisMap k.squeezed k.rank _ _ _ := axisMap_select fun _ => hk.lt_rank_of_mem_keptAxes
  intro i hi hone
  rw [h.rank hmap] at hi ⊢
  rw [(h.getD hk hmap hi).2] at hone
  by_cases hempty : k.keptAxes = []
  · rw [hempty]
    rfl
  have hlen : 0 < k.keptAxes.length := List.length_pos_iff.mpr hempty
  have hi : i < k.keptAxes.length := by omega
  rw [List.getD_eq_getElem _ _ hi] at hone
  exact absurd hone (hk.wide_of_mem_keptAxes (List.getElem_mem hi))

theorem Shaped.noUnitAxis_dropUnitAxes (hk : k.Shaped) (hu : k.unrolled = 0)
    (h : k.dropUnitAxes = .ok k') : k'.NoUnitAxis := by
  rcases hk.dropUnitAxes_eq_ok hu h with ⟨hall, rfl⟩ | ⟨r, axes, hr, haxes, h⟩
  · intro i hi hone
    have hkept : k'.keptAxes = List.range k'.space.length :=
      List.filter_sublist.eq_of_length (hall.trans List.length_range.symm)
    refine absurd hone (hk.wide_of_mem_keptAxes ?_)
    rw [hkept, hk.length_space]
    exact List.mem_range.mpr hi
  · exact (hr.noUnitAxis_squeezed hk).permuted hr.shaped haxes h

theorem NoUnitAxis.putReducedLast (hn : k.NoUnitAxis) (hk : k.Shaped)
    (h : k.putReducedLast = .ok k') : k'.NoUnitAxis := by
  unfold Kernel.putReducedLast at h
  dsimp only at h
  split at h
  · exact pure_eq_ok.mp h ▸ hn
  · obtain ⟨hperm, hshapes, -⟩ := hk.relayout_none h
    exact hn.permuted hk (perm_axisOrder hperm) hshapes

/-! ## The kernel of a tree -/

end Kernel

/-- The leaves of a tree are also below a reshape at its root. -/
theorem Ast.subtree_belowReshape {ast : Ast} {o : Operand} (h : OpTree.Subtree (.leaf o) ast) :
    OpTree.Subtree (.leaf o) (belowReshape ast).1 := by
  unfold belowReshape
  split
  · rename_i id shape source
    have hs : OpTree.Subtree (.leaf o) source := by
      cases h with
      | source h hm => exact List.mem_singleton.mp hm ▸ h
    cases source with
    | leaf x => exact .source hs List.mem_cons_self
    | node id' op sources => exact hs
  · exact h

namespace Kernel

variable {k : Kernel}

/-- The kernel of a tree in normal form. Axis by axis, the space has the largest size that an
operand has. -/
structure NormalForm (ast : Ast) (output : Buffer) (k : Kernel) : Prop where
  /-- The output is laid out row by row before its axes are rearranged. -/
  output : ∃ shape, shape.prod = output.len ∧
    Operand.Rearranged ⟨output, ⟨.row shape, []⟩⟩ k.output
  /-- There is one input for each distinct leaf, and every leaf is the number of its input. -/
  inputs : ∃ slots, FirstOccurrences (Ast.belowReshape ast).1.leaves slots ∧
    List.Forall₂ Operand.Rearranged slots k.inputs ∧
    ∃ number, k.ast = (Ast.belowReshape ast).1.map number ∧
      ∀ o, OpTree.Subtree (.leaf o) ast → ∃ i, slots[i]? = some o ∧ number o = i + 1
  rank : ∀ o ∈ k.operands, o.shape.length = k.rank
  broadcasts : ∀ o ∈ k.operands, ∀ i < k.rank,
    o.shape[i]? = some 1 ∨ o.shape[i]? = k.space[i]?
  wide : ∀ i < k.rank, (∀ o ∈ k.operands, o.shape[i]? = some 1) → k.rank = 1
  reducedLast : ∀ i < k.rank, ∀ j < k.rank, k.output.shape[i]? = k.space[i]? →
    k.output.shape[j]? ≠ k.space[j]? → i < j
  unrolled : k.unrolled = 0

theorem Shaped.getElem?_operand (hk : k.Shaped) {o : Operand} (ho : o ∈ k.operands) {i : Nat}
    (hi : i < k.rank) : o.shape[i]? = some (o.shape.getD i 1) := by
  have hi' : i < o.shape.length := hk.aligned o ho ▸ hi
  rw [List.getElem?_eq_getElem hi', List.getD_eq_getElem _ _ hi']

/-- An axis on which every operand has size 1 is the only one. -/
theorem NoUnitAxis.wide (hn : k.NoUnitAxis) (hk : k.Shaped) {i : Nat} (hi : i < k.rank)
    (h : ∀ o ∈ k.operands, o.shape[i]? = some 1) : k.rank = 1 := by
  obtain ⟨o, ho, hspace⟩ := hk.aligned.exists_getD_space i
  have hone := h o ho
  rw [hk.getElem?_operand ho hi, Option.some.injEq] at hone
  exact hn i hi (hspace.symm.trans hone)

/-- An axis that the output spans stands in front of one that it does not span. -/
theorem NoUnitAxis.lt_of_spans (hn : k.NoUnitAxis) (ho : k.Ordered) (hu : k.unrolled = 0)
    {i j : Nat} (hi : i < k.rank) (hj : j < k.rank)
    (hspans : k.output.shape.getD i 1 = k.space.getD i 1)
    (hreduced : k.output.shape.getD j 1 ≠ k.space.getD j 1) : i < j := by
  obtain ⟨t, ht, hbefore, hbehind⟩ := ho
  rw [hu, Nat.sub_zero] at ht hbehind
  have htj : t ≤ j := by
    by_contra hlt
    exact hreduced (hbefore j (by omega))
  by_contra hji
  -- then the output has size 1 on the axis that it spans, and there is no other axis
  have hone := hbehind i (by omega) hi
  have hrank := hn i hi (hspans ▸ hone)
  obtain rfl : i = j := by omega
  exact hreduced hspans

/-- Every leaf has the number of an input that is made from it. -/
theorem exists_slot {root : Ast} (hw : root.WellShared) {o : Operand}
    (h : OpTree.Subtree (.leaf o) root) :
    ∃ i, root.leaves.eraseDups[i]? = some o ∧
      1 + root.leaves.eraseDups.findIdx (· = o) = i + 1 := by
  have hmem : o ∈ root.leaves.eraseDups := List.mem_eraseDups.mpr (OpTree.mem_leaves hw h)
  have hlt := List.findIdx_lt_length_of_exists (p := (decide <| · = o)) ⟨o, hmem, by simp⟩
  refine ⟨_, ?_, Nat.add_comm _ _⟩
  rw [List.getElem?_eq_getElem hlt, Option.some.injEq]
  exact of_decide_eq_true (List.findIdx_getElem (w := hlt))

/-- A tree is lowered exactly if the output has the size that checking the tree says, and then its
kernel is in normal form. -/
theorem ofAst_normalForm {ast : Ast} {output : Buffer} (hw : ast.WellShared) (hc : ast.Counted)
    (hlen : output.len < Word.half) :
    ((∃ k, ofAst ast output = .ok k) ↔ ast.resultSize = .ok output.len) ∧
      ∀ k, ofAst ast output = .ok k → NormalForm ast output k := by
  refine ⟨⟨fun ⟨k, hk⟩ => resultSize_of_ofAst hk, fun hsize => ?_⟩, fun k h => ?_⟩
  · obtain ⟨k, hk, -⟩ := (ofAst_meets hsize).exists_ok fun _ he => he.cause ⟨hc, hlen⟩
    exact ⟨k, hk⟩
  -- a kernel with row-major output, then without unit axes, and at last with its axes in order
  obtain ⟨full, tracker, k₁, -, hspace, hout, hsize, htracker, hk₁, hk⟩ := ofAst_stages h
  obtain ⟨-, -, hpos⟩ := Ast.spaceOf_eq_ok hspace
  have hcounted : Shape.Counted (Ast.resultShape (Ast.belowReshape ast).1 full) :=
    ⟨hout.positive hpos, hsize ▸ hlen⟩
  obtain ⟨-, rfl⟩ := (Tracker.ofShape_settles hcounted.dimension_fits).of_ok htracker
  obtain ⟨hstart, -⟩ := shaped_initial output hspace hout (Tracker.shape_ofShape htracker)
  have hcarries := (hstart.lower_meets rfl).of_ok (bind_eq_ok.mpr ⟨k₁, hk₁, hk⟩)
  have hrearranged := (rearranged_dropUnitAxes hk₁).trans (rearranged_putReducedLast hk)
  obtain ⟨houtput, hinputs⟩ := List.forall₂_cons.mp hrearranged
  obtain ⟨_, hreshapes⟩ := hstart.dropUnitAxes rfl hk₁
  have hn := (hstart.noUnitAxis_dropUnitAxes rfl hk₁).putReducedLast hreshapes.shaped hk
  obtain ⟨hshaped, hordered⟩ := ordered_ofAst h
  have hu : k.unrolled = 0 := hcarries.unrolled
  have hroot := Ast.wellShared_belowReshape hw
  have hentry : ∀ i < k.rank, k.output.shape[i]? = some (k.output.shape.getD i 1) ∧
      k.space[i]? = some (k.space.getD i 1) :=
    fun i hi => hshaped.getElem?_eq (hshaped.length_space ▸ hi)
  refine ⟨⟨_, hsize.symm, houtput⟩, ⟨_, firstOccurrences_eraseDups _, hinputs, _,
    hcarries.ast.trans (ast_initial hroot full output),
    fun o ho => exists_slot hroot (Ast.subtree_belowReshape ho)⟩, hshaped.aligned,
    fun o ho i hi => ?_, fun i hi => hn.wide hshaped hi, fun i hi j hj hspans hreduced => ?_, hu⟩
  · rw [hshaped.getElem?_operand ho hi, (hentry i hi).2, Option.some.injEq, Option.some.injEq]
    exact (hshaped.broadcasts o ho).spans i
  · rw [(hentry i hi).1, (hentry i hi).2, Option.some.injEq] at hspans
    rw [(hentry j hj).1, (hentry j hj).2, ne_eq, Option.some.injEq] at hreduced
    exact hn.lt_of_spans hordered hu hi hj hspans hreduced

/-- A tree that sums over the first of three axes, the second of which is a unit axis. -/
def outerSumTree : Ast :=
  .node 0 (.reduce .sum [1, 1, 3]) [.leaf ⟨⟨0, 6⟩, ⟨.row [2, 1, 3], []⟩⟩]

/-- The unit axis is dropped, and the axis that is summed over comes last. -/
theorem normalForm_outerSum : outerSumTree.resultSize = .ok 3 ∧
    ∃ k, ofAst outerSumTree ⟨1, 3⟩ = .ok k ∧ NormalForm outerSumTree ⟨1, 3⟩ k ∧
      k.space = [3, 2] ∧ k.output.shape = [3, 1] := by
  have hw : outerSumTree.WellShared := OpTree.wellShared_single _ _ _
  have hc : outerSumTree.Counted := by
    intro o ho v hv
    obtain rfl := OpTree.subtree_single ho
    obtain rfl := List.mem_singleton.mp hv
    exact ⟨by decide, by decide⟩
  obtain ⟨hsize, hform⟩ := @ofAst_normalForm _ ⟨1, 3⟩ hw hc (by decide)
  obtain ⟨k, hk⟩ : ∃ k, ofAst outerSumTree ⟨1, 3⟩ = .ok k :=
    ⟨_, (ofAst_single rfl _ _ _).trans rfl⟩
  have hspace : k.space = [3, 2] ∧ k.output.shape = [3, 1] := by
    rw [outerSumTree, ofAst_single rfl] at hk
    cases hk
    exact ⟨rfl, rfl⟩
  exact ⟨hsize.mp ⟨k, hk⟩, k, hk, hform k hk, hspace⟩

end Kernel

end TensorLoom
