import TensorLoom.Proofs.Layout.Confinement
import TensorLoom.Proofs.Layout.Forward
import TensorLoom.Proofs.Kernel.Arrangement
import TensorLoom.Proofs.Tuning.Kinds

/-!
# Kernels whose elements are counted

A signed word counts the elements of every operand of a kernel (`Kernel.Counted`). A change of the
layout that is valid for every operand is never refused, and it overflows only if elements are not
counted (`Kernel.moveOperands_meets`, `Kernel.Shaped.relayout_meets`). `Kernel.Carries` says what
the operands have become then.

A tree whose output size is known, with a buffer of that size, is lowered to a kernel unless there
is such an overflow (`Kernel.ofAst_meets`).
-/

namespace TensorLoom

/-- The tracker of an operand ends with its buffer. -/
def Operand.Confined (o : Operand) : Prop := o.tracker.Confined o.buffer.len

/-- An operand that has one place for each element of its buffer, and comes upon them going forwards
only. -/
structure Operand.Covers (o : Operand) : Prop where
  within : o.tracker.Within o.buffer.len
  enumerates : o.tracker.Enumerates o.buffer.len
  forward : o.tracker.Forward
  counted : o.tracker.Counted

theorem Operand.Covers.move {o : Operand} {m : Movement} {t : Tracker} (h : o.Covers)
    (hm : m.Keeps) (hv : m.Valid o.shape) (ht : o.tracker.move m = .ok t) :
    { o with tracker := t }.Covers := by
  have hfits := (h.counted.shape.resultShape hm hv).dimension_fits
  have hmoves := (Tracker.move_settles h.within m fun _ => hfits).of_ok ht
  exact ⟨hmoves.within, h.enumerates.perm (hmoves.perm_readings hm h.within.positive),
    h.forward.move hm hfits ht, ((Tracker.move_meets hm hv).of_ok ht).2 h.counted⟩

theorem Operand.Covers.prod_shape {o : Operand} (h : o.Covers) : o.shape.prod = o.buffer.len := by
  have hlength := h.enumerates.length_eq
  rwa [Tracker.readings, List.length_map, Shape.length_indices, List.length_map,
    List.length_range] at hlength

/-- The position of an index is computed without an overflow. -/
theorem Operand.Covers.index_eq {o : Operand} (h : o.Covers) {idx : List Nat}
    (hi : Shape.InRange idx o.shape) : o.tracker.index idx = .ok (o.tracker.read idx) := by
  have hfits : o.buffer.len ≤ Word.half := h.prod_shape ▸ Nat.le_of_lt h.counted.shape.fits
  exact h.forward.index_eq h.within h.counted hfits hi

/-- A row-major operand covers a buffer of as many elements. -/
theorem Operand.covers_row {buffer : Buffer} {shape : List Nat} (h : Shape.Counted shape)
    (hlen : buffer.len = shape.prod) : Operand.Covers ⟨buffer, ⟨.row shape, []⟩⟩ where
  within := hlen ▸ Tracker.within_row h.positive h.dimension_fits
  enumerates := hlen ▸ Tracker.Enumerates.row shape
  forward v hv := by
    obtain rfl := List.mem_singleton.mp hv
    exact View.forward_row shape
  counted v hv := by
    obtain rfl := List.mem_singleton.mp hv
    exact (View.shape_row shape).symm ▸ h

namespace Kernel

variable {k k₁ k' : Kernel}

/-- A signed word counts the elements of every operand. -/
def Counted (k : Kernel) : Prop := ∀ o ∈ k.operands, o.tracker.Counted

/-- An operand in another layout, of as many elements, that ends with the buffer, has its elements
counted and covers all of them if it has before. -/
structure Relays (o o' : Operand) : Prop where
  buffer : o'.buffer = o.buffer
  prod : o'.shape.prod = o.shape.prod
  confined : o.Confined → o'.Confined
  counted : o.tracker.Counted → o'.tracker.Counted
  covers : o.Covers → o'.Covers

theorem Relays.refl (o : Operand) : Relays o o := ⟨rfl, rfl, id, id, id⟩

theorem Relays.trans {o o₁ o' : Operand} (h : Relays o o₁) (h' : Relays o₁ o') : Relays o o' :=
  ⟨h'.buffer.trans h.buffer, h'.prod.trans h.prod, h'.confined ∘ h.confined,
    h'.counted ∘ h.counted, h'.covers ∘ h.covers⟩

/-- A kernel with the operands of another one in other layouts. -/
structure Carries (k k' : Kernel) : Prop where
  ast : k'.ast = k.ast
  unrolled : k'.unrolled = k.unrolled
  operands : List.Forall₂ Relays k.operands k'.operands

theorem Carries.refl (k : Kernel) : k.Carries k :=
  ⟨rfl, rfl, List.forall₂_same.mpr fun o _ => .refl o⟩

theorem Carries.trans (h : k.Carries k₁) (h' : k₁.Carries k') : k.Carries k' where
  ast := h'.ast.trans h.ast
  unrolled := h'.unrolled.trans h.unrolled
  operands := forall₂_trans .trans h.operands h'.operands

theorem Carries.exists_left (h : k.Carries k') {o' : Operand} (ho' : o' ∈ k'.operands) :
    ∃ o ∈ k.operands, Relays o o' :=
  exists_of_forall₂_right h.operands ho'

theorem Carries.counted (h : k.Carries k') (hk : k.Counted) : k'.Counted := by
  intro o' ho'
  obtain ⟨o, ho, hrelays⟩ := h.exists_left ho'
  exact hrelays.counted (hk o ho)

/-- Every operand ends with its buffer. -/
def Confined (k : Kernel) : Prop := ∀ o ∈ k.operands, o.Confined

theorem Carries.confined (h : k.Carries k') (hk : k.Confined) : k'.Confined := by
  intro o' ho'
  obtain ⟨o, ho, hrelays⟩ := h.exists_left ho'
  exact hrelays.confined (hk o ho)

theorem Carries.buffers_eq (h : k.Carries k') : k'.buffers = k.buffers := by
  have hbuffers : List.Forall₂ (· = ·) k.buffers k'.buffers :=
    List.forall₂_map_left_iff.mpr (List.forall₂_map_right_iff.mpr
      (h.operands.imp fun _ _ ho => ho.buffer.symm))
  rw [List.forall₂_eq_eq_eq] at hbuffers
  exact hbuffers.symm

/-! ## Changes of the layout -/

/-- A movement of every operand that is valid for each of them. -/
theorem moveOperands_meets (k : Kernel) {movement : List Nat → Checked Movement}
    (hmove : ∀ o ∈ k.operands, ∃ m, movement o.shape = .ok m ∧ m.Keeps ∧ m.Valid o.shape) :
    Meets (k.moveOperands movement) (Stop.OfSize ¬ k.Counted) k.Carries := by
  have hmoved : ∀ o ∈ k.operands, Meets (do
      let m ← liftM (movement o.shape)
      let tracker ← KernelError.ofLayout (o.tracker.move m)
      pure { o with tracker } : Attempt KernelError Operand) (Stop.OfSize ¬ k.Counted)
        (Relays o) := by
    intro o ho
    obtain ⟨m, hm, hkeeps, hvalid⟩ := hmove o ho
    refine .bind (P := (· = m)) (.of_eq_ok (liftM_eq_ok.mpr hm) rfl) ?_
    rintro _ rfl
    have hlarge : ¬ o.tracker.Counted → ¬ k.Counted := mt fun h => h o ho
    refine .bind (((Tracker.move_meets hkeeps hvalid).mapError
      fun _ he => (he.mono hlarge).mapRefusal _).and_of_ok fun t => id) ?_
    rintro t ⟨⟨hshape, hcounted⟩, ht⟩
    have ht := mapError_eq_ok.mp ht
    exact .pure ⟨rfl, (congrArg List.prod hshape).trans (hkeeps.prod_resultShape hvalid),
      fun h => h.move hkeeps hvalid ht, hcounted, fun h => h.move hkeeps hvalid ht⟩
  refine .bind (hmoved _ (mem_output k)) fun output houtput => ?_
  refine .bind (.mapM fun o ho => hmoved o (List.mem_cons_of_mem _ ho)) fun inputs hinputs => ?_
  exact .pure ⟨rfl, rfl, .cons houtput hinputs⟩

/-- The ranks of a kernel's operands agree, so a layout may be permuted. -/
theorem Shaped.permute_meets {order : List Nat} (hk : k.Shaped)
    (ho : order.Perm (List.range (k.rank - k.unrolled))) :
    Meets (if k.inputs.any (·.shape.length ≠ k.rank) then refuse (.invalidAxisOrder order k.rank)
        else if !Tracker.isPermutation order (k.rank - k.unrolled) then
          refuse (.invalidAxisOrder order (k.rank - k.unrolled))
        else if order = List.range (k.rank - k.unrolled) then pure k
        else k.moveOperands fun _ => pure (.permute (k.axisOrder order)) :
          Attempt KernelError Kernel)
      (Stop.OfSize ¬ k.Counted) fun k' => k.Carries k' ∧ k'.rank = k.rank := by
  rw [if_neg, if_neg]
  · split
    · exact .pure ⟨.refl k, rfl⟩
    · have hmoved : Meets (k.moveOperands fun _ => pure (.permute (k.axisOrder order)))
          (Stop.OfSize ¬ k.Counted) k.Carries := by
        refine k.moveOperands_meets fun o ho' => ⟨_, rfl, .permute _, ?_⟩
        rw [Movement.Valid, hk.aligned o ho']
        exact perm_axisOrder ho
      exact hmoved.and_of_ok fun k' h =>
        (hk.permuted ho (.inr h)).1.rank (axisMap_permute (perm_axisOrder ho))
  · rw [Tracker.isPermutation_iff.mpr ho]
    decide
  · rw [List.any_eq_true]
    rintro ⟨o, ho', hne⟩
    exact of_decide_eq_true hne (hk.aligned o (List.mem_cons_of_mem _ ho'))

theorem Shaped.relayout_none_meets {order : List Nat} (hk : k.Shaped)
    (ho : order.Perm (List.range (k.rank - k.unrolled))) :
    Meets (k.relayout none order) (Stop.OfSize ¬ k.Counted) k.Carries := by
  rw [relayout_eq]
  exact (hk.permute_meets ho).mono (fun _ => id) fun _ => And.left

/-- A reshape that is valid for every operand, and a permutation of the axes that it leads to. -/
theorem Shaped.relayout_meets {reshape : List Nat → Checked (List Nat)} {f : List Nat → List Nat}
    {len : Nat} {origin : Nat → Nat} {size : Nat → Nat → Nat} {order : List Nat} (hk : k.Shaped)
    (hf : AxisMap f k.rank len origin size) (hu : k.unrolled ≤ len)
    (hreshape : ∀ o ∈ k.operands, reshape o.shape = .ok (f o.shape) ∧
      (Movement.reshape (f o.shape)).Valid o.shape)
    (ho : order.Perm (List.range (len - k.unrolled))) :
    Meets (k.relayout (some reshape) order) (Stop.OfSize ¬ k.Counted)
      fun k' => k.Carries k' ∧ k'.rank = len := by
  rw [relayout_eq]
  have heval : ∀ o ∈ k.operands,
      (do return .reshape (← reshape o.shape) : Checked Movement) = .ok (.reshape (f o.shape)) :=
    fun o ho => by rw [(hreshape o ho).1]; rfl
  have hreshaped : ∀ r, (k.moveOperands fun shape => return .reshape (← reshape shape)) = .ok r →
      k.Reshapes r f := by
    intro r hr
    obtain ⟨hshapes, hu'⟩ := hk.moveOperands (fun o ho m hm => by
      obtain rfl := Except.ok.inj ((heval o ho).symm.trans hm)
      exact ⟨.reshape _, rfl⟩) hr
    exact hk.reshapes hf hshapes (hu' ▸ hu)
  have hmoved : Meets (k.moveOperands fun shape => return .reshape (← reshape shape))
      (Stop.OfSize ¬ k.Counted) k.Carries :=
    k.moveOperands_meets fun o ho => ⟨_, heval o ho, .reshape _, (hreshape o ho).2⟩
  refine .bind (hmoved.and_of_ok hreshaped) ?_
  rintro r ⟨hcarries, hshapes⟩
  have ho : order.Perm (List.range (r.rank - r.unrolled)) := by
    rwa [hshapes.rank hf, hcarries.unrolled]
  rw [← hcarries.unrolled]
  exact (hshapes.shaped.permute_meets ho).mono
    (fun _ => Stop.OfSize.mono (mt hcarries.counted))
    fun _ h => ⟨hcarries.trans h.1, h.2.trans (hshapes.rank hf)⟩

/-! ## Lowering -/

theorem entry_eq_getD {xs : List Nat} {i : Nat} (h : i < xs.length) (d : Nat) :
    entry xs i = .ok (xs.getD i d) := by
  rw [List.getD_eq_getElem _ _ h]
  exact entry_eq h

theorem Shaped.dropUnitAxes_meets (hk : k.Shaped) (hu : k.unrolled = 0) :
    Meets k.dropUnitAxes (Stop.OfSize ¬ k.Counted) k.Carries := by
  unfold Kernel.dropUnitAxes
  dsimp only
  split
  · exact .pure (.refl k)
  have hkept : ∀ i ∈ k.keptAxes, i < k.rank := fun i hi =>
    hk.length_space ▸ lt_length_of_mem_keptAxes hi
  refine (hk.relayout_meets (f := k.squeezed) (axisMap_select hkept) (by omega)
    (fun o ho => ⟨?_, ?_⟩) (by rw [hu]; exact .refl _)).mono (fun _ => id) fun _ => And.left
  · rw [show (List.range k.space.length).filter (fun i => k.space[i]? ≠ some 1) = k.keptAxes from
      rfl, mapM_eq_ok_of_forall fun i hi => entry_eq_getD (hk.aligned o ho ▸ hkept i hi) 1,
      squeezed, ← List.isEmpty_map]
    rfl
  · have hall := Broadcasts.iff_forall₂.mp (hk.broadcasts o ho)
    have hprod : o.shape.prod = (k.squeezed o.shape).prod := by
      rw [squeezed_eq (hk.broadcasts o ho).rank, Shape.prod_withoutUnits hall]
    exact ⟨List.prod_pos_iff_forall_pos_nat.mp
      (hprod ▸ Shape.prod_pos (hk.positive_operand ho)), hprod⟩

theorem Shaped.putReducedLast_meets (hk : k.Shaped) (hu : k.unrolled = 0) :
    Meets k.putReducedLast (Stop.OfSize ¬ k.Counted) k.Carries := by
  unfold Kernel.putReducedLast
  dsimp only
  rw [List.partition_eq_filter_filter]
  dsimp only
  split
  · exact .pure (.refl k)
  · refine hk.relayout_none_meets ?_
    rw [hu, ← hk.length_space]
    exact List.perm_append_comm.trans (List.filter_append_perm _ _)

end Kernel

/-- A signed word counts the elements of every leaf. -/
def Ast.Counted (ast : Ast) : Prop :=
  ∀ o, OpTree.Subtree (.leaf o) ast → o.tracker.Counted

namespace Kernel

variable {k : Kernel} {ast : Ast} {output : Buffer}

theorem Shaped.lower_meets (hk : k.Shaped) (hu : k.unrolled = 0) :
    Meets (do (← k.dropUnitAxes).putReducedLast) (Stop.OfSize ¬ k.Counted) k.Carries := by
  refine .bind ((hk.dropUnitAxes_meets hu).and_of_ok fun _ => hk.dropUnitAxes hu) ?_
  rintro k₁ ⟨hcarries, f, hf⟩
  exact (hf.shaped.putReducedLast_meets (hcarries.unrolled.trans hu)).mono
    (fun _ => Stop.OfSize.mono (mt hcarries.counted)) fun _ => hcarries.trans

theorem resultSize_of_ofAst (h : ofAst ast output = .ok k) : ast.resultSize = .ok output.len := by
  obtain ⟨len, hlen, h⟩ := bind_eq_ok.mp h
  split at h
  · cases h
  · rename_i hsize
    rw [hlen, not_not.mp hsize]

/-- A tree whose output has the size asked for is lowered, unless a number is too large. -/
theorem ofAst_meets (hlen : ast.resultSize = .ok output.len) :
    Meets (ofAst ast output) (Stop.OfSize ¬ (ast.Counted ∧ output.len < Word.half)) fun k =>
      ast.Counted → output.len < Word.half → k.Counted := by
  obtain ⟨full, hops, hspace, hout, hprod⟩ := resultSize_eq_ok hlen
  obtain ⟨-, -, hpos⟩ := Ast.spaceOf_eq_ok hspace
  have hshape : output.len < Word.half →
      Shape.Counted (Ast.resultShape (Ast.belowReshape ast).1 full) :=
    fun h => ⟨hout.positive hpos, hprod ▸ h⟩
  refine .bind (P := (· = output.len)) (.of_eq_ok hlen rfl) ?_
  rintro _ rfl
  rw [if_neg (not_not.mpr rfl)]
  refine .bind (P := (· = full)) (.of_eq_ok hspace rfl) ?_
  rintro full rfl
  have htracker := Tracker.ofShape_meets (hout.positive hpos)
  refine .bind (htracker.mapError fun _ he => (he.mono ?_).mapRefusal _) fun tracker ht => ?_
  · exact mt fun h => hshape h.2
  have hcounted : ast.Counted → output.len < Word.half → Counted
      { initial (Ast.belowReshape ast).1 full output with output := ⟨output, tracker⟩ } := by
    intro hleaves hsize o ho
    rcases List.mem_cons.mp ho with rfl | ho
    · exact ht.2 (hshape hsize)
    · exact hleaves o (Ast.subtree_of_belowReshape
        (OpTree.subtree_of_mem_leaves (List.mem_eraseDups.mp ho)))
  exact ((shaped_initial output hspace hout ht.1).1.lower_meets rfl).mono
    (fun _ => Stop.OfSize.mono (mt fun h => hcounted h.1 h.2))
    fun _ hcarries hleaves hsize => hcarries.counted (hcounted hleaves hsize)

/-- The leaves of the tree have numbers of operands. -/
def Numbered (k : Kernel) : Prop :=
  ∀ number, OpTree.Subtree (.leaf number) k.ast → number ≤ k.inputs.length

theorem Carries.numbered {k' : Kernel} (h : k.Carries k') (hk : k.Numbered) : k'.Numbered := by
  intro number hs
  rw [h.ast] at hs
  rw [← (List.forall₂_cons.mp h.operands).2.length_eq]
  exact hk number hs

/-- Lowering relays the operands of a tree. -/
theorem carries_ofAst (h : ofAst ast output = .ok k) : ∃ full tracker,
    output.len = (Ast.resultShape (Ast.belowReshape ast).1 full).prod ∧
      (∀ d ∈ Ast.resultShape (Ast.belowReshape ast).1 full, 0 < d) ∧
      Tracker.ofShape (Ast.resultShape (Ast.belowReshape ast).1 full) = .ok tracker ∧
      { initial (Ast.belowReshape ast).1 full output with output := ⟨output, tracker⟩ }.Carries
        k := by
  obtain ⟨full, tracker, k₁, -, hspace, hout, hsize, htracker, hk₁, hk⟩ := ofAst_stages h
  obtain ⟨-, -, hpos⟩ := Ast.spaceOf_eq_ok hspace
  obtain ⟨hstart, -⟩ := shaped_initial output hspace hout (Tracker.shape_ofShape htracker)
  exact ⟨full, tracker, hsize, hout.positive hpos, htracker,
    (hstart.lower_meets rfl).of_ok (bind_eq_ok.mpr ⟨k₁, hk₁, hk⟩)⟩

/-- The output of the kernel of a tree is covered. -/
theorem covers_ofAst (hlen : output.len < Word.half) (h : ofAst ast output = .ok k) :
    k.output.Covers ∧ k.output.buffer = output := by
  obtain ⟨full, tracker, hsize, hpos, htracker, hcarries⟩ := carries_ofAst h
  have hrelays := (List.forall₂_cons.mp hcarries.operands).1
  have hcounted : Shape.Counted (Ast.resultShape (Ast.belowReshape ast).1 full) :=
    ⟨hpos, hsize ▸ hlen⟩
  obtain ⟨-, rfl⟩ := (Tracker.ofShape_settles hcounted.dimension_fits).of_ok htracker
  exact ⟨hrelays.covers (Operand.covers_row hcounted hsize), hrelays.buffer⟩

theorem numbered_ofAst (hw : ast.WellShared) (h : ofAst ast output = .ok k) : k.Numbered := by
  obtain ⟨full, tracker, -, -, -, hcarries⟩ := carries_ofAst h
  have hw := Ast.wellShared_belowReshape hw
  refine hcarries.numbered fun number hs => ?_
  rw [show ({ initial (Ast.belowReshape ast).1 full output with
    output := ⟨output, tracker⟩ } : Kernel).ast = _ from ast_initial hw full output] at hs
  obtain ⟨s, hleaf, hnumber⟩ := OpTree.exists_of_subtree_map hs
  cases s with
  | node id op sources =>
    rw [OpTree.map] at hnumber
    cases hnumber
  | leaf o =>
    rw [OpTree.map, OpTree.leaf.injEq] at hnumber
    subst hnumber
    exact number_le (OpTree.mem_leaves hw hleaf)

end Kernel

end TensorLoom
