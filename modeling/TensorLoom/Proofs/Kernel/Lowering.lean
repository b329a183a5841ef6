import TensorLoom.Kernel.Lowering
import TensorLoom.Proofs.Kernel.Iterations
import TensorLoom.Proofs.Tuning.Intervention
import TensorLoom.Proofs.OpTree.Walk
import TensorLoom.Proofs.OpTree.MapLeaves

/-!
# Lowered kernels are sound

The kernel of a tree is sound if the trackers of its leaves have been built by movements
(`Kernel.sound_ofAst`). It starts with the shapes of the leaves as they are
(`Kernel.sound_initial`), and then only its layout is changed: unit axes are dropped, and the
reduced axes are put last. Neither changes the order in which a reduction folds
(`Kernel.keepsOrder_ofAst`).
-/

namespace TensorLoom

open Shape (InRange)

/-- A tracker made by movements of a row-major buffer of `size` elements. -/
def Tracker.BuiltOver (size : Nat) (t : Tracker) : Prop :=
  ∃ shape ms, shape.prod = size ∧ Movement.AllFit shape ms ∧
    (do (← Tracker.ofShape shape).moveAll ms) = .ok t

theorem Tracker.BuiltOver.within {size : Nat} {t : Tracker} (h : t.BuiltOver size) :
    t.Within size := by
  obtain ⟨shape, ms, rfl, hf, ht⟩ := h
  have hp : ∀ d ∈ shape, 0 < d := by
    obtain ⟨start, hstart, -⟩ := bind_eq_ok.mp ht
    exact ((Tracker.ofShape_settles hf.head).of_ok hstart).1
  exact ((Tracker.ofShape_moveAll_settles hp ms hf).of_ok ht).2.1

namespace Ast

theorem requireBroadcast_eq_ok {full shape : List Nat} {u : Unit}
    (h : requireBroadcast full shape = .ok u) : Broadcasts shape full := by
  unfold requireBroadcast at h
  split at h
  · cases h
  rename_i hl
  have hl : shape.length = full.length := not_not.mp hl
  split at h
  · obtain ⟨_, -, h⟩ := bind_eq_ok.mp h
    obtain ⟨_, -, h⟩ := bind_eq_ok.mp h
    cases h
  · rename_i hnone
    exact Broadcasts.iff_forall₂.mpr <|
      (Tracker.findIdx?_eq_none_iff_forall₂ (R := fun d f => d = 1 ∨ d = f) hl
        fun d f => by simp only [decide_eq_false_iff_not]; tauto).mp hnone

theorem forM_eq_ok {ε α : Type} {xs : List α} {f : α → Except ε Unit} {u : Unit}
    (h : xs.forM f = .ok u) : ∀ x ∈ xs, f x = .ok () := by
  induction xs with
  | nil => intro x hx; cases hx
  | cons x xs ih =>
    obtain ⟨_, hx, h⟩ := bind_eq_ok.mp (show (f x >>= fun _ => xs.forM f) = .ok u from h)
    intro y hy
    rcases List.mem_cons.mp hy with rfl | hy
    · exact hx
    · exact ih h y hy

/-- The leaves below a reshape at the root are leaves of the tree. -/
theorem subtree_of_belowReshape {ast : Ast} {o : Operand}
    (h : OpTree.Subtree (.leaf o) (belowReshape ast).1) : OpTree.Subtree (.leaf o) ast := by
  unfold belowReshape at h
  split at h
  · rename_i id shape source
    cases source with
    | leaf x =>
      refine .source ?_ List.mem_cons_self
      cases h with
      | source h hm =>
        obtain rfl := List.mem_singleton.mp hm
        exact h
    | node id' op sources => exact .source h List.mem_cons_self
  · exact h

/-- All leaves broadcast to the space of them, which is as large as some leaf on each axis and has
no empty axis. -/
theorem spaceOf_eq_ok {leaves : List Operand} {full : List Nat} (h : spaceOf leaves = .ok full) :
    (∀ o ∈ leaves, Broadcasts o.shape full) ∧
      (∀ i, ∃ o ∈ leaves, o.shape.getD i 1 = full.getD i 1) ∧ ∀ d ∈ full, 0 < d := by
  unfold spaceOf at h
  split at h
  · cases h
  rename_i first rest
  dsimp only at h
  split at h
  · cases h
  rename_i hnone
  obtain ⟨_, hall, h⟩ := bind_eq_ok.mp h
  obtain rfl := pure_eq_ok.mp h
  have hb := fun o ho => requireBroadcast_eq_ok (forM_eq_ok hall o ho)
  have hrank : ∀ s ∈ (first :: rest).map (·.shape),
      s.length = (List.replicate first.shape.length 1).length := by
    intro s hs
    obtain ⟨o, ho, rfl⟩ := List.mem_map.mp hs
    simpa using List.find?_eq_none.mp hnone o ho
  have hunit : ∀ i, (List.replicate first.shape.length 1).getD i 1 = 1 := by
    intro i
    simp [List.getD_eq_getElem?_getD, List.getElem?_replicate]
    split <;> rfl
  refine ⟨hb, fun i => ?_, Shape.positive_iff_getD.mpr fun i => ?_⟩
  · obtain ⟨⟨s, hs, hi⟩, -⟩ := (Kernel.foldl_widen hrank).2 i
    rw [List.foldl_map] at hi
    rcases List.mem_cons.mp hs with rfl | hs
    · -- the space is as large as the unit shape, and so is the first leaf
      refine ⟨first, List.mem_cons_self, ?_⟩
      rw [hunit] at hi
      rcases (hb first List.mem_cons_self).spans i with h1 | h1
      · exact h1.trans hi
      · exact h1
    · obtain ⟨o, ho, rfl⟩ := List.mem_map.mp hs
      exact ⟨o, ho, hi⟩
  · have hle := ((Kernel.foldl_widen hrank).2 i).2 _ List.mem_cons_self
    rwa [hunit, List.foldl_map] at hle

end Ast

namespace Kernel

variable {k k' : Kernel}

/-! ## Unit axes and reduced axes -/

/-- The axes of the space that are kept. -/
def keptAxes (k : Kernel) : List Nat :=
  (List.range k.space.length).filter fun i => k.space[i]? ≠ some 1

/-- A shape without the unit axes of the space. -/
def squeezed (k : Kernel) (shape : List Nat) : List Nat :=
  if k.keptAxes.isEmpty then [1] else k.keptAxes.map (shape.getD · 1)

/-- The movement that drops the unit axes. -/
theorem squeeze_eq_ok (shape : List Nat) {m : Movement}
    (h : ((k.keptAxes.mapM (entry shape) >>= fun sizes =>
      pure (if sizes.isEmpty then [1] else sizes)) >>= fun target =>
        (pure (.reshape target) : Checked Movement)) = .ok m) :
    m = .reshape (k.squeezed shape) := by
  obtain ⟨target, htarget, h⟩ := bind_eq_ok.mp h
  obtain ⟨sizes, hsizes, htarget⟩ := bind_eq_ok.mp htarget
  obtain rfl := pure_eq_ok.mp htarget
  obtain rfl : sizes = k.keptAxes.map (shape.getD · 1) :=
    forall₂_eq_map ((mapM_eq_ok hsizes).imp fun _ _ hx => (getD_of_entry hx 1).symm)
  rw [← pure_eq_ok.mp h, squeezed, List.isEmpty_map]

theorem squeezed_eq {shape : List Nat} (h : shape.length = k.space.length) :
    k.squeezed shape = Shape.withoutUnits k.space shape := by
  rw [squeezed, Shape.withoutUnits, ← Shape.map_getD_filter h, List.isEmpty_map]
  rfl

theorem lt_length_of_mem_keptAxes {i : Nat} (h : i ∈ k.keptAxes) : i < k.space.length :=
  List.mem_range.mp (List.mem_filter.mp h).1

/-- Dropping the unit axes leaves every index where it is in the order. -/
theorem Relaid.keepsOrder_squeezed (h : k.Relaid k' k.squeezed) (hk : k.Sound)
    (hr : k.Rearranges k' fun s => .reshape (k.squeezed s)) : k.KeepsOrder k' := by
  have hlen : ∀ o ∈ k.operands, o.shape.length = k.space.length :=
    fun o ho => (hk.broadcasts o ho).rank
  have hall : ∀ o ∈ k.operands, List.Forall₂ (fun d f => d = 1 ∨ d = f) o.shape k.space :=
    fun o ho => Broadcasts.iff_forall₂.mp (hk.broadcasts o ho)
  have hself : List.Forall₂ (fun d f => d = 1 ∨ d = f) k.space k.space :=
    Broadcasts.iff_forall₂.mp (.refl _)
  -- an index stands for the one that has 0 on the unit axes
  have hrelabel : ∀ s, List.Forall₂ (fun d f => d = 1 ∨ d = f) s k.space → ∀ idx,
      InRange idx (k.squeezed s) →
        (Movement.reshape (k.squeezed s)).relabel s idx = Shape.restore k.space idx := by
    intro s hs idx hi
    rw [squeezed_eq hs.length_eq] at hi ⊢
    obtain ⟨hin, hpos⟩ := Shape.restore_withoutUnits hs hi
    rw [Movement.relabel_reshape, ← hpos, Shape.indexAt_position hin]
  have hprod : k.space.prod = (k.squeezed k.space).prod := by
    rw [squeezed_eq rfl, Shape.prod_withoutUnits hself]
  have hvalid : (Movement.reshape (k.squeezed k.space)).Valid k.space :=
    ⟨List.prod_pos_iff_forall_pos_nat.mp (hprod ▸ Shape.prod_pos hk.positive_space), hprod⟩
  refine (h.relabels (m := .reshape (k.squeezed k.space)) (φ := Shape.restore k.space) hk hr
    (.reshape _) hvalid rfl (hrelabel _ hself) (fun _ _ => .reshape _)
    (fun o ho _ => hrelabel _ (hall o ho)) fun o ho idx hi => ?_).keepsOrder ?_
  · rw [h.space, squeezed_eq rfl] at hi
    rw [squeezed_eq (hlen o ho)]
    exact Shape.restore_broadcast_withoutUnits (hall o ho) hi
  · rw [h.space, squeezed_eq rfl]
    exact Shape.map_indices_eq (Shape.prod_withoutUnits hself)
      fun idx hi => Shape.restore_withoutUnits hself hi

/-- The kernel after unit axes have been dropped. -/
theorem Sound.dropUnitAxes (hk : k.Sound) (hu : k.unrolled = 0)
    (h : k.dropUnitAxes = .ok k') :
    ∃ f, k.Relaid k' f ∧ k'.unrolled = 0 ∧ k.KeepsOrder k' := by
  unfold Kernel.dropUnitAxes at h
  dsimp only at h
  split at h
  · obtain rfl := pure_eq_ok.mp h
    exact ⟨id, ⟨hk, rfl, rfl, List.forall₂_same.mpr fun _ _ => ⟨rfl, rfl, .refl _⟩⟩, hu, .refl k⟩
  obtain ⟨r, hr, -, hperm, h⟩ := relayout_eq_ok h
  have hkept : ∀ i ∈ k.keptAxes, i < k.rank := by
    intro i hi
    rw [← hk.length_space]
    exact lt_length_of_mem_keptAxes hi
  have hfits : ∀ o ∈ k.operands, (Movement.reshape (k.squeezed o.shape)).Valid o.shape →
      ∀ d ∈ (Movement.reshape (k.squeezed o.shape)).resultShape o.shape, d < Word.half := by
    intro o ho _ d hd
    rw [Movement.resultShape, squeezed] at hd
    split at hd
    · obtain rfl := List.mem_singleton.mp hd
      decide
    · obtain ⟨i, hi, rfl⟩ := List.mem_map.mp hd
      have hi : i < o.shape.length := by
        rw [hk.aligned o ho]
        exact hkept i hi
      rw [List.getD_eq_getElem _ _ hi]
      exact hk.fits ho _ (List.getElem_mem hi)
  obtain ⟨hmoved, hu'⟩ := hk.moveOperands (fun s => .reshape (k.squeezed s))
    (fun o _ m hm => squeeze_eq_ok o.shape hm) hfits hr
  have hrelaid := hk.relaid hmoved (axisMap_select hkept) (fun _ _ => ⟨.reshape _, rfl⟩)
    (by rw [hu', hu]; exact Nat.zero_le _)
  have hordered := hrelaid.keepsOrder_squeezed hk hmoved
  rw [← hu'] at hperm h
  obtain ⟨hrelaid', hu'', -⟩ := hrelaid.sound.permuted hperm h
  have hordered' := hrelaid.sound.permuted_keepsOrder hperm
    (List.pairwise_lt_range.imp fun hab _ _ => hab) h
  exact ⟨_, hrelaid.trans hrelaid', by rw [hu'', hu', hu], hordered.trans hordered'⟩

/-- Whether an axis is one of those that are put last. -/
def isReducedAxis (k : Kernel) (i : Nat) : Bool :=
  k.output.shape[i]? = some 1 && k.space[i]? ≠ some 1

/-- The reduced axes keep their order when they are put last. -/
theorem Shaped.pairwise_reducedLast (hk : k.Shaped) :
    ((List.range k.space.length).filter (not ∘ k.isReducedAxis) ++
        (List.range k.space.length).filter k.isReducedAxis).Pairwise fun a b =>
      Shape.IsReduced k.output.shape k.space a → Shape.IsReduced k.output.shape k.space b →
        a < b := by
  have hkept : ∀ a ∈ (List.range k.space.length).filter (not ∘ k.isReducedAxis),
      ¬ Shape.IsReduced k.output.shape k.space a := by
    rintro a ha ⟨hout, hspace⟩
    obtain ⟨ha, hnot⟩ := List.mem_filter.mp ha
    obtain ⟨hout', hspace'⟩ := hk.getElem?_eq (List.mem_range.mp ha)
    have hreduced : k.isReducedAxis a = true := by
      rw [isReducedAxis, hout', hspace', hout]
      simpa using hspace
    rw [Function.comp_apply, hreduced] at hnot
    cases hnot
  refine List.pairwise_append.mpr ⟨?_, ?_, fun a ha b _ h => absurd h (hkept a ha)⟩
  · exact List.pairwise_of_forall_mem_list fun a ha _ _ h => absurd h (hkept a ha)
  · exact (List.pairwise_lt_range.filter _).imp fun hab _ _ => hab

/-- The kernel after the reduced axes have been put last. -/
theorem Sound.putReducedLast (hk : k.Sound) (h : k.putReducedLast = .ok k') :
    ∃ f, k.Relaid k' f ∧ k'.unrolled = k.unrolled ∧ k.KeepsOrder k' := by
  unfold Kernel.putReducedLast at h
  dsimp only at h
  rw [List.partition_eq_filter_filter] at h
  dsimp only at h
  split at h
  · obtain rfl := pure_eq_ok.mp h
    exact ⟨id, ⟨hk, rfl, rfl, List.forall₂_same.mpr fun _ _ => ⟨rfl, rfl, .refl _⟩⟩, rfl, .refl k⟩
  · obtain ⟨r, hr, -, hperm, h⟩ := relayout_eq_ok h
    obtain rfl := pure_eq_ok.mp hr
    obtain ⟨hrelaid, hu, -⟩ := hk.permuted hperm h
    exact ⟨_, hrelaid, hu, hk.permuted_keepsOrder hperm hk.shaped.pairwise_reducedLast h⟩

/-! ## The kernel of a tree -/

/-- The kernel of the tree below a reshape, in the layout of its leaves. -/
def initial (root : Ast) (full : List Nat) (output : Buffer) : Kernel where
  ast := Id.run (root.mapLeaves pure fun leaf =>
    pure (1 + root.leaves.eraseDups.findIdx (· = leaf)))
  output := ⟨output, ⟨.row (Ast.resultShape root full), []⟩⟩
  inputs := root.leaves.eraseDups
  unrolled := 0

theorem sound_initial {root : Ast} {full : List Nat} {output : Buffer}
    (hleaves : ∀ o ∈ root.leaves, ∃ bound, o.tracker.Within bound)
    (hspace : Ast.spaceOf root.leaves = .ok full)
    (hout : Broadcasts (Ast.resultShape root full) full)
    (hlen : output.len = (Ast.resultShape root full).prod) :
    (initial root full output).Sound ∧ (initial root full output).space = full := by
  obtain ⟨hb, hattained, hpos⟩ := Ast.spaceOf_eq_ok hspace
  have hfits : ∀ d ∈ Ast.resultShape root full, d < Word.half := by
    intro d hd
    obtain ⟨i, hi, rfl⟩ := List.getElem_of_mem hd
    rw [← List.getD_eq_getElem _ 1 hi]
    rcases hout.spans i with h1 | h1
    · rw [h1]
      decide
    · obtain ⟨o, ho, ho'⟩ := hattained i
      obtain ⟨_, hw⟩ := hleaves o ho
      have hio : i < o.shape.length := by rwa [(hb o ho).rank, ← hout.rank]
      rw [h1, ← ho', List.getD_eq_getElem _ _ hio]
      exact hw.fits _ (List.getElem_mem hio)
  have hshape : (initial root full output).output.shape = Ast.resultShape root full :=
    View.shape_row _
  have hoperands : ∀ o ∈ (initial root full output).operands,
      o = (initial root full output).output ∨ o ∈ root.leaves := by
    intro o ho
    exact (List.mem_cons.mp ho).imp_right List.mem_eraseDups.mp
  have hbroadcasts : ∀ o ∈ (initial root full output).operands, Broadcasts o.shape full := by
    intro o ho
    rcases hoperands o ho with rfl | ho
    · rwa [hshape]
    · exact hb o ho
  obtain ⟨-, hfull⟩ := space_eq hbroadcasts (fun i => by
    obtain ⟨o, ho, hi⟩ := hattained i
    exact ⟨o, List.mem_cons_of_mem _ (List.mem_eraseDups.mpr ho), hi⟩) hpos
  refine ⟨⟨fun o ho => ?_, fun o ho => ?_, ?_, Nat.zero_le _⟩, hfull⟩
  · rw [hfull]
    exact hbroadcasts o ho
  · rcases hoperands o ho with rfl | ho
    · exact ⟨_, Tracker.within_row (hout.positive hpos) hfits⟩
    · exact hleaves o ho
  · rw [show (initial root full output).output.buffer.len = output.len from rfl, hlen]
    exact Tracker.Enumerates.row _

/-- What has been checked of a tree whose output has a size. -/
theorem resultSize_eq_ok {ast : Ast} {len : Nat} (h : ast.resultSize = .ok len) :
    ∃ full, Ast.checkOps (Ast.belowReshape ast).1 = .ok () ∧
      Ast.spaceOf (Ast.belowReshape ast).1.leaves = .ok full ∧
      Broadcasts (Ast.resultShape (Ast.belowReshape ast).1 full) full ∧
      len = (Ast.resultShape (Ast.belowReshape ast).1 full).prod := by
  unfold Ast.resultSize at h
  generalize Ast.belowReshape ast = below at h ⊢
  obtain ⟨root, reshape⟩ := below
  obtain ⟨_, hops, h⟩ := bind_eq_ok.mp h
  obtain ⟨full, hspace, h⟩ := bind_eq_ok.mp h
  obtain ⟨_, hout, h⟩ := bind_eq_ok.mp h
  refine ⟨full, hops, hspace, Ast.requireBroadcast_eq_ok hout, ?_⟩
  cases reshape with
  | none => exact (Shape.size_yields _).eq_of_ok (liftM_eq_ok.mp h)
  | some shape =>
    obtain ⟨targetSize, -, h⟩ := bind_eq_ok.mp h
    obtain ⟨size, hsize, h⟩ := bind_eq_ok.mp h
    split at h
    · cases h
    · rw [← pure_eq_ok.mp h]
      exact (Shape.size_yields _).eq_of_ok (liftM_eq_ok.mp hsize)

/-- The stages in which the kernel of a tree is made. -/
theorem ofAst_stages {ast : Ast} {output : Buffer} (h : ofAst ast output = .ok k) :
    ∃ full tracker k₁, Ast.checkOps (Ast.belowReshape ast).1 = .ok () ∧
      Ast.spaceOf (Ast.belowReshape ast).1.leaves = .ok full ∧
      Broadcasts (Ast.resultShape (Ast.belowReshape ast).1 full) full ∧
      output.len = (Ast.resultShape (Ast.belowReshape ast).1 full).prod ∧
      Tracker.ofShape (Ast.resultShape (Ast.belowReshape ast).1 full) = .ok tracker ∧
      { initial (Ast.belowReshape ast).1 full output with
        output := ⟨output, tracker⟩ }.dropUnitAxes = .ok k₁ ∧ k₁.putReducedLast = .ok k := by
  obtain ⟨len, hlen, h⟩ := bind_eq_ok.mp h
  obtain ⟨full, hops, hspace, hout, rfl⟩ := resultSize_eq_ok hlen
  split at h
  · cases h
  rename_i hsize
  obtain ⟨full', hspace', h⟩ := bind_eq_ok.mp h
  obtain rfl : full = full' := Except.ok.inj (hspace.symm.trans hspace')
  obtain ⟨tracker, htracker, h⟩ := bind_eq_ok.mp h
  obtain ⟨k₁, hk₁, hk⟩ := bind_eq_ok.mp h
  exact ⟨full, tracker, k₁, hops, hspace, hout, not_not.mp hsize, ofLayout_eq_ok.mp htracker, hk₁,
    hk⟩

/-- The stages, if the trackers of the leaves stay inside their buffers. -/
theorem ofAst_eq_ok {ast : Ast} {output : Buffer}
    (hleaves : ∀ o ∈ (Ast.belowReshape ast).1.leaves, ∃ bound, o.tracker.Within bound)
    (h : ofAst ast output = .ok k) :
    ∃ full k₁, Ast.checkOps (Ast.belowReshape ast).1 = .ok () ∧
      Ast.spaceOf (Ast.belowReshape ast).1.leaves = .ok full ∧
      output.len = (Ast.resultShape (Ast.belowReshape ast).1 full).prod ∧
      (initial (Ast.belowReshape ast).1 full output).Sound ∧
      (initial (Ast.belowReshape ast).1 full output).space = full ∧
      (initial (Ast.belowReshape ast).1 full output).dropUnitAxes = .ok k₁ ∧
      k₁.putReducedLast = .ok k := by
  obtain ⟨full, tracker, k₁, hops, hspace, hout, hsize, htracker, hk₁, hk⟩ := ofAst_stages h
  obtain ⟨hsound, hfull⟩ := sound_initial hleaves hspace hout hsize
  have hfits := hsound.fits (mem_output _)
  rw [show (initial (Ast.belowReshape ast).1 full output).output.shape =
    Ast.resultShape (Ast.belowReshape ast).1 full from View.shape_row _] at hfits
  obtain rfl := ((Tracker.ofShape_settles hfits).of_ok htracker).2
  exact ⟨full, k₁, hops, hspace, hsize, hsound, hfull, hk₁, hk⟩

/-- A reduction in the kernel of a tree folds in the order of the original axes. -/
theorem keepsOrder_ofAst {ast : Ast} {output : Buffer}
    (hleaves : ∀ o ∈ (Ast.belowReshape ast).1.leaves, ∃ bound, o.tracker.Within bound)
    (h : ofAst ast output = .ok k) :
    ∃ full, Ast.checkOps (Ast.belowReshape ast).1 = .ok () ∧
      Ast.spaceOf (Ast.belowReshape ast).1.leaves = .ok full ∧
      output.len = (Ast.resultShape (Ast.belowReshape ast).1 full).prod ∧
      (initial (Ast.belowReshape ast).1 full output).space = full ∧
      (initial (Ast.belowReshape ast).1 full output).Sound ∧ k.Sound ∧
      (initial (Ast.belowReshape ast).1 full output).KeepsOrder k := by
  obtain ⟨full, k₁, hops, hspace, hsize, hsound, hfull, h₁, h⟩ := ofAst_eq_ok hleaves h
  obtain ⟨_, hrelaid, -, hordered⟩ := hsound.dropUnitAxes rfl h₁
  obtain ⟨_, hrelaid', -, hordered'⟩ := hrelaid.sound.putReducedLast h
  exact ⟨full, hops, hspace, hsize, hfull, hsound, hrelaid'.sound, hordered.trans hordered'⟩

/-- The leaves of a tree stay inside their buffers if movements have built their trackers. -/
theorem within_of_builtOver {ast : Ast}
    (hleaves : ∀ o, OpTree.Subtree (.leaf o) ast → ∃ size, o.tracker.BuiltOver size) :
    ∀ o ∈ (Ast.belowReshape ast).1.leaves, ∃ bound, o.tracker.Within bound := by
  intro o ho
  obtain ⟨size, hsize⟩ :=
    hleaves o (Ast.subtree_of_belowReshape (OpTree.subtree_of_mem_leaves ho))
  exact ⟨size, hsize.within⟩

/-- The kernel of a tree is sound if movements have built the trackers of its leaves. -/
theorem sound_ofAst {ast : Ast} {output : Buffer}
    (hleaves : ∀ o, OpTree.Subtree (.leaf o) ast → ∃ size, o.tracker.BuiltOver size)
    (h : ofAst ast output = .ok k) : k.Sound := by
  obtain ⟨_, -, -, -, -, -, hsound, -⟩ := keepsOrder_ofAst (within_of_builtOver hleaves) h
  exact hsound

/-- The shape of what a single operation computes in the iteration space. -/
def singleShape (full : List Nat) : Op → List Nat
  | .reduce _ shape => shape
  | _ => full

/-- How the kernel of a single operation of a leaf is made. -/
theorem ofAst_single {op : Op} (h : Ast.isLowered op = true) (id : Nat) (x : Operand)
    (output : Buffer) :
    ofAst (.node id op [.leaf x]) output = (do
      let full ← Ast.spaceOf [x]
      Ast.requireBroadcast full (singleShape full op)
      let len ← Shape.size (singleShape full op)
      if output.len ≠ len then refuse (.device (.sizeMismatch len output.len))
      else
        let tracker ← KernelError.ofLayout (Tracker.ofShape (singleShape full op))
        let k ← dropUnitAxes ⟨.node id op [.leaf 1], ⟨output, tracker⟩, [x], 0⟩
        k.putReducedLast) := by
  have hbelow : Ast.belowReshape (.node id op [.leaf x]) = (.node id op [.leaf x], none) := by
    cases op <;> first | rfl | cases h
  have hops : Ast.checkOps (.node id op [.leaf x]) = pure () := by
    simp only [Ast.checkOps, OpTree.ops, OpTree.nodes, OpTree.walk_single]
    cases op <;> first | rfl | cases h
  have hshape : ∀ full, Ast.resultShape (.node id op [.leaf x]) full = singleShape full op := by
    intro full
    simp only [Ast.resultShape, OpTree.find?, OpTree.nodes, OpTree.walk_single]
    cases op <;> rfl
  have hleaves : (OpTree.node id op [.leaf x]).leaves = [x] := by
    rw [OpTree.leaves, OpTree.walk_single]
  have hinputs : [x].eraseDups = [x] := by simp [List.eraseDups_cons]
  have hnumber : [x].findIdx (· = x) = 0 := by simp [List.findIdx_cons]
  rw [ofAst, Ast.resultSize, hbelow]
  simp only [hops, hshape, hleaves, OpTree.mapLeaves_single, hinputs, hnumber]
  -- the space is computed twice, and it is the same the second time
  rcases Ast.spaceOf [x] with e | full
  · rfl
  · simp only [bind_assoc]
    rfl

end Kernel

end TensorLoom
