import TensorLoom.Proofs.Kernel.Counted
import TensorLoom.Proofs.Source.Plan

/-!
# There is a source

The source of a kernel can be generated if a signed word counts the elements of its operands and the
table of its unrolled indices fits into the address space. Otherwise a number may overflow a word,
or the table be refused (`Kernel.Shaped.source_meets`). Nothing else goes wrong: the inputs that the
tree names are there, and no size is 0. What it takes to write the source down is not counted there
but in `Kernel.Room`.
-/

namespace TensorLoom

/-! ## Addresses -/

namespace IndexExpr

/-- Coordinates overflow only if the elements of the shape are not counted. -/
theorem coordinatesAndSpan_meets (offset : IndexExpr) (outermost : Bool) (shape : List Nat) :
    Meets (coordinatesAndSpan offset outermost shape) (Fault.OfSize ¬ Shape.Counted shape)
      fun r => r.2 = shape.prod := by
  induction shape generalizing outermost with
  | nil => exact Eq.refl 1
  | cons dim inner ih =>
    have hinner : ¬ Shape.Counted inner → ¬ Shape.Counted (dim :: inner) :=
      mt fun h => h.of_cons.1
    refine .bind ((ih false).mono (fun _ => Fault.OfSize.mono hinner) fun _ => id) ?_
    rintro ⟨rest, span⟩ rfl
    refine .bind (P := (· = inner.prod * dim)) (.of_yields (Word.mul_yields _ _) fun h => ?_) ?_
    · have hfits := (not_not.mp h).fits
      rw [List.prod_cons, Nat.mul_comm] at hfits
      exact Word.mul_eq (Nat.lt_trans hfits Shape.half_lt_bound)
    · rintro _ rfl
      exact .pure (Nat.mul_comm _ _)

theorem coordinates_meets (offset : IndexExpr) (shape : List Nat) :
    Meets (offset.coordinates shape) (Fault.OfSize ¬ Shape.Counted shape) fun _ => True := by
  rw [coordinates, map_eq_pure_bind]
  exact .bind (coordinatesAndSpan_meets _ _ _) fun _ _ => .pure trivial

end IndexExpr

namespace Tracker

theorem address_meets (t : Tracker) (idx : List IndexExpr) :
    Meets (t.address idx) (Fault.OfSize ¬ t.Counted) fun _ => True := by
  obtain ⟨top, below⟩ := t
  rw [address]
  induction below generalizing idx top with
  | nil => exact .pure trivial
  | cons next below ih =>
    have hlower : Counted ⟨top, next :: below⟩ → Counted ⟨next, below⟩ := fun h v hv =>
      h v (List.mem_cons_of_mem _ hv)
    have hnext : Counted ⟨top, next :: below⟩ → Shape.Counted next.shape := fun h =>
      (hlower h).shape
    refine .bind ((IndexExpr.coordinates_meets _ _).mono
      (fun _ => Fault.OfSize.mono (mt hnext)) fun _ => id) fun _ _ => ?_
    exact .bind ((ih _ _).mono (fun _ => Fault.OfSize.mono (mt hlower)) fun _ => id)
      fun _ _ => .pure trivial

end Tracker

/-! ## The axes -/

namespace Grid

variable {sizes leading : List Nat}

theorem merged_meets (hp : ∀ d ∈ leading, 0 < d) (y z : Nat) :
    Meets (merged leading y z) (Fault.OfSize (Word.bound ≤ leading.prod)) fun _ => True := by
  -- a part of the axes has at most as many elements as all of them
  have hpart : ∀ part, List.Sublist part leading →
      Meets (Shape.size part) (Fault.OfSize (Word.bound ≤ leading.prod)) (· = part.prod) := by
    intro part hsub
    refine .of_yields (Shape.size_yields part) fun h => Shape.size_eq
      (fun d hd => hp d (hsub.subset hd)) (Nat.lt_of_le_of_lt ?_ (Nat.not_le.mp h))
    exact Nat.le_of_dvd (Shape.prod_pos hp) hsub.prod_dvd_prod
  refine .bind (.mapM (R := fun _ _ => True) fun entry _ => ?_) fun _ _ =>
    .bind (hpart leading (.refl _)) fun _ _ => .pure trivial
  exact .bind (hpart _ (List.drop_sublist (entry.2 + 1) leading)) fun _ _ => .pure trivial

/-- Axes have a grid, unless a word does not hold the number of their indices. -/
theorem ofSizes_meets (hp : ∀ d ∈ sizes, 0 < d) :
    Meets (ofSizes sizes) (Fault.OfSize (Word.bound ≤ sizes.prod)) fun _ => True := by
  unfold ofSizes
  split
  · exact .pure trivial
  split
  · exact .pure trivial
  split
  · have hsub := List.take_sublist (sizes.length - 2) sizes
    refine (merged_meets (fun d hd => hp d (hsub.subset hd)) _ _).mono
      (fun _ => Fault.OfSize.mono fun h => h.trans ?_) fun _ => id
    exact Nat.le_of_dvd (Shape.prod_pos hp) hsub.prod_dvd_prod
  · -- the last two of more than three axes are two
    rename_i hlen _ hne
    have hdrop : (sizes.drop (sizes.length - 2)).length = 2 := by
      rw [List.length_drop]
      omega
    obtain ⟨y, z, hyz⟩ := List.length_eq_two.mp hdrop
    exact absurd hyz (hne y z)

end Grid

namespace Kernel

variable {k : Kernel}

/-- The indices of some axes fit into a table with 24 bytes for each of them. -/
def TableFits (sizes : List Nat) : Prop := sizes.prod * 24 < Word.half

instance : DecidablePred TableFits := fun _ => Nat.decLt _ _

/-- There is room for a source while it is written: for its lines, in a list that grows twofold and
takes 24 bytes for each of them, and for its text, which grows in the same way. No bound on an
iteration space gives this; the text of a large one exhausts the memory before. -/
def Room (src : KernelSource) : Prop :=
  2 * 24 * src.lines.length < Word.half ∧ 2 * src.text.utf8ByteSize < Word.half

theorem unrolledIndices_meets {sizes : List Nat} (hp : ∀ d ∈ sizes, 0 < d) :
    Meets (unrolledIndices sizes) (Fault.OfSize ¬ TableFits sizes) fun _ => TableFits sizes := by
  have hsize : Meets (Shape.size sizes) (Fault.OfSize ¬ TableFits sizes) (· = sizes.prod) := by
    refine .of_yields (Shape.size_yields sizes) fun h => Shape.size_eq hp ?_
    have hbytes : sizes.prod * 24 < Word.half := not_not.mp h
    have := Shape.half_lt_bound
    omega
  refine .bind hsize ?_
  rintro _ rfl
  unfold Word.table
  split
  · exact .bind (P := fun _ => True) (.pure trivial) fun _ _ => .pure ‹_›
  · exact ⟨.inr rfl, ‹_›⟩

theorem loadValue_meets {number : Nat} (hn : number ≤ k.inputs.length) (idx : List IndexExpr) :
    Meets (k.loadValue idx number) (Fault.OfSize ¬ k.Counted) fun _ => True := by
  have hlt : number < k.operands.length := by
    rw [operands, List.length_cons]
    omega
  refine .bind (P := (· = k.operands[number]))
    (.of_eq_ok (entry_eq_ok.mpr (List.getElem?_eq_getElem hlt)) rfl) ?_
  rintro _ rfl
  have hlarge : ¬ k.operands[number].tracker.Counted → ¬ k.Counted :=
    mt fun h => h _ (List.getElem_mem hlt)
  exact .bind ((Tracker.address_meets _ _).mono (fun _ => Fault.OfSize.mono hlarge) fun _ => id)
    fun _ _ => .pure trivial

/-- A node that is not evaluated has the value zero, so only the leaves of a tree matter. -/
theorem symbolicValue_meets {t : OpTree Nat} (idx : List IndexExpr) (reduced : Value)
    (ht : ∀ number, OpTree.Subtree (.leaf number) t → number ≤ k.inputs.length) :
    Meets (k.symbolicValue idx reduced t) (Fault.OfSize ¬ k.Counted) fun _ => True := by
  have hsource : ∀ {id op sources} {s : OpTree Nat}, s ∈ sources →
      (∀ number, OpTree.Subtree (.leaf number) (.node id op sources) → number ≤ k.inputs.length) →
      ∀ number, OpTree.Subtree (.leaf number) s → number ≤ k.inputs.length :=
    fun hs ht number hn => ht number (.source hn hs)
  fun_induction k.symbolicValue idx reduced t with
  | case1 number => exact loadValue_meets (ht number (.refl _)) idx
  | case2 id op x ih => exact .bind (ih (hsource (by simp) ht)) fun _ _ => .pure trivial
  | case3 id op a b iha ihb =>
    exact .bind (iha (hsource (by simp) ht)) fun _ _ =>
      .bind (ihb (hsource (by simp) ht)) fun _ _ => .pure trivial
  | case4 => exact .pure trivial
  | case5 => exact .pure trivial

theorem storeAt_meets (hk : k.Numbered) (idx : List IndexExpr) (reduced : Value) :
    Meets (k.storeAt idx reduced) (Fault.OfSize ¬ k.Counted) fun _ => True := by
  have hlarge : ¬ k.output.tracker.Counted → ¬ k.Counted := mt fun h => h _ (mem_output k)
  exact .bind (symbolicValue_meets idx reduced hk) fun _ _ =>
    .bind ((Tracker.address_meets _ _).mono (fun _ => Fault.OfSize.mono hlarge) fun _ => id)
      fun _ _ => .pure trivial

/-! ## The source -/

theorem Shaped.loops_eq (hk : k.Shaped) : k.loops = .ok (k.rank - k.unrolled) :=
  loops_of_le hk.unrolled_le

theorem Shaped.exists_spanned (hk : k.Shaped) : ∃ spanned, k.spanned = .ok spanned :=
  exists_spanned_of_le hk.unrolled_le

/-- The sizes of the axes that are unrolled. -/
def unrolledSizes (k : Kernel) : List Nat := k.space.drop (k.rank - k.unrolled)

/-- The marked axes have no more indices than all of them. -/
theorem restrict_le {sizes : List Nat} (hp : ∀ d ∈ sizes, 0 < d) (marks : List Bool) :
    (∀ d ∈ Plan.restrict marks sizes, 0 < d) ∧ (Plan.restrict marks sizes).prod ≤ sizes.prod := by
  induction sizes generalizing marks with
  | nil => simp [Plan.restrict]
  | cons d sizes ih =>
    cases marks with
    | nil => exact ⟨by simp, Nat.succ_le_of_lt (Shape.prod_pos hp)⟩
    | cons mark marks =>
      obtain ⟨hpos, hle⟩ := ih (fun d hd => hp d (List.mem_cons_of_mem _ hd)) marks
      have hd := hp d List.mem_cons_self
      rw [Plan.restrict_cons, List.prod_cons]
      cases mark with
      | false => exact ⟨hpos, Nat.le_trans hle (Nat.le_mul_of_pos_left _ hd)⟩
      | true =>
        rw [if_pos rfl, List.prod_cons]
        exact ⟨fun e he => (List.mem_cons.mp he).elim (· ▸ hd) (hpos e), Nat.mul_le_mul_left d hle⟩

/-- The axes are planned, unless the elements of the output are not counted or the indices of the
unrolled axes do not fit into a table. -/
theorem Shaped.plan_meets (hk : k.Shaped) :
    Meets k.plan (Fault.OfSize ¬ (k.Counted ∧ TableFits k.unrolledSizes))
      fun _ => TableFits k.unrolledSizes := by
  obtain ⟨spanned, hspanned⟩ := hk.exists_spanned
  have hspans : k.Counted → Shape.Counted (k.space.take spanned) := fun h =>
    hk.take_spanned hspanned ▸ ((h _ (mem_output k)).shape.take_drop spanned).1
  have hsizes : ∀ d ∈ k.unrolledSizes, 0 < d := fun d hd =>
    hk.positive d (List.mem_of_mem_drop hd)
  refine .bind (P := (· = k.rank - k.unrolled)) (.of_eq_ok hk.loops_eq rfl) ?_
  rintro _ rfl
  refine .bind (P := (· = spanned)) (.of_eq_ok hspanned rfl) ?_
  rintro _ rfl
  refine .bind ((Grid.ofSizes_meets fun d hd => hk.positive d (List.mem_of_mem_take hd)).mono
    (fun _ => Fault.OfSize.mono fun hle h => ?_) fun _ => id) fun grid _ => ?_
  · exact absurd ((hspans h.1).fits.trans Shape.half_lt_bound) (Nat.not_lt.mpr hle)
  obtain ⟨hpos, hle⟩ := restrict_le hsizes
    ((k.output.shape.drop (k.rank - k.unrolled)).map fun size => decide (1 < size))
  refine .bind ((unrolledIndices_meets hpos).mono (fun _ => Fault.OfSize.mono (mt fun h =>
    Nat.lt_of_le_of_lt (Nat.mul_le_mul_right 24 hle) h.2)) fun _ => id) fun _ _ => ?_
  exact .bind ((unrolledIndices_meets hsizes).mono
    (fun _ => Fault.OfSize.mono (mt And.right)) fun _ => id) fun _ h => .pure h

/-- The source of a kernel is generated, unless a number or a table in it is too large. -/
theorem Shaped.source_meets (hk : k.Shaped) (hn : k.Numbered) :
    Meets k.source (Fault.OfSize ¬ (k.Counted ∧ TableFits k.unrolledSizes))
      fun _ => TableFits k.unrolledSizes := by
  have hlarge : ¬ k.Counted → ¬ (k.Counted ∧ TableFits k.unrolledSizes) := mt And.left
  have hstores : ∀ idx reduced, Meets (k.storeAt idx reduced)
      (Fault.OfSize ¬ (k.Counted ∧ TableFits k.unrolledSizes)) fun _ => True := fun idx reduced =>
    (storeAt_meets hn idx reduced).mono (fun _ => Fault.OfSize.mono hlarge) fun _ => id
  have hname : k.name = .ok _ := bind_eq_ok.mpr ⟨_, hk.loops_eq, rfl⟩
  refine .bind (P := fun _ => True) (.of_eq_ok hname trivial) fun _ _ => ?_
  refine .bind hk.plan_meets fun p hfits => ?_
  cases hr : k.reduced? with
  | none =>
    exact .bind (.mapM (R := fun _ _ => True) fun _ _ => hstores _ _) fun _ _ => .pure hfits
  | some reduced =>
    obtain ⟨op, operand⟩ := reduced
    have hoperand : ∀ idx, Meets (k.symbolicValue idx .zero operand)
        (Fault.OfSize ¬ (k.Counted ∧ TableFits k.unrolledSizes)) fun _ => True := fun idx =>
      (symbolicValue_meets idx .zero fun number hs =>
        hn number (hs.trans (subtree_of_reduced? hr))).mono
          (fun _ => Fault.OfSize.mono hlarge) fun _ => id
    refine .bind (x := k.accumulation p op operand) (P := fun _ => True) ?_ fun _ _ =>
      .bind (.mapM (R := fun _ _ => True) fun _ _ => hstores _ _) fun _ _ => .pure hfits
    exact .bind (.mapM (R := fun _ _ => True) fun _ _ =>
      .bind (hoperand _) fun _ _ => .pure trivial) fun _ _ => .pure trivial

/-- The leaves of a lowered tree are numbered. -/
theorem Grounded.numbered (hk : k.Grounded) : k.Numbered := by
  intro number hs
  cases hk.lowered.subtree hs with
  | leaf _ hn => exact hn

end Kernel

end TensorLoom
