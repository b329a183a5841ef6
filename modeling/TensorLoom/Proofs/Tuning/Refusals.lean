import TensorLoom.Proofs.Tuning.Applied

/-!
# Interventions that cannot be applied

Any two axes may be asked to be exchanged, and any axis to be split by any amount. The axes are
checked first, and an amount that does not divide the sizes of its axis is found out by the reshape
of some operand, which has as many elements afterwards or is refused
(`Tracker.move_reshape_meets`). The one exception is a split by zero: the sizes on the axis are
divided before anything is checked, unless all of them are 1 (`Kernel.intervene_fault_iff`).
-/

namespace TensorLoom

/-! ## Attempts that may be refused -/

/-- Faults of numbers and tables that are too large, where there are some, and all refusals. -/
def Stop.OfSizeOrRefused {ε : Type} (large : Prop) : Stop ε → Prop
  | .fault e => e.OfSize large
  | .refused _ => True

theorem Stop.OfSize.orRefused {ε : Type} {large : Prop} {e : Stop ε} (h : e.OfSize large) :
    e.OfSizeOrRefused large := by
  cases e with
  | fault e => exact h
  | refused e => trivial

theorem Stop.OfSizeOrRefused.mono {ε : Type} {large large' : Prop} (h : large → large')
    {e : Stop ε} (he : e.OfSizeOrRefused large) : e.OfSizeOrRefused large' := by
  cases e with
  | fault e => exact Fault.OfSize.mono h he
  | refused e => trivial

theorem Stop.OfSizeOrRefused.mapRefusal {ε δ : Type} {large : Prop} (f : ε → δ) {e : Stop ε}
    (he : e.OfSizeOrRefused large) : (e.mapRefusal f).OfSizeOrRefused large := by
  cases e with
  | fault e => exact he
  | refused e => trivial

open Intervention (splitShape parts)

namespace Tracker

variable {t : Tracker}

/-- A reshape to a shape whose elements can be counted is accepted only if it is valid, and refused
otherwise. -/
theorem move_reshape_meets {shape : List Nat} (hsize : t.Counted → shape.prod < Word.bound) :
    Meets (t.move (.reshape shape)) (Stop.OfSizeOrRefused ¬ t.Counted)
      fun _ => (Movement.reshape shape).Valid t.shape := by
  by_cases hv : (Movement.reshape shape).Valid t.shape
  case pos =>
    exact (move_meets (.reshape shape) hv).mono (fun _ => Stop.OfSize.orRefused) fun _ _ => hv
  case neg =>
    have hrefused : Meets (t.reshape shape) (Stop.OfSizeOrRefused ¬ t.Counted) fun _ => False := by
      have hcheck : Meets (View.checkShape shape) (Stop.OfSizeOrRefused ¬ t.Counted)
          fun _ => ∀ d ∈ shape, 0 < d := by
        unfold View.checkShape
        split
        · rename_i hpos
          exact .pure (Shape.isPositive_iff.mp hpos)
        · trivial
      refine .bind hcheck fun _ hpos => ?_
      have htarget : Meets (Shape.size shape) (Fault.OfSize ¬ t.Counted) (· = shape.prod) :=
        .of_yields (Shape.size_yields shape) fun hc => Shape.size_eq hpos (hsize (not_not.mp hc))
      refine .bind ((Meets.lift ((Shape.size_meets t.shape).mono
        (fun _ => Fault.OfSize.mono (mt Counted.shape)) fun _ => id)).mono
          (fun _ => Stop.OfSize.orRefused) fun _ => id) ?_
      rintro _ rfl
      refine .bind ((Meets.lift htarget).mono (fun _ => Stop.OfSize.orRefused) fun _ => id) ?_
      rintro _ rfl
      rw [if_pos fun hprod => hv ⟨hpos, hprod⟩]
      trivial
    exact .bind hrefused fun _ h => h.elim

end Tracker

/-! ## Splits by any amount -/

namespace Intervention

/-- An amount divides a size in machine words unless it is zero, and a unit axis is not divided. -/
theorem split_eq_of_divides {axis amount : Nat} {shape : List Nat} (ha : axis < shape.length)
    (h : amount = 0 → shape.getD axis 1 ≤ 1) :
    split axis amount shape = .ok (splitShape axis amount shape) := by
  by_cases hamount : amount = 0
  case neg => exact split_eq ha hamount
  case pos =>
    have hunit := h hamount
    rw [split, splitShape, parts, Kernel.entry_eq_getD ha 1]
    generalize shape.getD axis 1 = size at hunit
    simp [show ¬ 1 < size by omega, bind, Except.bind, pure, Except.pure]

theorem split_eq_zeroDivisor {axis : Nat} {shape : List Nat} (ha : axis < shape.length)
    (h : 1 < shape.getD axis 1) : split axis 0 shape = .error .zeroDivisor := by
  rw [split, Kernel.entry_eq_getD ha 1]
  generalize shape.getD axis 1 = size at h
  simp [h, Word.div, bind, Except.bind]

/-- What is left over of an axis that is split is dropped, so there are no more elements. -/
theorem prod_splitShape_le {axis : Nat} {shape : List Nat} (amount : Nat)
    (ha : axis < shape.length) (hp : ∀ d ∈ shape, 0 < d) :
    (splitShape axis amount shape).prod ≤ shape.prod := by
  have hpos := Shape.positive_iff_getD.mp hp axis
  have hparts : (parts amount (shape.getD axis 1)).1 * (parts amount (shape.getD axis 1)).2 ≤
      shape.getD axis 1 := by
    unfold parts
    split
    · exact Nat.div_mul_le_self _ _
    · omega
  conv_rhs => rw [Kernel.eq_take_append_drop ha]
  rw [splitShape, List.prod_append, List.prod_append, List.prod_cons, List.prod_cons,
    List.prod_cons, ← Nat.mul_assoc (parts _ _).1]
  exact Nat.mul_le_mul_left _ (Nat.mul_le_mul_right _ hparts)

end Intervention

namespace Kernel

variable {k k' : Kernel}

/-- The movements of all operands end as those of each of them do. -/
theorem moveOperands_ends {movement : List Nat → Checked Movement}
    {allowed : Stop KernelError → Prop} {Q : Operand → Prop}
    (h : ∀ o ∈ k.operands, Meets (do
      let m ← liftM (movement o.shape)
      KernelError.ofLayout (o.tracker.move m) : Attempt KernelError Tracker) allowed fun _ => Q o) :
    Meets (k.moveOperands movement) allowed fun _ => ∀ o ∈ k.operands, Q o := by
  have hmoved : ∀ o ∈ k.operands, Meets (do
      let m ← liftM (movement o.shape)
      let tracker ← KernelError.ofLayout (o.tracker.move m)
      pure { o with tracker } : Attempt KernelError Operand) allowed fun _ => Q o := by
    intro o ho
    rw [← bind_assoc]
    exact .bind (h o ho) fun _ hQ => .pure hQ
  refine .bind (hmoved _ (mem_output k)) fun output houtput => ?_
  refine .bind (.mapM (R := fun o _ => Q o) fun o ho => hmoved o (List.mem_cons_of_mem _ ho))
    fun inputs hinputs => .pure (List.forall_mem_cons.mpr ⟨houtput, fun o ho => ?_⟩)
  obtain ⟨_, -, hQ⟩ := exists_of_forall₂_left hinputs ho
  exact hQ

/-! ## What becomes of an intervention -/

/-- An intervention asks for the sizes of an axis to be divided by zero. -/
def DividesByZero (k : Kernel) : Intervention → Prop
  | .swap _ _ => False
  | .unroll axis amount =>
    amount = 0 ∧ axis < k.rank - k.unrolled ∧ 1 < k.space.getD axis 1

/-- How an intervention ends that is not applied. -/
def Denies (k : Kernel) (i : Intervention) : Stop KernelError → Prop
  | .fault cause => cause = .zeroDivisor ∧ k.DividesByZero i
  | .refused _ => ¬ k.DividesByZero i

theorem denies_of_size (hc : k.Counted) {i : Intervention} {e : Stop KernelError}
    (he : e.OfSize ¬ k.Counted) : k.Denies i e :=
  absurd hc he.cause

theorem denies_of_sizeOrRefused (hc : k.Counted) {i : Intervention} (hi : ¬ k.DividesByZero i)
    {e : Stop KernelError} (he : e.OfSizeOrRefused ¬ k.Counted) : k.Denies i e := by
  cases e with
  | fault cause => exact absurd hc he.2
  | refused e => exact hi

theorem Shaped.checkAxis_meets (hk : k.Shaped) (axis : Nat) {i : Intervention}
    (hi : k.rank - k.unrolled ≤ axis → ¬ k.DividesByZero i) :
    Meets (k.checkAxis axis) (k.Denies i) fun _ => axis < k.rank - k.unrolled := by
  refine hk.bind_loops ?_
  split
  · exact .pure ‹_›
  · exact hi (by omega)

theorem Shaped.swap_answers (hk : k.Shaped) (hc : k.Counted) (a b : Nat) :
    Meets (k.after (Kernel.intervene (.swap a b))) (k.Denies (.swap a b)) fun _ => True := by
  by_cases ha : a < k.rank - k.unrolled ∧ b < k.rank - k.unrolled
  case pos =>
    exact (hk.swap_meets ha.1 ha.2).mono (fun _ => denies_of_size hc) fun _ _ => trivial
  case neg =>
    rw [after_swap]
    refine hk.bind_loops ?_
    refine .bind (hk.checkAxis_meets a fun _ => id) fun _ ha' => ?_
    refine .bind (hk.checkAxis_meets b fun _ => id) fun _ hb' => ?_
    exact absurd ⟨ha', hb'⟩ ha

/-- A split ends as the reshape of its operands does, if that comes to nothing. -/
theorem Shaped.unroll_ends (hk : k.Shaped) {axis amount : Nat} (haxis : axis < k.rank - k.unrolled)
    {allowed : Stop KernelError → Prop}
    (h : Meets (k.moveOperands fun shape => do
      return .reshape (← Intervention.split axis amount shape)) allowed fun _ => False) :
    Meets (k.after (Kernel.intervene (.unroll axis amount))) allowed fun _ => False := by
  rw [after_unroll]
  refine hk.bind_loops ?_
  refine .bind (P := fun _ => True) (.of_eq_ok (hk.checkAxis_eq haxis) trivial) fun _ _ => ?_
  rw [relayout_eq]
  refine .bind (P := fun _ => False) ?_ fun _ => False.elim
  exact .bind h fun _ => False.elim

/-- A split that divides by zero comes to nothing else: the operands in front that have size 1 on
the axis are moved, and the first one that has not faults. -/
theorem Shaped.unroll_zeroDivisor (hk : k.Shaped) (hc : k.Counted) {axis : Nat}
    (haxis : axis < k.rank - k.unrolled) (hwide : 1 < k.space.getD axis 1) :
    Meets (k.after (Kernel.intervene (.unroll axis 0))) (· = .fault .zeroDivisor)
      fun _ => False := by
  refine hk.unroll_ends haxis (Meets.mono (moveOperands_ends (Q := fun o => o.shape.getD axis 1 ≤ 1)
    fun o ho => ?_) (fun _ => id) fun _ hnarrow => ?_)
  · have hrank : axis < o.shape.length := by
      rw [hk.aligned o ho]
      omega
    by_cases hunit : o.shape.getD axis 1 ≤ 1
    case neg =>
      rw [Intervention.split_eq_zeroDivisor hrank (by omega)]
      exact (rfl : Stop.fault Fault.zeroDivisor = _)
    case pos =>
      have hpos := Shape.positive_iff_getD.mp (hk.positive_operand ho) axis
      have hone : o.shape.getD axis 1 = 1 := by omega
      have hvalid : (Movement.reshape (splitShape axis 0 o.shape)).Valid o.shape :=
        valid_split hrank (hk.positive_operand ho) (by rw [hone]; rfl)
      rw [Intervention.split_eq_of_divides hrank fun _ => hunit]
      refine ((Tracker.move_meets (.reshape _) hvalid).mapError fun e he => ?_).mono (fun _ => id)
        fun _ _ => hunit
      exact absurd (hc o ho) he.cause
  · obtain ⟨o, ho, hattained⟩ := hk.aligned.exists_getD_space axis
    have := hnarrow o ho
    omega

/-- Any other split is applied if it is valid for every operand, and refused if it is not. -/
theorem Shaped.unroll_answers (hk : k.Shaped) (hc : k.Counted) {axis amount : Nat}
    (hi : ¬ k.DividesByZero (.unroll axis amount)) :
    Meets (k.after (Kernel.intervene (.unroll axis amount))) (k.Denies (.unroll axis amount))
      fun _ => True := by
  by_cases haxis : axis < k.rank - k.unrolled
  case neg =>
    rw [after_unroll]
    refine hk.bind_loops ?_
    exact .bind (hk.checkAxis_meets axis fun _ => hi) fun _ haxis' => absurd haxis' haxis
  have hrank : ∀ o ∈ k.operands, axis < o.shape.length := fun o ho => by
    rw [hk.aligned o ho]
    omega
  have hsplit : ∀ o ∈ k.operands, Intervention.split axis amount o.shape =
      .ok (splitShape axis amount o.shape) := fun o ho => by
    refine Intervention.split_eq_of_divides (hrank o ho) fun hamount => ?_
    have hle := hk.aligned.getD_le_space ho axis
    have hnarrow : ¬ 1 < k.space.getD axis 1 := fun hwide => hi ⟨hamount, haxis, hwide⟩
    omega
  by_cases hvalid : ∀ o ∈ k.operands,
      (Movement.reshape (splitShape axis amount o.shape)).Valid o.shape
  case pos =>
    exact (hk.unroll_meets haxis fun o ho => ⟨hsplit o ho, hvalid o ho⟩).mono
      (fun _ => denies_of_size hc) fun _ _ => trivial
  case neg =>
    refine (hk.unroll_ends haxis (Meets.mono (moveOperands_ends fun o ho => ?_) (fun _ => id)
      fun _ => hvalid)).mono (fun _ => id) fun _ _ => trivial
    rw [hsplit o ho]
    refine (Tracker.move_reshape_meets fun hcounted => ?_).mapError fun e he =>
      denies_of_sizeOrRefused hc hi ((he.mono (mt fun h => h o ho)).mapRefusal _)
    have hle := Intervention.prod_splitShape_le amount (hrank o ho) (hk.positive_operand ho)
    exact Nat.lt_of_le_of_lt hle (Nat.lt_trans hcounted.shape.fits Shape.half_lt_bound)

/-- An intervention that is not applied has divided by zero if it asked for that, and has been
refused if it did not. -/
theorem Shaped.intervene_answers (hk : k.Shaped) (hc : k.Counted) (i : Intervention) :
    Meets (k.after (Kernel.intervene i)) (k.Denies i) fun _ => ¬ k.DividesByZero i := by
  cases i with
  | swap a b => exact (hk.swap_answers hc a b).mono (fun _ => id) fun _ _ => id
  | unroll axis amount =>
    by_cases hi : k.DividesByZero (.unroll axis amount)
    case neg => exact (hk.unroll_answers hc hi).mono (fun _ => id) fun _ _ => hi
    case pos =>
      obtain ⟨rfl, haxis, hwide⟩ := id hi
      refine (hk.unroll_zeroDivisor hc haxis hwide).mono ?_ fun _ => False.elim
      rintro _ rfl
      exact ⟨rfl, hi⟩

/-- Whatever interventions have been applied to the kernel of a tree, the next one is applied or
refused, unless it asks for an axis that is wider than 1 to be split by zero. Then, and in no other
case, it faults, and it has divided by zero. -/
theorem intervene_fault_iff {ast : Ast} {output : Buffer} {is : List Intervention}
    (hleaves : ast.Counted) (hlen : output.len < Word.half) (hk : ast.tuned output is = .ok k)
    (i : Intervention) (cause : Fault) :
    k.after (Kernel.intervene i) = .error (.fault cause) ↔
      cause = .zeroDivisor ∧ k.DividesByZero i := by
  have hanswers := (Ast.shaped_of_tuned hk).intervene_answers
    (Ast.counted_of_tuned hleaves hlen hk) i
  constructor
  · exact hanswers.of_error
  · rintro ⟨rfl, hzero⟩
    rcases hres : k.after (Kernel.intervene i) with (cause | e) | k'
    · rw [(hanswers.of_error hres).1]
    · exact absurd hzero (hanswers.of_error hres)
    · exact absurd hzero (hanswers.of_ok hres)

/-- The axis that is summed along has been split. Splitting it again by zero faults, and by any
other amount it does not. -/
theorem intervene_fault_innerSum :
    ∃ k, innerSumTree.tuned ⟨1, 6⟩ [.unroll 2 2] = .ok k ∧
      k.after (Kernel.intervene (.unroll 2 0)) = .error (.fault .zeroDivisor) ∧
      ∀ amount cause, amount ≠ 0 →
        k.after (Kernel.intervene (.unroll 2 amount)) ≠ .error (.fault cause) := by
  obtain ⟨k, hafter⟩ : ∃ k, innerSum.after (Kernel.intervene (.unroll 2 2)) = .ok k := ⟨_, rfl⟩
  have hk : innerSumTree.tuned ⟨1, 6⟩ [.unroll 2 2] = .ok k := by
    rw [Ast.tuned, ofAst_innerSumTree]
    exact bind_eq_ok.mpr ⟨innerSum, rfl, (innerSum.after_bind _ _).trans (by rw [hafter]; rfl)⟩
  have hiff := intervene_fault_iff counted_innerSumTree (by decide) hk
  refine ⟨k, hk, (hiff (.unroll 2 0) .zeroDivisor).mpr ⟨rfl, rfl, ?_⟩, fun amount cause hne h => ?_⟩
  · cases hafter
    decide
  · exact hne ((hiff (.unroll 2 amount) cause).mp h).2.1

/-- A split by zero is not refused. The kernel that copies four elements faults when its axis is to
be split by zero. -/
theorem not_forall_intervene_answers :
    ¬ ∀ (ast : Ast) (output : Buffer) (is : List Intervention) (k : Kernel) (i : Intervention),
      ast.Counted → output.len < Word.half → ast.tuned output is = .ok k →
        ∀ cause, k.after (Kernel.intervene i) ≠ .error (.fault cause) := by
  intro h
  have hstart : ofAst (.node 0 (.unary .noop) [.leaf ⟨⟨0, 4⟩, ⟨.row [4], []⟩⟩]) ⟨1, 4⟩ =
      .ok ⟨.node 0 (.unary .noop) [.leaf 1], ⟨⟨1, 4⟩, ⟨.row [4], []⟩⟩,
        [⟨⟨0, 4⟩, ⟨.row [4], []⟩⟩], 0⟩ :=
    (ofAst_single rfl _ _ _).trans rfl
  have hleaves : Ast.Counted (.node 0 (.unary .noop) [.leaf ⟨⟨0, 4⟩, ⟨.row [4], []⟩⟩]) := by
    intro o ho v hv
    obtain rfl := OpTree.subtree_single ho
    obtain rfl := List.mem_singleton.mp hv
    exact ⟨by decide, by decide⟩
  exact h _ ⟨1, 4⟩ [] _ (.unroll 0 0) hleaves (by decide) (bind_eq_ok.mpr ⟨_, hstart, rfl⟩)
    .zeroDivisor rfl

end Kernel

end TensorLoom
