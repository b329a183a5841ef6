import TensorLoom.Proofs.Session.Additions

/-!
# Refused movements and movements that change nothing

Applying a movement may push it onto the leaves of a tree, which adds tensors and entries of the
memo on the way. What becomes of it is known before: it is refused if a fresh tracker of the
tensor's shape refuses it, and then nothing has changed; otherwise it is carried through, and its
result has the shape of that tracker (`Session.Reachable.movement_settled`).

Whether the tensor itself is the result depends on the fresh tracker, too, and so on the movement
and the shape alone. The tracker is the identity exactly if the movement keeps the shape and takes
every index from itself (`Movement.outcome_settles`), so those movements are dropped and no others
(`Session.Reachable.movement_eq_self_iff`). An answer that is remembered was given to the same
question, about a tensor that has not changed.
-/

namespace TensorLoom

/-- A tracker that leaves a buffer as it is has its shape. -/
theorem Tracker.shape_of_isIdentity {t : Tracker} {shape : List Nat}
    (h : t.isIdentity shape = .ok true) : t.shape = shape := by
  obtain ⟨_, -, h⟩ := bind_eq_ok.mp h
  have h := pure_eq_ok.mp h
  rw [Bool.and_eq_true] at h
  exact of_decide_eq_true h.2

/-- What a movement makes of a row-major buffer is a single view. -/
theorem Dense.below_tracker {shape : List Nat} {m : Movement} {t : Tracker}
    (h : Dense.tracker shape m = .ok t) : t.below = [] := by
  obtain ⟨row, hrow, hmove⟩ := bind_eq_ok.mp h
  obtain ⟨v, hv, rfl⟩ := Tracker.ofShape_eq_ok hrow
  exact Tracker.below_move rfl (View.contiguous_eq_ok hv).2.2.2 hmove

namespace Movement

variable {m : Movement} {shape : List Nat}

theorem outcome_eq_ok {t : Tracker} {same : Bool} :
    m.outcome shape = .ok (t, same) ↔
      Dense.tracker shape m = .ok t ∧ t.isIdentity shape = .ok same := by
  constructor
  · intro h
    obtain ⟨_, ht, h⟩ := bind_eq_ok.mp h
    obtain ⟨_, hsame, e⟩ := bind_eq_ok.mp h
    cases e
    exact ⟨ht, liftM_eq_ok.mp hsame⟩
  · rintro ⟨ht, hsame⟩
    exact bind_eq_ok.mpr ⟨t, ht, bind_eq_ok.mpr ⟨same, liftM_eq_ok.mpr hsame, rfl⟩⟩

/-- Asking whether a tracker is the identity refuses nothing. -/
theorem outcome_refused {cause : LayoutError} :
    m.outcome shape = .error (.refused cause) ↔
      Dense.tracker shape m = .error (.refused cause) := by
  unfold outcome
  cases Dense.tracker shape m with
  | error e => constructor <;> (rintro ⟨⟩; rfl)
  | ok t =>
    refine iff_of_false (fun h => ?_) nofun
    rcases bind_eq_error.mp h with h | ⟨_, e, h⟩
    · cases h
    · cases e
      rcases bind_eq_error.mp h with h | ⟨_, _, h⟩
      · cases hi : t.isIdentity shape <;> (rw [hi] at h; cases h)
      · cases h

/-- A valid movement is not refused, and its tracker is the identity exactly if it changes nothing.
-/
theorem outcome_settles (hp : ∀ d ∈ shape, 0 < d) (hf : AllFit shape [m]) :
    Settles (m.outcome shape) (¬ m.Valid shape) fun o => o.2 = true ↔ m.Fixes shape := by
  have hrow : (⟨.row shape, []⟩ : Tracker).shape = shape := View.shape_row shape
  have hmoves : Settles (Dense.tracker shape m) (¬ m.Valid shape)
      (Tracker.Moves shape.prod ⟨.row shape, []⟩ · m) := by
    refine .bind ((Tracker.ofShape_settles hf.head).mono (fun hn => absurd hp hn)
      fun _ => And.right) ?_
    rintro _ rfl
    have hmove := Tracker.move_settles (Tracker.within_row hp hf.head) m
    rw [hrow] at hmove
    exact hmove fun hv => (hf.2 hv).head
  unfold outcome
  cases ht : Dense.tracker shape m with
  | error e =>
    rw [ht] at hmoves
    cases e <;> exact hmoves
  | ok t =>
    have hm := hmoves.of_ok ht
    have hb := Dense.below_tracker ht
    have hfits : ∀ d ∈ t.shape, d < Word.half := by
      have hv := hm.valid
      rw [hrow] at hv
      rw [hm.shape, hrow]
      exact (hf.2 hv).head
    refine .lift_bind (Tracker.isIdentity_yields hb hfits) (.pure ?_)
    rw [decide_eq_true_iff]
    exact Tracker.isRow_iff_fixes hb hm

end Movement

namespace Session

variable {rules : FusionRules} {s : Session}

/-- A movement gives the tensor itself exactly if its tracker is the identity: every other result
is younger. -/
theorem MovementOf.eq_iff {m : Movement} {x y : TensorId} (h : MovementOf s m x y)
    {shape : List Nat} (hx : s.shape? x = some shape) {t : Tracker} {same : Bool}
    (ht : m.outcome shape = .ok (t, same)) : y = x ↔ same = true := by
  have hsame : ∀ {shape' t' same'}, s.shape? x = some shape' →
      m.outcome shape' = .ok (t', same') → same = same' := by
    intro shape' t' same' hx' ht'
    obtain rfl := Option.some.inj (hx.symm.trans hx')
    cases ht.symm.trans ht'
    rfl
  cases h with
  | same source outcome => exact iff_of_true rfl (hsame source outcome)
  | pushed source outcome _ _ _ source_older _ =>
    obtain rfl := hsame (shape?_of_tensor source) outcome
    exact iff_of_false (Nat.ne_of_gt source_older) Bool.false_ne_true
  | chained source outcome _ _ older =>
    obtain rfl := hsame source outcome
    exact iff_of_false (Nat.ne_of_gt older) Bool.false_ne_true

/-- Data of the host, rectified. -/
def rectified (shape : List Nat) (data : Array Float32) : Session :=
  (exec (Construct.step (.elementwise (.unary .relu) [0]))
    (exec (Construct.step (.host shape data)) (.new .standard)).2).2

theorem rectified_eq {shape : List Nat} {data : Array Float32} (h : hostSize shape data = .ok ()) :
    rectified shape data = (((new .standard).withTensor shape (.host data)).withNode.withTensor
      shape (.deferred .elementwise (.node 0 (.unary .relu) [.leaf 0]))).withElementwise
        (.unary .relu) [0] 1 := by
  have hshape : elementwiseShape (.unary .relu) [shape] = .ok shape := by
    simp [elementwiseShape]
    rfl
  rw [rectified, Construct.step, exec_host_eq, h, Construct.step,
    exec_elementwise_new (.cons rfl .nil) hshape Std.HashMap.getElem?_empty rfl]
  rfl

namespace Reachable

/-- A movement is refused at once or carried through. It is refused if and only if a fresh tracker
of the shape of its operand refuses it, for the same reason; nothing but an overflow on the way to
that tracker, or in looking at it, can stop it otherwise. If it is stopped, no tensor has been made
and nothing has been remembered; if not, its result has the shape of the tracker. -/
theorem movement_settled (h : Reachable rules s) {x : TensorId} {shape : List Nat}
    (hx : s.shape? x = some shape) (m : Movement) :
    let (result, s') := exec (movement m x) s
    (∀ e, result = .error (.refused e) ↔
      ∃ cause, e = .layout cause ∧ Dense.tracker shape m = .error (.refused cause)) ∧
    (∀ fault, result = .error (.fault fault) ↔ m.outcome shape = .error (.fault fault)) ∧
    (∀ e, result = .error e → s' = s) ∧
    ∀ y, result = .ok y →
      ∃ tracker, Dense.tracker shape m = .ok tracker ∧ s'.shape? y = some tracker.shape := by
  obtain ⟨r, hs⟩ := h.coherent
  cases ho : m.outcome shape with
  | error e =>
    rw [hs.exec_movement_error hx ho]
    cases e with
    | fault cause =>
      refine ⟨fun e => iff_of_false nofun ?_, fun _ => ?_, fun _ _ => rfl, nofun⟩
      · rintro ⟨cause', -, ht⟩
        cases ho.symm.trans (Movement.outcome_refused.mpr ht)
      · constructor <;> (rintro ⟨⟩; rfl)
    | refused cause =>
      rw [Movement.outcome_refused.mp ho]
      refine ⟨fun e => ⟨?_, ?_⟩, fun _ => iff_of_false nofun nofun, fun _ _ => rfl, nofun⟩
      · rintro ⟨⟩
        exact ⟨cause, rfl, rfl⟩
      · rintro ⟨_, rfl, ⟨⟩⟩
        rfl
  | ok outcome =>
    obtain ⟨tracker, same⟩ := outcome
    obtain ⟨ht, hsame⟩ := Movement.outcome_eq_ok.mp ho
    obtain ⟨y, s', r', hrun, moved⟩ := hs.exec_movement hx ho
    rw [hrun, ht]
    refine ⟨fun e => ⟨nofun, fun ⟨_, _, e⟩ => by cases e⟩, fun _ => iff_of_false nofun nofun, nofun,
      ?_⟩
    rintro _ ⟨⟩
    refine ⟨tracker, rfl, ?_⟩
    have of := moved.coherent.known_movement _ _ _ moved.known
    have hshape := moved.grows.shape? hx
    cases same with
    | true => rw [of.eq_of_same hshape ho, hshape, Tracker.shape_of_isIdentity hsame]
    | false => exact of.shape_eq hshape ho

/-- A range that leaves its dimension is refused; a transposition is pushed onto the host data. -/
theorem movement_settled_rectified :
    let s := rectified [2, 3] #[1, 2, 3, 4, 5, 6]
    exec (movement (.shrink [(0, 2), (1, 4)]) 1) s =
        (.error (.refused (.layout (.shrinkOutOfBounds 1 1 4 3))), s) ∧
      ∃ y s', exec (movement (.permute [1, 0]) 1) s = (.ok y, s') ∧ s'.shape? y = some [3, 2] := by
  intro s
  have h : Reachable .standard s :=
    construct (construct start (List.forall_mem_nil _)) (by decide)
  have hx : (rectified [2, 3] #[1, 2, 3, 4, 5, 6]).shape? 1 = some [2, 3] := by
    rw [rectified_eq rfl]
    rfl
  constructor
  · obtain ⟨refused, -, kept, -⟩ := movement_settled h hx (.shrink [(0, 2), (1, 4)])
    have hrefused := (refused _).mpr ⟨.shrinkOutOfBounds 1 1 4 3, rfl, rfl⟩
    exact Prod.ext hrefused (kept _ hrefused)
  · have settled := movement_settled h hx (.permute [1, 0])
    generalize exec (movement (.permute [1, 0]) 1) s = run at settled ⊢
    obtain ⟨(fault | e) | y, s'⟩ := run <;> obtain ⟨refused, faulted, -, made⟩ := settled
    · cases (faulted fault).mp rfl
    · obtain ⟨cause, -, ht⟩ := (refused e).mp rfl
      cases ht
    · obtain ⟨tracker, ht, hshape⟩ := made y rfl
      cases ht
      exact ⟨y, s', rfl, hshape⟩

/-- The movements that are dropped are those that keep the shape of a tensor and take every index
from itself. Any other valid movement gives another tensor. -/
theorem movement_eq_self_iff (h : Reachable rules s) {x : TensorId} {shape : List Nat}
    (hx : s.shape? x = some shape) {m : Movement} (hf : Movement.AllFit shape [m])
    (hv : m.Valid shape) (hno : m.outcome shape ≠ .error (.fault .overflow)) :
    ∃ y s', exec (movement m x) s = (.ok y, s') ∧ (y = x ↔ m.Fixes shape) := by
  obtain ⟨r, hs⟩ := h.coherent
  have hp : ∀ d ∈ shape, 0 < d := by
    obtain ⟨t, ht, rfl⟩ := Option.map_eq_some_iff.mp hx
    exact h.positive ht
  have hsettles := Movement.outcome_settles hp hf
  cases ho : m.outcome shape with
  | error e =>
    rw [ho] at hsettles hno
    cases e with
    | fault cause => exact absurd (congrArg (Except.error ∘ Stop.fault) hsettles) hno
    | refused cause => exact absurd hv hsettles
  | ok outcome =>
    obtain ⟨tracker, same⟩ := outcome
    obtain ⟨y, s', r', hrun, moved⟩ := hs.exec_movement hx ho
    refine ⟨y, s', hrun, ?_⟩
    refine Iff.trans ?_ (hsettles.of_ok ho)
    exact (moved.coherent.known_movement _ _ _ moved.known).eq_iff (moved.grows.shape? hx) ho

/-- Of a tensor of shape `[1, 2, 1]`, realized, it changes nothing to reverse the unit axes. -/
theorem movement_eq_self_unitAxes :
    let s := ((rectified [1, 2, 1] #[1, 2]).realize (recording none) #[] 1).2.1
    (∃ s', exec (movement (.stride [-1, 1, -1]) 1) s = (.ok 1, s')) ∧
      ∃ y s', exec (movement (.stride [1, -1, 1]) 1) s = (.ok y, s') ∧ y ≠ 1 := by
  intro s
  have h : Reachable .standard s :=
    (construct (construct start (List.forall_mem_nil _)) (by decide)).realize _ _ _
  have hx : ((rectified [1, 2, 1] #[1, 2]).realize (recording none) #[] 1).2.1.shape? 1 =
      some [1, 2, 1] := by
    obtain ⟨realized, e⟩ := realize_eq_withRealized (recording none) (rectified [1, 2, 1] #[1, 2])
      #[] 1
    rw [e, rectified_eq rfl]
    rfl
  constructor
  · obtain ⟨y, s', hrun, hy⟩ := movement_eq_self_iff h hx (m := .stride [-1, 1, -1]) (by decide)
      (by decide) (by decide)
    obtain rfl := hy.mpr (by decide)
    exact ⟨s', hrun⟩
  · obtain ⟨y, s', hrun, hy⟩ := movement_eq_self_iff h hx (m := .stride [1, -1, 1]) (by decide)
      (by decide) (by decide)
    exact ⟨y, s', hrun, fun e => absurd (hy.mp e) (by decide)⟩

end Reachable

end Session

end TensorLoom
