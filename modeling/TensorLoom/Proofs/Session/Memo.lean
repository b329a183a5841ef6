import TensorLoom.Proofs.Session.Moves

/-!
# What a session remembers

Whatever else is built or realized in between, a pointwise operation or a movement that has been
applied once gives the same tensor when it is asked for again, and the session stays as it is. What
is known stays known as a session goes on (`Session.Later.grows`), and what is known is not refused.

Different pointwise operations, or the same one of other tensors, give different tensors
(`Session.Reachable.elementwiseMemo_inj`): a tensor that is made for a pointwise operation is new.
A movement moves each tensor once, and puts the one tensor that it gets in all places where the
other one was (`Session.MovesOnce`, `Session.Reachable.memoizes`).
-/

namespace TensorLoom.Session

open OpTree (Corresponds)

variable {rules : FusionRules} {used : Op → Prop} {s s' : Session} {r : OpTree.Register TensorId}

/-! ## As a session goes on -/

/-- The sessions that steps and realizations lead to from a session. The steps may be refused, and
the realizations may fail. -/
inductive Later (s : Session) : Session → Prop
  | refl : Later s s
  | construct {s' : Session} {c : Construct TensorId} : Later s s' →
      (∀ x ∈ c.operands, x < s'.tensors.size) → Later s (exec c.step s').2
  | realize {s' : Session} {σ : Type} (materialize : Materializer σ) (device : σ) (x : TensorId) :
      Later s s' → Later s (s'.realize materialize device x).2.1

/-- Nothing is lost as a session goes on. -/
theorem Later.grows (h : Later s s') (hs : Coherent (fun _ => True) s r) :
    ∃ r', Coherent (fun _ => True) s' r' ∧ Grows s r s' r' := by
  induction h with
  | refl => exact ⟨r, hs, .refl s r⟩
  | construct _ operands ih =>
    obtain ⟨r', hs', grows⟩ := ih
    obtain ⟨r'', advances⟩ := hs'.step operands
    exact ⟨r'', advances.coherent, grows.trans advances.grows⟩
  | realize materialize device x _ ih =>
    obtain ⟨r', hs', grows⟩ := ih
    obtain ⟨realized, e⟩ := realize_eq_withRealized materialize _ device x
    exact ⟨r', e ▸ hs'.withRealized realized, e ▸ grows.trans (grows_withRealized realized)⟩

theorem Reachable.later (h : Reachable rules s) (hl : Later s s') : Reachable rules s' := by
  induction hl with
  | refl => exact h
  | construct _ operands ih => exact ih.construct operands
  | realize materialize device x _ ih => exact ih.realize materialize device x

/-! ## Pointwise operations -/

/-- A pointwise operation of operands of one shape is not refused. -/
theorem elementwiseShape_eq_ok {op : Op} {shapes : List (List Nat)} {shape : List Nat}
    (hop : op.Pointwise shapes.length) (hsame : ∀ d ∈ shapes, d = shape) :
    elementwiseShape op shapes = .ok shape := by
  have hne : shapes ≠ [] := by
    rintro rfl
    cases hop
  obtain ⟨d, ds, rfl⟩ := List.exists_cons_of_ne_nil hne
  obtain rfl := hsame d List.mem_cons_self
  have hfind : (d :: ds).find? (fun d' => decide (d' ≠ d)) = none := by
    simpa using fun d' hd' => hsame d' (List.mem_cons_of_mem _ hd')
  rw [elementwiseShape, if_neg (by simp [hop.isElementwise]), if_neg (not_not.mpr hop.arity_eq)]
  dsimp only [List.headD_cons]
  rw [hfind]

/-- A pointwise operation that is known gives what is known. -/
theorem Coherent.exec_elementwise_known (h : Coherent used s r) {op : Op} {xs : List TensorId}
    {y : TensorId} (hknown : s.elementwiseMemo[(op, xs)]? = some y) :
    exec (elementwise op xs) s = (.ok y, s) := by
  obtain @⟨shape, _, _, _, -, -, pointwise, -, -, -, shapes⟩ := h.known_elementwise op xs y hknown
  have hxs : List.Forall₂ (fun x d => s.shape? x = some d) xs (xs.map fun _ => shape) :=
    List.forall₂_map_right_iff.mpr (List.forall₂_same.mpr shapes)
  obtain ⟨ts, hts, hshapes⟩ := exists_tensors hxs
  have ho : elementwiseShape op (ts.map (·.shape)) = .ok shape := by
    rw [hshapes]
    exact elementwiseShape_eq_ok (by rwa [List.length_map]) (by simp)
  rw [exec_elementwise_eq hts, ho]
  simp only [hknown]

/-- A pointwise operation that has been applied is known. -/
theorem Applied.known_of_ok {op : Op} {xs : List TensorId} {y : TensorId}
    (h : Applied s op xs (.ok y, s')) : s'.elementwiseMemo[(op, xs)]? = some y := by
  cases h with
  | known hknown => exact hknown
  | made _ _ _ _ => exact Std.HashMap.getElem?_insert_self

/-- What is known of pointwise operations is told apart by its results. -/
def MemoInjective (s : Session) : Prop :=
  ∀ (key key' : Op × List TensorId) (y : TensorId),
    s.elementwiseMemo[key]? = some y → s.elementwiseMemo[key']? = some y → key = key'

theorem MemoInjective.applied (h : s.MemoInjective) (hs : Coherent used s r) {op : Op}
    {xs : List TensorId} {run : Except (Stop SessionError) TensorId × Session}
    (hrun : Applied s op xs run) : run.2.MemoInjective := by
  cases hrun with
  | refused e => exact h
  | known _ => exact h
  | @made shape category sources _ _ _ _ =>
    -- the tensor is new, so nothing else is known to give it
    have hnew : ∀ key : Op × List TensorId,
        s.elementwiseMemo[key]? ≠ some s.tensors.size := fun key hkey => by
      obtain ⟨made, -⟩ := hs.known_elementwise key.1 key.2 _ hkey
      exact Nat.lt_irrefl _ (lt_of_tensor made)
    intro key key' y hkey hkey'
    rw [withElementwise, Std.HashMap.getElem?_insert] at hkey hkey'
    split at hkey <;> split at hkey'
    · rename_i e e'
      exact (eq_of_beq e).symm.trans (eq_of_beq e')
    · cases hkey
      exact absurd hkey' (hnew key')
    · cases hkey'
      exact absurd hkey (hnew key)
    · exact h key key' y hkey hkey'

/-- The steps that are no pointwise operations leave alone what is known of these. -/
theorem elementwiseMemo_step (hs : Coherent used s r) {c : Construct TensorId}
    (operands : ∀ x ∈ c.operands, x < s.tensors.size) (hc : ∀ op xs, c ≠ .elementwise op xs) :
    (exec c.step s).2.elementwiseMemo = s.elementwiseMemo := by
  cases c with
  | host shape data =>
    rw [Construct.step, exec_host_eq]
    split <;> rfl
  | elementwise op xs => exact absurd rfl (hc op xs)
  | movement m x => exact (hs.movesOnce m (operands x List.mem_cons_self) hs.follows).elementwise
  | reduce op x target =>
    obtain ⟨shape, hx⟩ : ∃ shape, s.shape? x = some shape :=
      ⟨_, shape?_of_tensor (Array.getElem?_eq_getElem (operands x List.mem_cons_self))⟩
    by_cases hr : Reduces shape target
    · rw [Construct.step, exec_reduce_eq op hx hr]
      rfl
    · rw [Construct.step, exec_reduce_error hx hr]
  | convolve x w args =>
    cases hcheck : View.checkShape args.outShape with
    | error e => rw [Construct.step, exec_convolve_error hcheck]
    | ok u =>
      rw [Construct.step, exec_convolve_eq hcheck]
      rfl

/-- Different pointwise operations give different tensors. -/
theorem Reachable.memoInjective (h : Reachable rules s) : s.MemoInjective := by
  induction h with
  | start => exact fun key key' y hkey => absurd hkey (by simp [new])
  | @construct s c h operands ih =>
    obtain ⟨r, hs⟩ := h.coherent
    by_cases hc : ∀ op xs, c ≠ .elementwise op xs
    · rw [MemoInjective, elementwiseMemo_step hs operands hc]
      exact ih
    · push Not at hc
      obtain ⟨op, xs, rfl⟩ := hc
      exact ih.applied hs (applied_elementwise op operands)
  | @realize s _ materialize device x _ ih =>
    obtain ⟨realized, e⟩ := realize_eq_withRealized materialize s device x
    exact e ▸ ih

/-! ## Movements -/

/-- Pushing a movement makes a pointwise tensor. -/
theorem tensor_of_push {m : Movement} {x y : TensorId} {t : Tensor} {tracker : Tracker}
    (hnew : s.movementMemo[(m, x)]? = none) (ht : s.tensors[x]? = some t)
    (ho : m.outcome t.shape = .ok (tracker, false)) (hpush : s.pushesMovement m x = true)
    (hrun : exec (movement m x) s = (.ok y, s')) :
    ∃ moved, s'.tensors[y]? = some ⟨tracker.shape, .deferred .elementwise moved⟩ := by
  rw [exec_movement_make hnew ht ho] at hrun
  simp only [makeMovement, exec_bind, exec_get, if_neg Bool.false_ne_true, if_pos hpush] at hrun
  generalize exec (t.tree.mapLeaves (fun _ => freshNode) _) s = run at hrun
  obtain ⟨e | moved, s₁⟩ := run
  · cases hrun
  · cases hrun
    exact ⟨moved, tensor_withTensor⟩

/-- A movement that is pushed puts what the leaves become in their places. -/
theorem Coherent.corresponds_of_push (h : Coherent used s r) {m : Movement} {x y : TensorId}
    (hnew : s.movementMemo[(m, x)]? = none) (hpush : s.pushesMovement m x = true)
    (hrun : exec (movement m x) s = (.ok y, s')) (hne : y ≠ x) :
    ∃ shape shape' tree moved, s.tensors[x]? = some ⟨shape, .deferred .elementwise tree⟩ ∧
      s'.tensors[y]? = some ⟨shape', .deferred .elementwise moved⟩ ∧
        Corresponds (fun z z' => s'.movementMemo[(m, z)]? = some z') tree moved := by
  obtain ⟨hopen, -⟩ := of_pushesMovement hpush
  obtain ⟨t, ht⟩ := exists_of_isOpen hopen
  have hx := ht.trans (congrArg some (content_of_isOpen ht hopen))
  cases ho : m.outcome t.shape with
  | error e => cases (h.exec_movement_error (shape?_of_tensor ht) ho).symm.trans hrun
  | ok outcome =>
    obtain ⟨tracker, same⟩ := outcome
    obtain ⟨_, _, r', hrun', moved⟩ := h.exec_movement (shape?_of_tensor ht) ho
    cases hrun'.symm.trans hrun
    have of := moved.coherent.known_movement _ _ _ moved.known
    cases same with
    | true => exact absurd (of.eq_of_same (moved.grows.shape? (shape?_of_tensor ht)) ho) hne
    | false =>
      obtain ⟨tree, hy⟩ := tensor_of_push hnew ht ho hpush hrun
      cases of with
      | same _ _ => exact absurd rfl hne
      | pushed source _ made leaves _ _ _ =>
        cases (moved.grows.tensors _ _ hx).symm.trans source
        exact ⟨_, _, _, _, hx, made, leaves⟩
      | chained _ _ made _ _ => cases (Tensor.mk.inj (Option.some.inj (hy.symm.trans made))).2

/-- What a session promises of the calls that are made from it on. -/
structure Memoizes (s : Session) : Prop where
  /-- A pointwise operation that has been applied gives the same tensor at any later time. Then it
  changes nothing: it makes no tensor and remembers nothing more. -/
  elementwise_again : ∀ (op : Op) (xs : List TensorId) (y : TensorId) (s₁ s₂ : Session),
    (∀ x ∈ xs, x < s.tensors.size) → exec (elementwise op xs) s = (.ok y, s₁) → Later s₁ s₂ →
      exec (elementwise op xs) s₂ = (.ok y, s₂)
  /-- So does a movement that has been applied, wherever it has been pushed. -/
  movement_again : ∀ (m : Movement) (x y : TensorId) (s₁ s₂ : Session), x < s.tensors.size →
    exec (movement m x) s = (.ok y, s₁) → Later s₁ s₂ → exec (movement m x) s₂ = (.ok y, s₂)
  /-- Pointwise operations give the same tensor only if they are the same operation of the same
  tensors in the same order. -/
  elementwise_inj : ∀ (op op' : Op) (xs xs' : List TensorId) (y : TensorId) (s₁ s₂ s₃ : Session),
    (∀ x ∈ xs, x < s.tensors.size) → exec (elementwise op xs) s = (.ok y, s₁) → Later s₁ s₂ →
      (∀ x ∈ xs', x < s₂.tensors.size) → exec (elementwise op' xs') s₂ = (.ok y, s₃) →
        op = op' ∧ xs = xs'
  /-- A movement moves what it needs, each tensor once. -/
  moves_once : ∀ (m : Movement) (x : TensorId), x < s.tensors.size →
    MovesOnce m (s.Needs x) s (exec (movement m x) s).2
  /-- If it is pushed, each leaf of the tree has become the tensor that is known for it, in all its
  places. -/
  pushes : ∀ (m : Movement) (x y : TensorId) (s₁ : Session), s.movementMemo[(m, x)]? = none →
    s.pushesMovement m x = true → exec (movement m x) s = (.ok y, s₁) → y ≠ x →
      ∃ shape shape' tree moved, s.tensors[x]? = some ⟨shape, .deferred .elementwise tree⟩ ∧
        s₁.tensors[y]? = some ⟨shape', .deferred .elementwise moved⟩ ∧
          Corresponds (fun z z' => s₁.movementMemo[(m, z)]? = some z') tree moved

namespace Reachable

/-- A pointwise operation that has been applied stays known. -/
theorem elementwise_known_later (h : Reachable rules s) {op : Op} {xs : List TensorId}
    {y : TensorId} {s₁ s₂ : Session} (hxs : ∀ x ∈ xs, x < s.tensors.size)
    (hrun : exec (elementwise op xs) s = (.ok y, s₁)) (hlater : Later s₁ s₂) :
    Reachable rules s₂ ∧ s₂.elementwiseMemo[(op, xs)]? = some y := by
  have h₁ : Reachable rules s₁ := by
    have hnext := h.construct (c := .elementwise op xs) hxs
    rwa [Construct.step, hrun] at hnext
  obtain ⟨r₁, hs₁⟩ := h₁.coherent
  obtain ⟨r₂, -, grows⟩ := hlater.grows hs₁
  have hknown := (hrun ▸ applied_elementwise op hxs).known_of_ok
  exact ⟨h₁.later hlater, grows.known_elementwise _ _ _ hknown⟩

/-- A movement that has been applied stays known. -/
theorem movement_known_later (h : Reachable rules s) {m : Movement} {x y : TensorId}
    {s₁ s₂ : Session} (hx : x < s.tensors.size) (hrun : exec (movement m x) s = (.ok y, s₁))
    (hlater : Later s₁ s₂) : s₂.movementMemo[(m, x)]? = some y := by
  obtain ⟨r, hs⟩ := h.coherent
  obtain ⟨t, ht⟩ : ∃ t, s.tensors[x]? = some t := ⟨_, Array.getElem?_eq_getElem hx⟩
  cases ho : m.outcome t.shape with
  | error e => cases (hs.exec_movement_error (shape?_of_tensor ht) ho).symm.trans hrun
  | ok outcome =>
    obtain ⟨_, _, r₁, hrun', moved⟩ := hs.exec_movement (shape?_of_tensor ht) ho
    cases hrun'.symm.trans hrun
    obtain ⟨r₂, -, grows⟩ := hlater.grows moved.coherent
    exact grows.known_movement _ _ _ moved.known

/-- Asking again gives the same tensor, whatever has been done in between; asking for something else
gives another one; and a movement is pushed onto each leaf once. -/
theorem memoizes (h : Reachable rules s) : s.Memoizes := by
  obtain ⟨r, hs⟩ := h.coherent
  refine ⟨fun op xs y s₁ s₂ hxs hrun hlater => ?_, fun m x y s₁ s₂ hx hrun hlater => ?_,
    fun op op' xs xs' y s₁ s₂ s₃ hxs hrun hlater hxs' hrun' => ?_,
    fun m x hx => hs.movesOnce m hx hs.follows,
    fun m x y s₁ hnew hpush hrun hne => hs.corresponds_of_push hnew hpush hrun hne⟩
  · obtain ⟨h₂, hmemo⟩ := h.elementwise_known_later hxs hrun hlater
    obtain ⟨r₂, hs₂⟩ := h₂.coherent
    exact hs₂.exec_elementwise_known hmemo
  · exact exec_movement_known (h.movement_known_later hx hrun hlater)
  · -- after both calls, both are known
    have hlater' : Later s₁ s₃ := by
      have hnext := hlater.construct (c := .elementwise op' xs') hxs'
      rwa [Construct.step, hrun'] at hnext
    obtain ⟨h₃, hmemo⟩ := h.elementwise_known_later hxs hrun hlater'
    have hmemo' := (hrun' ▸ applied_elementwise op' hxs').known_of_ok
    exact Prod.mk.inj (h₃.memoInjective _ _ y hmemo hmemo')

/-- Data of the host, multiplied with itself. -/
def squared : Session :=
  (exec (Construct.step (.elementwise (.binary .mul) [0, 0]))
    (exec (Construct.step (.host [2, 3] #[1, 2, 3, 4, 5, 6])) (.new .standard)).2).2

theorem squared_eq :
    squared = (((new .standard).withTensor [2, 3] (.host #[1, 2, 3, 4, 5, 6])).withNode.withTensor
      [2, 3] (.deferred .elementwise (.node 0 (.binary .mul) [.leaf 0, .leaf 0]))).withElementwise
        (.binary .mul) [0, 0] 1 :=
  congrArg Prod.snd (exec_elementwise_new (.cons rfl (.cons rfl .nil)) rfl
    Std.HashMap.getElem?_empty rfl)

theorem pushesMovement_squared : squared.pushesMovement (.permute [1, 0]) 1 = true := by
  have hrealized : squared.isRealized 1 = false := by
    rw [squared_eq]
    exact Std.HashSet.contains_empty
  simp only [pushesMovement, isOpen, hrealized]
  rw [squared_eq]
  rfl

theorem movementMemo_squared (m : Movement) (x : TensorId) :
    squared.movementMemo[(m, x)]? = none := by
  rw [squared_eq]
  exact Std.HashMap.getElem?_empty

/-- The host data is moved first, and the moved data multiplied with itself. -/
theorem exec_transpose_squared :
    let run := exec (movement (.permute [1, 0]) 1) squared
    run.1 = .ok 3 ∧ run.2.tensors.size = 4 := by
  obtain ⟨s₁, hfirst, hknown, hsize⟩ : ∃ s₁,
      exec (movement (.permute [1, 0]) 0) squared = (.ok 2, s₁) ∧
        s₁.movementMemo[((.permute [1, 0] : Movement), 0)]? = some 2 ∧ s₁.tensors.size = 3 := by
    rw [squared_eq]
    exact ⟨_, exec_movement_leaf Std.HashMap.getElem?_empty rfl rfl fun _ => rfl,
      Std.HashMap.getElem?_insert_self, rfl⟩
  have hboth : exec ([0, 0].mapM (movement (.permute [1, 0]))) squared = (.ok [2, 2], s₁) := by
    rw [List.mapM_cons, exec_bind, hfirst]
    dsimp only
    rw [List.mapM_cons, exec_bind, exec_bind, exec_movement_known hknown]
    rfl
  have hx : squared.tensors[1]? = some
      ⟨[2, 3], .deferred .elementwise (.node 0 (.binary .mul) ([0, 0].map .leaf))⟩ := by
    rw [squared_eq]
    rfl
  have hsecond := exec_movement_leaves (movementMemo_squared _ _) hx rfl pushesMovement_squared
    (by decide) hboth
  rw [hsecond, hsize]
  exact ⟨rfl, (Array.size_push _).trans (congrArg (· + 1) hsize)⟩

/-- A transposed square is the square of the one transposed tensor, and is known after all has been
realized. A product of the same tensor is known as well, and a sum of it is another tensor. -/
theorem memoizes_squared :
    let s := squared
    let s₁ := (exec (movement (.permute [1, 0]) 1) s).2
    let s₂ := (s₁.realize (recording none) #[] 3).2.1
    exec (movement (.permute [1, 0]) 1) s₂ = (.ok 3, s₂) ∧
      exec (elementwise (.binary .mul) [0, 0]) s₂ = (.ok 1, s₂) ∧
      (exec (elementwise (.binary .add) [0, 0]) s₂).1 ≠ .ok 1 ∧
      (∃ z, s.Needs 1 z ∧
        ∀ key, s₁.movementMemo[key]? = some 2 ↔ key = ((.permute [1, 0] : Movement), z)) ∧
      ∃ shape shape' tree moved, s.tensors[1]? = some ⟨shape, .deferred .elementwise tree⟩ ∧
        s₁.tensors[3]? = some ⟨shape', .deferred .elementwise moved⟩ ∧
          Corresponds (fun z z' => s₁.movementMemo[((.permute [1, 0] : Movement), z)]? = some z')
            tree moved := by
  have h : Reachable .standard squared :=
    construct (construct start (List.forall_mem_nil _)) (by decide)
  obtain ⟨r, hs⟩ := h.coherent
  obtain ⟨hmoved, hafter⟩ := exec_transpose_squared
  have hbefore : squared.tensors.size = 2 := by
    rw [squared_eq]
    rfl
  have hx : 1 < squared.tensors.size := hbefore ▸ by decide
  have hxs : ∀ x ∈ [0, 0], x < squared.tensors.size := hbefore ▸ by decide
  have hmul : exec (elementwise (.binary .mul) [0, 0]) squared = (.ok 1, squared) :=
    hs.exec_elementwise_known (by
      rw [squared_eq]
      exact Std.HashMap.getElem?_insert_self)
  obtain ⟨elementwise_again, movement_again, elementwise_inj, moves_once, pushes⟩ := memoizes h
  intro s s₁ s₂
  have later : Later s s₂ :=
    .realize _ _ _ (.construct (c := .movement (.permute [1, 0]) 1) .refl
      (List.forall_mem_singleton.mpr hx))
  refine ⟨?_, elementwise_again _ _ 1 s s₂ hxs hmul later, fun hadd => ?_, ?_, ?_⟩
  · exact movement_again _ 1 3 s₁ s₂ hx (Prod.ext hmoved rfl) (.realize _ _ _ .refl)
  · obtain ⟨_, -, grows⟩ := later.grows hs
    cases (elementwise_inj (.binary .mul) (.binary .add) [0, 0] [0, 0] 1 s s₂ _ hxs hmul later
      (fun x hx => grows.lt_size (hxs x hx)) (Prod.ext hadd rfl)).1
  · obtain ⟨z, hz, -, honly⟩ := (moves_once (.permute [1, 0]) 1 hx).made 2
      (Nat.le_of_eq hbefore) (hafter ▸ by decide)
    exact ⟨z, hz, honly⟩
  · exact pushes _ 1 3 s₁ (movementMemo_squared _ _) pushesMovement_squared (Prod.ext hmoved rfl)
      (by decide)

end Reachable

end TensorLoom.Session
