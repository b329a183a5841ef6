import TensorLoom.Proofs.OpTree.MapLeaves
import TensorLoom.Proofs.Session.Growth
import TensorLoom.Session.Fusion

/-!
# Steps of a session

Each step that makes tensors is run here (`Session.exec`). Whether it is refused is a matter of the
shapes of its operands and of nothing else that the session holds; a step that is refused leaves the
session as it was, and one that is not leaves it coherent, with all that it held before.

Of a movement this is shown by induction on the number of the tensor moved
(`Session.Coherent.exec_movement`): the leaves of a pointwise tree have its shape, so once a
movement is known to suit the tensor it cannot be refused at a leaf. Pushing it changes the memo at
older tensors only.
-/

namespace TensorLoom.Session

open OpTree (Subtree Corresponds Registered Register)

/-- Run a step of a session. -/
def exec {α : Type} (x : SessionM α) (s : Session) : Except (Stop SessionError) α × Session :=
  Id.run (StateT.run (ExceptT.run x) s)

section Exec

variable {α β : Type} {s s' : Session}

theorem exec_pure (a : α) : exec (pure a) s = (.ok a, s) := rfl

theorem exec_bind (x : SessionM α) (f : α → SessionM β) :
    exec (x >>= f) s = match exec x s with
      | (.ok a, s') => exec (f a) s'
      | (.error e, s') => (.error e, s') := by
  simp only [exec]
  rw [ExceptT.run_bind, StateT.run_bind, Id.run_bind]
  rcases Id.run (StateT.run (ExceptT.run x) s) with ⟨e | a, s'⟩ <;> rfl

/-- What follows two steps is run after them. -/
theorem exec_then {γ : Type} (x : SessionM α) (f : α → SessionM β) (k : β → SessionM γ) :
    exec (x >>= fun a => f a >>= k) s = match exec (x >>= f) s with
      | (.ok b, s') => exec (k b) s'
      | (.error e, s') => (.error e, s') := by
  rw [← bind_assoc, exec_bind]

theorem exec_get : exec get s = (.ok s, s) := rfl

theorem exec_fail (e : SessionError) :
    exec (fail e : SessionM α) s = (.error (.refused e), s) := rfl

theorem exec_liftLayout (x : Attempt LayoutError α) :
    exec (liftLayout x) s = (x.mapError (Stop.mapRefusal .layout), s) := rfl

theorem exec_fetch {x : TensorId} {t : Tensor} (h : s.tensors[x]? = some t) :
    exec (fetch x) s = (.ok t, s) := by
  simp only [fetch, exec_bind, exec_get, h, exec_pure]

/-- A step for each member of a list, none of which changes the session. -/
theorem exec_mapM {f : α → SessionM β} {xs : List α} {ys : List β}
    (h : List.Forall₂ (fun x y => exec (f x) s = (.ok y, s)) xs ys) :
    exec (xs.mapM f) s = (.ok ys, s) := by
  induction h with
  | nil => rfl
  | cons hxy _ ih =>
    rw [List.mapM_cons, exec_bind, hxy]
    simp only [exec_bind, ih, exec_pure]

theorem exec_freshNode : exec freshNode s = (.ok s.nextNode, s.withNode) := rfl

theorem exec_addTensor (shape : List Nat) (content : Content) :
    exec (addTensor shape content) s = (.ok s.tensors.size, s.withTensor shape content) := rfl

theorem exec_addNode (shape : List Nat) (category : Category) (op : Op)
    (sources : List (OpTree TensorId)) :
    exec (addNode shape category op sources) s = (.ok s.tensors.size,
      s.withNode.withTensor shape (.deferred category (.node s.nextNode op sources))) := by
  simp only [addNode, exec_bind, exec_freshNode, exec_addTensor]
  rfl

/-- Running a step, with a register at the side. -/
def execution : Execution SessionM (Session × Register TensorId) where
  Runs x s a s' := exec x s.1 = (.ok a, s'.1)
  pure _ _ := rfl
  bind h h' := by rw [exec_bind, h]; exact h'

end Exec

variable {used : Op → Prop} {s s' s'' : Session} {r r' r'' : Register TensorId}

/-- A session goes on to another one: it stays coherent, nothing is lost, and nothing is realized.
-/
structure Advances (used : Op → Prop) (s : Session) (r : Register TensorId) (s' : Session)
    (r' : Register TensorId) : Prop where
  coherent : Coherent used s' r'
  grows : Grows s r s' r'
  realized : s'.realized = s.realized

theorem Advances.refl (h : Coherent used s r) : Advances used s r s r := ⟨h, .refl s r, rfl⟩

theorem Advances.trans (a : Advances used s r s' r') (a' : Advances used s' r' s'' r'') :
    Advances used s r s'' r'' :=
  ⟨a'.coherent, a.grows.trans a'.grows, a'.realized.trans a.realized⟩

/-! ## Operands and nodes -/

/-- An open tensor is deferred. -/
theorem content_of_isOpen {x : TensorId} {t : Tensor} {category : Category}
    (ht : s.tensors[x]? = some t) (h : s.isOpen x category = true) :
    t = ⟨t.shape, .deferred category t.tree⟩ := by
  rw [isOpen, ht, Option.any_some, Bool.and_eq_true] at h
  obtain ⟨shape, content⟩ := t
  cases content with
  | host data => cases of_decide_eq_true h.1
  | deferred category' tree =>
    cases of_decide_eq_true h.1
    rfl

theorem exists_of_isOpen {x : TensorId} {category : Category} (h : s.isOpen x category = true) :
    ∃ t, s.tensors[x]? = some t := by
  rw [isOpen, Bool.and_eq_true, Option.any_eq_true] at h
  obtain ⟨⟨t, ht, -⟩, -⟩ := h
  exact ⟨t, ht⟩

theorem category_of_isOpen {x : TensorId} {category : Category} {t : Tensor}
    (ht : s.tensors[x]? = some t) (h : s.isOpen x category = true) : t.category = some category :=
  congrArg Tensor.category (content_of_isOpen ht h)

/-- What an operand becomes in the trees of a kind. -/
def operand (s : Session) (category : Category) (x : TensorId) : OpTree TensorId :=
  match s.tensors[x]? with
  | some t => if s.isOpen x category then t.tree else .leaf x
  | none => .leaf x

theorem operand_of_isOpen {x : TensorId} {category : Category} {t : Tensor}
    (ht : s.tensors[x]? = some t) (h : s.isOpen x category = true) :
    s.operand category x = t.tree := by
  simp only [operand, ht, h, if_true]

theorem operand_of_not_isOpen {x : TensorId} {category : Category}
    (h : ¬ s.isOpen x category = true) : s.operand category x = .leaf x := by
  unfold operand
  split
  · exact if_neg h
  · rfl

theorem exec_splice (category : Category) (x : TensorId) :
    exec (splice category x) s = (.ok (s.operand category x), s) := by
  simp only [splice, operand, exec_bind, exec_get]
  cases s.tensors[x]? <;> rfl

theorem exec_splices (category : Category) (xs : List TensorId) :
    exec (xs.mapM (splice category)) s = (.ok (xs.map (s.operand category)), s) :=
  exec_mapM (List.forall₂_map_right_iff.mpr (List.forall₂_same.mpr fun x _ =>
    exec_splice category x))

theorem spliced_operand (category : Category) (x : TensorId) :
    Spliced s category x (s.operand category x) := by
  unfold operand
  split
  · split
    · exact .tree (‹s.tensors[x]? = _›.trans (congrArg some (content_of_isOpen ‹_› ‹_›)))
    · exact .leaf
  · exact .leaf

theorem Coherent.registered_spliced (h : Coherent used s r) {category : Category} {x : TensorId}
    {t : OpTree TensorId} (hx : Spliced s category x t) : Registered r t := by
  cases hx with
  | leaf => exact .leaf x
  | tree made => exact h.registered _ _ _ _ made

/-- A tensor is made by one new node. -/
theorem Coherent.exec_addNode (h : Coherent used s r) {shape : List Nat} {category : Category}
    {op : Op} {sources : List (OpTree TensorId)} (hsources : ∀ t ∈ sources, Registered r t)
    (origin : ∀ s' r', Grows s r s' r' →
      s'.tensors[s.tensors.size]? = some ⟨shape, .deferred category (.node s.nextNode op sources)⟩ →
        Origin used s' s.tensors.size) :
    ∃ s' r', exec (addNode shape category op sources) s = (.ok s.tensors.size, s') ∧
      Advances used s r s' r' ∧
      s'.tensors[s.tensors.size]? =
        some ⟨shape, .deferred category (.node s.nextNode op sources)⟩ ∧
      s'.movementMemo = s.movementMemo ∧ s'.elementwiseMemo = s.elementwiseMemo := by
  have g : Grows s r
      (s.withNode.withTensor shape (.deferred category (.node s.nextNode op sources)))
      (s.register r op sources) := (h.grows_withNode op sources).trans grows_withTensor
  refine ⟨_, _, Session.exec_addNode _ _ _ _, ⟨?_, g, rfl⟩, tensor_withTensor, rfl, rfl⟩
  refine (h.withNode op sources).withTensor (origin _ _ g tensor_withTensor) ?_
  rintro category t e
  cases e
  exact registered_withNode h hsources

/-! ## Movements -/

/-- The tensor of a movement that is not known yet. -/
def makeMovement (m : Movement) (x : TensorId) (t : Tensor) (tracker : Tracker) (same : Bool) :
    SessionM TensorId := do
  let s ← get
  if same then
    pure x
  else if s.pushesMovement m x then do
    let tree ← t.tree.mapLeaves (fun _ => freshNode) fun leaf =>
      if _older : leaf < x then movement m leaf else throw (.fault .outOfBounds)
    addTensor tracker.shape (.deferred .elementwise tree)
  else do
    let source ← if s.rules.mergeMovements then splice .movement x else pure (.leaf x)
    addNode tracker.shape .movement (.movement m) [source]

theorem exec_movement_known {m : Movement} {x y : TensorId}
    (h : s.movementMemo[(m, x)]? = some y) : exec (movement m x) s = (.ok y, s) := by
  rw [movement]
  simp only [exec_bind, exec_get, h, exec_pure]

theorem exec_movement_refused {m : Movement} {x : TensorId} {t : Tensor}
    {e : Stop LayoutError} (hnew : s.movementMemo[(m, x)]? = none) (ht : s.tensors[x]? = some t)
    (he : m.outcome t.shape = .error e) :
    exec (movement m x) s = (.error (e.mapRefusal .layout), s) := by
  have htracker : (Tracker.ofShape t.shape).bind (·.move m) = Dense.tracker t.shape m := rfl
  rw [movement]
  simp only [exec_bind, exec_get, hnew, exec_fetch ht, exec_liftLayout, htracker]
  unfold Movement.outcome at he
  cases hd : Dense.tracker t.shape m with
  | error e' =>
    rw [hd] at he
    cases he
    rfl
  | ok tracker =>
    simp only [hd, bind, Except.bind] at he
    simp only [Except.mapError]
    cases hi : (liftM (tracker.isIdentity t.shape) : Attempt LayoutError Bool) with
    | error e' =>
      rw [hi] at he
      cases he
      rfl
    | ok b =>
      rw [hi] at he
      cases he

/-- A movement that is not known yet is made, and known from then on. -/
theorem exec_movement_make {m : Movement} {x : TensorId} {t : Tensor} {tracker : Tracker}
    {same : Bool} (hnew : s.movementMemo[(m, x)]? = none) (ht : s.tensors[x]? = some t)
    (ho : m.outcome t.shape = .ok (tracker, same)) :
    exec (movement m x) s = match exec (makeMovement m x t tracker same) s with
      | (.ok y, s') => (.ok y, s'.withMovement m x y)
      | (.error e, s') => (.error e, s') := by
  obtain ⟨_, htracker, ho⟩ := bind_eq_ok.mp ho
  obtain ⟨_, hsame, e⟩ := bind_eq_ok.mp ho
  cases e
  have hdense : (Tracker.ofShape t.shape).bind (·.move m) = Dense.tracker t.shape m := rfl
  let remember : TensorId → SessionM TensorId := fun y => do
    modify fun s : Session => { s with movementMemo := s.movementMemo.insert (m, x) y }
    return y
  have hmake : exec (movement m x) s =
      exec (makeMovement m x t tracker same >>= remember) s := by
    rw [movement, makeMovement]
    simp only [exec_bind, exec_get, hnew, exec_fetch ht, exec_liftLayout, hdense, htracker, hsame,
      Except.mapError]
    split
    · rfl
    split
    · exact exec_then _ _ _
    split <;> exact exec_then _ _ _
  rw [hmake, exec_bind]
  rcases exec (makeMovement m x t tracker same) s with ⟨e | y, s'⟩ <;> rfl

theorem exec_movement_new {m : Movement} {x : TensorId} {t : Tensor} {tracker : Tracker}
    {same : Bool} (hnew : s.movementMemo[(m, x)]? = none) (ht : s.tensors[x]? = some t)
    (ho : m.outcome t.shape = .ok (tracker, same)) {y : TensorId}
    (hy : exec (makeMovement m x t tracker same) s = (.ok y, s')) :
    exec (movement m x) s = (.ok y, s'.withMovement m x y) := by
  rw [exec_movement_make hnew ht ho, hy]

/-- A movement of a tensor that is not open is one node over its leaf. -/
theorem exec_movement_leaf {m : Movement} {x : TensorId} {t : Tensor} {tracker : Tracker}
    (hnew : s.movementMemo[(m, x)]? = none) (ht : s.tensors[x]? = some t)
    (ho : m.outcome t.shape = .ok (tracker, false))
    (hopen : ∀ category, s.isOpen x category = false) :
    exec (movement m x) s = (.ok s.tensors.size, (s.withNode.withTensor tracker.shape
      (.deferred .movement (.node s.nextNode (.movement m) [.leaf x]))).withMovement m x
        s.tensors.size) := by
  refine exec_movement_new hnew ht ho ?_
  have hpush : s.pushesMovement m x = false := by simp [pushesMovement, hopen]
  have hoperand : s.operand .movement x = .leaf x :=
    operand_of_not_isOpen (Bool.not_eq_true _ ▸ hopen .movement)
  simp only [makeMovement, exec_bind, exec_get, hpush, Bool.false_eq_true, if_false]
  split
  · rw [exec_bind, exec_splice, hoperand]
    exact exec_addNode _ _ _ _
  · exact exec_addNode _ _ _ _

/-- A movement that is pushed onto the operands of a pointwise operation moves them from the left.
-/
theorem exec_movement_leaves {m : Movement} {x : TensorId} {shape : List Nat} {id : Nat} {op : Op}
    {xs ys : List TensorId} {tracker : Tracker} (hnew : s.movementMemo[(m, x)]? = none)
    (ht : s.tensors[x]? = some ⟨shape, .deferred .elementwise (.node id op (xs.map .leaf))⟩)
    (ho : m.outcome shape = .ok (tracker, false)) (hpush : s.pushesMovement m x = true)
    (older : ∀ z ∈ xs, z < x) (hxs : exec (xs.mapM (movement m)) s = (.ok ys, s')) :
    exec (movement m x) s = (.ok s'.tensors.size, (s'.withNode.withTensor tracker.shape
      (.deferred .elementwise (.node s'.nextNode op (ys.map .leaf)))).withMovement m x
        s'.tensors.size) := by
  refine exec_movement_new hnew ht ho ?_
  have hleaves : (xs.mapM fun z => if _older : z < x then movement m z else
      throw (.fault .outOfBounds)) = xs.mapM (movement m) :=
    mapM_congr fun z hz => dif_pos (older z hz)
  simp only [makeMovement, exec_bind, exec_get, hpush, Bool.false_eq_true, if_false, if_true,
    Tensor.tree, OpTree.mapLeaves_leaves, hleaves, hxs, exec_freshNode, exec_pure, exec_addTensor]
  rfl

/-- What is known of movements of a tensor and of those after it is the same in two sessions. -/
def MovementsKept (x : TensorId) (s s' : Session) : Prop :=
  ∀ (m : Movement) (z : TensorId), x ≤ z → s'.movementMemo[(m, z)]? = s.movementMemo[(m, z)]?

theorem MovementsKept.trans {x : TensorId} (h : MovementsKept x s s')
    (h' : MovementsKept x s' s'') : MovementsKept x s s'' :=
  fun m z hz => (h' m z hz).trans (h m z hz)

theorem MovementsKept.mono {x x' : TensorId} (h : MovementsKept x s s') (hx : x ≤ x') :
    MovementsKept x' s s' :=
  fun m z hz => h m z (hx.trans hz)

/-- A movement has been applied: the tensor that it gives is known from then on. -/
structure Moved (used : Op → Prop) (m : Movement) (x y : TensorId) (s : Session)
    (r : Register TensorId) (s' : Session) (r' : Register TensorId) : Prop
    extends Advances used s r s' r' where
  kept : MovementsKept (x + 1) s s'
  known : s'.movementMemo[(m, x)]? = some y

/-- While a movement is pushed onto the leaves of a pointwise tree, a part of the tree that has been
rebuilt is the part with moved leaves. -/
theorem carries_movement {s₀ : Session} (r₀ : Register TensorId) {m : Movement} {x : TensorId}
    {shape : List Nat} {tree : OpTree TensorId} (tree_pointwise : PointwiseTree used s₀ shape tree)
    (older : ∀ z, Subtree (.leaf z) tree → z < x)
    (ih : ∀ z < x, ∀ s r, Coherent used s r → s.shape? z = some shape →
      ∃ y s' r', exec (movement m z) s = (.ok y, s') ∧ Moved used m z y s r s' r') :
    OpTree.Carries execution (fun _ => freshNode)
      (fun leaf => if _older : leaf < x then movement m leaf else throw (.fault .outOfBounds)) tree
      (fun p p' => Advances used p.1 p.2 p'.1 p'.2 ∧ MovementsKept x p.1 p'.1)
      (fun p => Advances used s₀ r₀ p.1 p.2)
      (fun p t u => Corresponds (fun z z' => p.1.movementMemo[(m, z)]? = some z') t u ∧
        Registered p.2 u ∧ ∀ z, Subtree (.leaf z) u → z < p.1.tensors.size) where
  trans _ _ _ h h' := ⟨h.1.trans h'.1, h.2.trans h'.2⟩
  mono p p' t u h hu := ⟨hu.1.imp fun z z' _ => h.1.grows.known_movement m z z',
    hu.2.1.mono h.1.grows.registered, fun z hz => h.1.grows.lt_size (hu.2.2 z hz)⟩
  onLeaf z p hz hp := by
    obtain ⟨s, r⟩ := p
    obtain ⟨y, s', r', hrun, hmoved⟩ :=
      ih z (older z hz) s r hp.coherent (hp.grows.shape? (tree_pointwise.leaves z hz))
    refine ⟨y, (s', r'), ?_, ⟨hmoved.toAdvances, hmoved.kept.mono (older z hz)⟩,
      hp.trans hmoved.toAdvances, .leaf hmoved.known, .leaf y, ?_⟩
    · change exec (if _older : z < x then movement m z else _) s = (.ok y, s')
      rw [dif_pos (older z hz), hrun]
    · intro z' hz'
      cases OpTree.subtree_leaf.mp hz'
      exact (hmoved.coherent.known_movement _ _ _ hmoved.known).lt_size
  onNode id op sources done p _ hp hdone := by
    obtain ⟨s, r⟩ := p
    have advances : Advances used s r s.withNode (s.register r op done) :=
      ⟨hp.coherent.withNode op done, hp.coherent.grows_withNode op done, rfl⟩
    refine ⟨s.nextNode, (s.withNode, s.register r op done), exec_freshNode, ⟨advances, ?_⟩,
      hp.trans advances, .node (hdone.imp fun t u h => h.1), ?_, ?_⟩
    · exact fun _ _ _ => rfl
    · refine registered_withNode hp.coherent fun u hu => ?_
      obtain ⟨t, -, h⟩ := exists_of_forall₂_right hdone hu
      exact h.2.1
    · intro z hz
      rcases OpTree.subtree_node.mp hz with e | ⟨u, hu, hzu⟩
      · cases e
      · obtain ⟨t, -, h⟩ := exists_of_forall₂_right hdone hu
        exact h.2.2 z hzu

/-- Only movements of open pointwise tensors are pushed, and paddings only where the rules say so.
-/
theorem of_pushesMovement {m : Movement} {x : TensorId} (h : s.pushesMovement m x = true) :
    s.isOpen x .elementwise = true ∧
      ((∀ amounts, m ≠ .pad amounts) ∨ s.rules.pushPads = true) := by
  simp only [pushesMovement, Bool.and_eq_true, Bool.or_eq_true] at h
  obtain ⟨⟨-, hopen⟩, hpads⟩ := h
  refine ⟨hopen, ?_⟩
  rcases hpads with hpads | hpads
  · exact .inr hpads
  · left
    rintro amounts rfl
    cases hpads

/-- A pushed movement gives a pointwise tensor over moved leaves. -/
theorem Coherent.exec_push (h : Coherent used s r) {m : Movement} {x : TensorId}
    {shape : List Nat} {tree : OpTree TensorId} {tracker : Tracker}
    (hx : s.tensors[x]? = some ⟨shape, .deferred .elementwise tree⟩)
    (ho : m.outcome shape = .ok (tracker, false))
    (allowed : (∀ amounts, m ≠ .pad amounts) ∨ s.rules.pushPads = true)
    (ih : ∀ z < x, ∀ s r, Coherent used s r → s.shape? z = some shape →
      ∃ y s' r', exec (movement m z) s = (.ok y, s') ∧ Moved used m z y s r s' r') :
    ∃ y s' r', exec (do
        let tree ← tree.mapLeaves (fun _ => freshNode) fun leaf =>
          if _older : leaf < x then movement m leaf else throw (.fault .outOfBounds)
        addTensor tracker.shape (.deferred .elementwise tree)) s = (.ok y, s') ∧
      Advances used s r s' r' ∧ MovementsKept x s s' ∧ MovementOf s' m x y := by
  have carries := carries_movement r (h.pointwise_tree hx) (fun z hz => h.older hx hz) ih
  obtain ⟨u, ⟨s₁, r₁⟩, hrun, ⟨advances, kept⟩, -, leaves, registered, older⟩ :=
    carries.mapLeaves_runs (h.registered _ _ _ _ hx).wellShared (s := (s, r)) (.refl h)
  have hrun : exec (tree.mapLeaves _ _) s = (.ok u, s₁) := hrun
  have grows' : Grows s₁ r₁ (s₁.withTensor tracker.shape (.deferred .elementwise u)) r₁ :=
    grows_withTensor
  have hx₁ := advances.grows.tensors _ _ hx
  have of : MovementOf (s₁.withTensor tracker.shape (.deferred .elementwise u)) m x
      s₁.tensors.size := by
    refine .pushed (grows'.tensors _ _ hx₁) ho tensor_withTensor ?_ ?_ (lt_of_tensor hx₁) older
    · exact leaves.imp fun z z' _ => grows'.known_movement m z z'
    · exact allowed.imp_right fun hpads => (congrArg (·.pushPads) advances.grows.rules).trans hpads
  refine ⟨_, _, r₁, ?_, advances.trans ⟨?_, grows', rfl⟩, kept, of⟩
  · rw [exec_bind, hrun]
    rfl
  · refine advances.coherent.withTensor (.movement of (lt_of_tensor hx₁)) ?_
    rintro category t e
    cases e
    exact registered

/-- A movement that is not known yet can be made. -/
theorem Coherent.exec_makeMovement (h : Coherent used s r) {m : Movement} {x : TensorId}
    {t : Tensor} {tracker : Tracker} {same : Bool} (hx : s.tensors[x]? = some t)
    (ho : m.outcome t.shape = .ok (tracker, same))
    (ih : ∀ z < x, ∀ s r, Coherent used s r → s.shape? z = some t.shape →
      ∃ y s' r', exec (movement m z) s = (.ok y, s') ∧ Moved used m z y s r s' r') :
    ∃ y s' r', exec (makeMovement m x t tracker same) s = (.ok y, s') ∧
      Advances used s r s' r' ∧ MovementsKept x s s' ∧ MovementOf s' m x y := by
  simp only [makeMovement, exec_bind, exec_get]
  split
  case isTrue hsame =>
    subst hsame
    exact ⟨x, s, r, rfl, .refl h, fun _ _ _ => rfl, .same (shape?_of_tensor hx) ho⟩
  case isFalse hsame =>
    obtain rfl := Bool.eq_false_of_not_eq_true hsame
    split
    case isTrue hpush =>
      obtain ⟨hopen, allowed⟩ := of_pushesMovement hpush
      exact h.exec_push (hx.trans (congrArg some (content_of_isOpen hx hopen))) ho allowed ih
    case isFalse hpush =>
      have chain : ∀ u, Spliced s .movement x u → ∃ y s' r',
          exec (Session.addNode tracker.shape .movement (.movement m) [u]) s = (.ok y, s') ∧
            Advances used s r s' r' ∧ MovementsKept x s s' ∧ MovementOf s' m x y := by
        intro u hu
        have of : ∀ s' r', Grows s r s' r' → s'.tensors[s.tensors.size]? = some
            ⟨tracker.shape, .deferred .movement (.node s.nextNode (.movement m) [u])⟩ →
              MovementOf s' m x s.tensors.size := fun s' r' g hy =>
          .chained (g.shape? (shape?_of_tensor hx)) ho hy (g.spliced hu) (lt_of_tensor hx)
        obtain ⟨s', r', hrun, advances, hy, kept, -⟩ := h.exec_addNode
          (fun t ht => List.mem_singleton.mp ht ▸ h.registered_spliced hu)
          fun s' r' g hy => .movement (of s' r' g hy) (lt_of_tensor hx)
        exact ⟨_, s', r', hrun, advances, fun m z _ => congrArg (·[(m, z)]?) kept,
          of s' r' advances.grows hy⟩
      split
      · rw [exec_bind, exec_splice]
        exact chain _ (spliced_operand .movement x)
      · exact chain (.leaf x) .leaf

/-- A movement that suits the shape of a tensor is applied to it. -/
theorem Coherent.exec_movement (h : Coherent used s r) {m : Movement} {x : TensorId}
    {shape : List Nat} (hx : s.shape? x = some shape) {tracker : Tracker} {same : Bool}
    (ho : m.outcome shape = .ok (tracker, same)) :
    ∃ y s' r', exec (Session.movement m x) s = (.ok y, s') ∧ Moved used m x y s r s' r' := by
  induction x using Nat.strongRecOn generalizing s r with
  | ind x ih =>
    cases hmemo : s.movementMemo[(m, x)]? with
    | some y =>
      exact ⟨y, s, r, exec_movement_known hmemo, .refl h, fun _ _ _ => rfl, hmemo⟩
    | none =>
      obtain ⟨t, ht, rfl⟩ := Option.map_eq_some_iff.mp hx
      obtain ⟨y, s', r', hrun, advances, kept, of⟩ :=
        h.exec_makeMovement ht ho fun z hz s r hs hshape => ih z hz hs hshape
      have hnew : s'.movementMemo[(m, x)]? = none := (kept m x (Nat.le_refl x)).trans hmemo
      have known : Advances used s' r' (s'.withMovement m x y) r' :=
        ⟨advances.coherent.withMovement hnew of, grows_withMovement hnew, rfl⟩
      refine ⟨y, _, r', exec_movement_new hmemo ht ho hrun, advances.trans known, ?_,
        Std.HashMap.getElem?_insert_self⟩
      intro m' z hz
      rw [Session.withMovement, Std.HashMap.getElem?_insert, if_neg]
      · exact kept m' z (Nat.le_of_succ_le hz)
      · intro e
        cases eq_of_beq e
        exact absurd hz (Nat.lt_irrefl _)

/-- A movement that does not suit the shape of a tensor is refused. -/
theorem Coherent.exec_movement_error (h : Coherent used s r) {m : Movement} {x : TensorId}
    {shape : List Nat} (hx : s.shape? x = some shape) {e : Stop LayoutError}
    (he : m.outcome shape = .error e) :
    exec (Session.movement m x) s = (.error (e.mapRefusal .layout), s) := by
  obtain ⟨t, ht, rfl⟩ := Option.map_eq_some_iff.mp hx
  refine exec_movement_refused ?_ ht he
  -- what is known has an outcome
  by_contra hne
  obtain ⟨y, hy⟩ := Option.ne_none_iff_exists'.mp hne
  obtain ⟨tracker, same, ho⟩ := (h.known_movement m x y hy).exists_outcome hx
  cases he.symm.trans ho

/-! ## Pointwise operations -/

theorem exists_tensors {xs : List TensorId} {shapes : List (List Nat)}
    (h : List.Forall₂ (fun x d => s.shape? x = some d) xs shapes) :
    ∃ ts, List.Forall₂ (fun x t => s.tensors[x]? = some t) xs ts ∧ ts.map (·.shape) = shapes := by
  induction h with
  | nil => exact ⟨[], .nil, rfl⟩
  | cons hx _ ih =>
    obtain ⟨t, ht, rfl⟩ := Option.map_eq_some_iff.mp hx
    obtain ⟨ts, hts, rfl⟩ := ih
    exact ⟨t :: ts, .cons ht hts, rfl⟩

/-- The shape of a pointwise operation on operands of given shapes, or why it is refused. -/
def elementwiseShape (op : Op) (shapes : List (List Nat)) : Except SessionError (List Nat) :=
  if !op.isElementwise then .error (.notElementwise op)
  else if shapes.length ≠ op.arity then .error (.elementwiseArity op op.arity shapes.length)
  else
    let first := shapes.headD []
    match shapes.find? (· ≠ first) with
    | some other => .error (.sourceShapeMismatch first other)
    | none => .ok first

/-- An operation that is not refused is pointwise, and has operands of its own shape. -/
theorem of_elementwiseShape {op : Op} {shapes : List (List Nat)} {shape : List Nat}
    (h : elementwiseShape op shapes = .ok shape) :
    op.Pointwise shapes.length ∧ ∀ d ∈ shapes, d = shape := by
  unfold elementwiseShape at h
  split at h
  · cases h
  · rename_i hop
    split at h
    · cases h
    · rename_i harity
      dsimp only at h
      split at h
      · cases h
      · rename_i hfind
        cases h
        refine ⟨not_not.mp harity ▸ Op.pointwise_arity (by simpa using hop), fun d hd => ?_⟩
        simpa using List.find?_eq_none.mp hfind d hd

/-- A pointwise operation is refused by the shapes of its operands, or known, or made. -/
theorem exec_elementwise_eq {op : Op} {xs : List TensorId} {ts : List Tensor}
    (hts : List.Forall₂ (fun x t => s.tensors[x]? = some t) xs ts) :
    exec (elementwise op xs) s = match elementwiseShape op (ts.map (·.shape)) with
      | .error e => (.error (.refused e), s)
      | .ok shape => match s.elementwiseMemo[(op, xs)]? with
        | some y => (.ok y, s)
        | none => exec (do
            let made ← makeElementwise op xs shape
            modify fun s => { s with elementwiseMemo := s.elementwiseMemo.insert (op, xs) made }
            return made) s := by
  have hfetch : exec (xs.mapM fetch) s = (.ok ts, s) := exec_mapM (hts.imp fun _ _ => exec_fetch)
  rw [elementwise, elementwiseShape, List.length_map, ← hts.length_eq]
  by_cases hop : op.isElementwise = true
  case neg =>
    rw [Bool.not_eq_true] at hop
    simp only [hop, Bool.not_false, if_true, exec_bind, exec_fail]
  by_cases harity : xs.length = op.arity
  case neg =>
    simp only [hop, harity, Bool.not_true, Bool.false_eq_true, ne_eq, not_false_eq_true, if_false,
      if_true, exec_bind, exec_fail]
  cases hts with
  | nil =>
    rw [List.length_nil] at harity
    cases harity ▸ Op.pointwise_arity hop
  | @cons x first xs ts hfirst hts =>
    have hhead : ((first :: ts).map (·.shape)).headD [] = first.shape := rfl
    simp only [hop, harity, Bool.not_true, Bool.false_eq_true, ne_eq, not_true_eq_false, if_false,
      exec_bind, hfetch, List.head?_cons, hhead, List.find?_map, Function.comp_def]
    cases (first :: ts).find? fun t => decide ¬t.shape = first.shape with
    | some other => simp only [Option.map_some, exec_bind, exec_fail]
    | none =>
      simp only [Option.map_none, exec_bind, exec_get]
      cases s.elementwiseMemo[(op, x :: xs)]? with
      | some y => rfl
      | none => simp only [exec_bind]

theorem exec_elementwise_new {op : Op} {xs : List TensorId} {ts : List Tensor} {shape : List Nat}
    (hts : List.Forall₂ (fun x t => s.tensors[x]? = some t) xs ts)
    (ho : elementwiseShape op (ts.map (·.shape)) = .ok shape)
    (hnew : s.elementwiseMemo[(op, xs)]? = none) {y : TensorId}
    (hy : exec (makeElementwise op xs shape) s = (.ok y, s')) :
    exec (elementwise op xs) s = (.ok y, s'.withElementwise op xs y) := by
  rw [exec_elementwise_eq hts, ho]
  dsimp only
  rw [hnew]
  dsimp only
  rw [exec_bind, hy]
  rfl

/-- A pointwise operation none of whose operands is open is one node over their leaves. -/
theorem exec_elementwise_leaves {op : Op} {xs : List TensorId} {ts : List Tensor}
    {shape : List Nat} (hts : List.Forall₂ (fun x t => s.tensors[x]? = some t) xs ts)
    (ho : elementwiseShape op (ts.map (·.shape)) = .ok shape)
    (hnew : s.elementwiseMemo[(op, xs)]? = none)
    (hopen : ∀ x ∈ xs, ∀ category, s.isOpen x category = false) :
    exec (elementwise op xs) s = (.ok s.tensors.size, (s.withNode.withTensor shape
      (.deferred .elementwise (.node s.nextNode op (xs.map .leaf)))).withElementwise op xs
        s.tensors.size) := by
  refine exec_elementwise_new hts ho hnew ?_
  have hfolds : s.foldsIntoProcessing xs = false := by
    have hnone : xs.filter (s.isOpen · .processing) = [] :=
      List.filter_eq_nil_iff.mpr fun x hx => Bool.not_eq_true _ ▸ hopen x hx .processing
    rw [foldsIntoProcessing, hnone]
  have hoperands : xs.map (s.operand .elementwise) = xs.map .leaf :=
    List.map_congr_left fun x hx =>
      operand_of_not_isOpen (Bool.not_eq_true _ ▸ hopen x hx .elementwise)
  simp only [makeElementwise, exec_bind, exec_get, hfolds, Bool.and_false, Bool.false_eq_true,
    if_false]
  split
  · rw [exec_bind, exec_splices, hoperands]
    exact exec_addNode _ _ _ _
  · exact exec_addNode _ _ _ _

/-- What the operands of a pointwise operation become, and the kind of its tensor. The rules decide
whether trees are spliced. -/
inductive PointwiseOperands (s : Session) (xs : List TensorId) :
    Category → List (OpTree TensorId) → Prop
  | folded (folds : s.foldsIntoProcessing xs = true) :
      PointwiseOperands s xs .processing (xs.map (s.operand .processing))
  | spliced : PointwiseOperands s xs .elementwise (xs.map (s.operand .elementwise))
  | kept (keeps : s.rules.mergeElementwise = false) :
      PointwiseOperands s xs .elementwise (xs.map .leaf)

theorem PointwiseOperands.kind {xs : List TensorId} {category : Category}
    {sources : List (OpTree TensorId)} (h : PointwiseOperands s xs category sources) :
    category = .elementwise ∨ category = .processing := by
  cases h with
  | folded _ => exact .inr rfl
  | spliced => exact .inl rfl
  | kept _ => exact .inl rfl

theorem PointwiseOperands.forall₂_spliced {xs : List TensorId} {category : Category}
    {sources : List (OpTree TensorId)} (h : PointwiseOperands s xs category sources) :
    List.Forall₂ (Spliced s category) xs sources := by
  have operands : ∀ category, List.Forall₂ (Spliced s category) xs (xs.map (s.operand category)) :=
    fun category => List.forall₂_map_right_iff.mpr (List.forall₂_same.mpr fun x _ =>
      spliced_operand category x)
  cases h with
  | folded _ => exact operands _
  | spliced => exact operands _
  | kept _ => exact List.forall₂_map_right_iff.mpr (List.forall₂_same.mpr fun x _ => .leaf)

/-- A new pointwise operation is one node over what its operands become. -/
theorem exec_makeElementwise_eq (op : Op) (xs : List TensorId) (shape : List Nat) :
    ∃ category sources, PointwiseOperands s xs category sources ∧
      exec (makeElementwise op xs shape) s = exec (addNode shape category op sources) s := by
  simp only [makeElementwise, exec_bind, exec_get]
  split
  · rename_i hfolds
    rw [Bool.and_eq_true] at hfolds
    rw [exec_bind, exec_splices]
    exact ⟨_, _, .folded hfolds.2, rfl⟩
  split
  · rw [exec_bind, exec_splices]
    exact ⟨_, _, .spliced, rfl⟩
  · rename_i hkeeps
    exact ⟨_, _, .kept (Bool.eq_false_of_not_eq_true hkeeps), rfl⟩

/-- A new pointwise operation can be made. -/
theorem Coherent.exec_makeElementwise (h : Coherent used s r) {op : Op} {xs : List TensorId}
    {shape : List Nat} (hop : op.Pointwise xs.length) (hused : used op)
    (hxs : ∀ x ∈ xs, s.shape? x = some shape) :
    ∃ y s' r', exec (makeElementwise op xs shape) s = (.ok y, s') ∧ Advances used s r s' r' ∧
      PointwiseOf used s' op xs y ∧ s'.elementwiseMemo = s.elementwiseMemo := by
  obtain ⟨category, sources, operands, hmake⟩ := exec_makeElementwise_eq (s := s) op xs shape
  have of : ∀ s' r', Grows s r s' r' → s'.tensors[s.tensors.size]? = some
      ⟨shape, .deferred category (.node s.nextNode op sources)⟩ →
        PointwiseOf used s' op xs s.tensors.size := fun s' r' g hy =>
    .intro hy operands.kind hop hused (operands.forall₂_spliced.imp fun _ _ => g.spliced)
      (fun x hx => lt_of_shape? (hxs x hx)) fun x hx => g.shape? (hxs x hx)
  obtain ⟨s', r', hrun, advances, hy, -, kept⟩ := h.exec_addNode
    (fun t ht => by
      obtain ⟨x, -, hxt⟩ := exists_of_forall₂_right operands.forall₂_spliced ht
      exact h.registered_spliced hxt)
    fun s' r' g hy => .pointwise (of s' r' g hy)
  exact ⟨_, s', r', hmake.trans hrun, advances, of s' r' advances.grows hy, kept⟩

/-- A pointwise operation that suits the shapes of its operands is applied to them. -/
theorem Coherent.exec_elementwise (h : Coherent used s r) {op : Op} (hused : used op)
    {xs : List TensorId} {shapes : List (List Nat)} {shape : List Nat}
    (hxs : List.Forall₂ (fun x d => s.shape? x = some d) xs shapes)
    (ho : elementwiseShape op shapes = .ok shape) :
    ∃ y s' r', exec (elementwise op xs) s = (.ok y, s') ∧ Advances used s r s' r' ∧
      PointwiseOf used s' op xs y := by
  obtain ⟨ts, hts, rfl⟩ := exists_tensors hxs
  obtain ⟨hop, hshapes⟩ := of_elementwiseShape ho
  cases hmemo : s.elementwiseMemo[(op, xs)]? with
  | some y =>
    refine ⟨y, s, r, ?_, .refl h, h.known_elementwise op xs y hmemo⟩
    rw [exec_elementwise_eq hts, ho, hmemo]
  | none =>
    have hsame : ∀ x ∈ xs, s.shape? x = some shape := fun x hx => by
      obtain ⟨d, hd, hxd⟩ := exists_of_forall₂_right hxs.flip hx
      rw [hxd, hshapes d hd]
    obtain ⟨y, s', r', hrun, advances, of, kept⟩ :=
      h.exec_makeElementwise (hxs.length_eq ▸ hop) hused hsame
    have hnew : s'.elementwiseMemo[(op, xs)]? = none := by rw [kept, hmemo]
    have g' : Grows s' r' (s'.withElementwise op xs y) r' := grows_withElementwise hnew
    exact ⟨y, _, r', exec_elementwise_new hts ho hmemo hrun,
      advances.trans ⟨advances.coherent.withElementwise hnew of, g', rfl⟩, g'.pointwiseOf of⟩

/-- A pointwise operation that does not suit the shapes of its operands is refused. -/
theorem exec_elementwise_error {op : Op} {xs : List TensorId} {shapes : List (List Nat)}
    (hxs : List.Forall₂ (fun x d => s.shape? x = some d) xs shapes) {e : SessionError}
    (he : elementwiseShape op shapes = .error e) :
    exec (elementwise op xs) s = (.error (.refused e), s) := by
  obtain ⟨ts, hts, rfl⟩ := exists_tensors hxs
  rw [exec_elementwise_eq hts, he]

/-! ## Host data, reductions and convolutions -/

/-- Whether the host may give data for a shape. -/
def hostSize (shape : List Nat) (data : Array Float32) : Attempt SessionError Unit := do
  (View.checkShape shape).mapError (Stop.mapRefusal .layout)
  let size ← (liftM (Shape.size shape) : Attempt LayoutError Nat).mapError (Stop.mapRefusal .layout)
  if data.size = size then pure () else refuse (.hostDataMismatch size data.size)

theorem exec_host_eq (shape : List Nat) (data : Array Float32) :
    exec (host shape data) s = match hostSize shape data with
      | .error e => (.error e, s)
      | .ok () => (.ok s.tensors.size, s.withTensor shape (.host data)) := by
  simp only [host, exec_bind, exec_liftLayout, hostSize]
  cases View.checkShape shape with
  | error e => rfl
  | ok _ =>
    cases hsize : Shape.size shape with
    | error e => rfl
    | ok size =>
      change exec (if data.size = size then _ else _) s = match (if data.size = size then _ else _ :
        Attempt SessionError Unit) with | .error e => _ | .ok () => _
      split <;> rfl

theorem Coherent.exec_host (h : Coherent used s r) {shape : List Nat} {data : Array Float32}
    (ho : hostSize shape data = .ok ()) :
    ∃ s', exec (host shape data) s = (.ok s.tensors.size, s') ∧ Advances used s r s' r ∧
      s'.tensors[s.tensors.size]? = some ⟨shape, .host data⟩ := by
  refine ⟨_, by rw [exec_host_eq, ho], ⟨h.withTensor ?_ ?_, grows_withTensor, rfl⟩,
    tensor_withTensor⟩
  · obtain ⟨_, -, ho⟩ := bind_eq_ok.mp ho
    obtain ⟨size, hsize, ho⟩ := bind_eq_ok.mp ho
    split at ho
    · rename_i e
      rw [← e] at hsize
      exact .host tensor_withTensor (liftM_eq_ok.mp (mapError_eq_ok.mp hsize))
    · cases ho
  · rintro category t e
    cases e

/-- Whether a reduction fits the shape of its operand. -/
def Reduces (shape target : List Nat) : Prop :=
  target.length = shape.length ∧ (shape.zip target).all (fun (i, o) => o = i ∨ o = 1)

instance (shape target : List Nat) : Decidable (Reduces shape target) :=
  inferInstanceAs (Decidable (_ ∧ _))

theorem exec_reduce_error {op : Reduction} {x : TensorId} {shape target : List Nat}
    (hx : s.shape? x = some shape) (hr : ¬ Reduces shape target) :
    exec (reduce op x target) s =
      (.error (.refused (.layout (.reduceShapeMismatch shape target))), s) := by
  obtain ⟨t, ht, rfl⟩ := Option.map_eq_some_iff.mp hx
  rw [reduce, exec_bind, exec_fetch ht]
  exact congrArg (exec · s) (if_neg hr)

theorem exec_reduce_eq (op : Reduction) {x : TensorId} {shape target : List Nat}
    (hx : s.shape? x = some shape) (hr : Reduces shape target) :
    exec (reduce op x target) s =
      exec (addNode target .reduction (.reduce op target) [.leaf x]) s := by
  obtain ⟨t, ht, rfl⟩ := Option.map_eq_some_iff.mp hx
  rw [reduce, exec_bind, exec_fetch ht]
  exact congrArg (exec · s) (if_pos hr)

theorem Coherent.exec_reduce (h : Coherent used s r) (op : Reduction) {x : TensorId}
    {shape target : List Nat} (hx : s.shape? x = some shape) (hr : Reduces shape target) :
    ∃ id y s' r', exec (reduce op x target) s = (.ok y, s') ∧ Advances used s r s' r' ∧
      s'.tensors[y]? =
        some ⟨target, .deferred .reduction (.node id (.reduce op target) [.leaf x])⟩ := by
  obtain ⟨s', r', hmade, advances, hy, -⟩ := h.exec_addNode
    (fun t ht => List.mem_singleton.mp ht ▸ .leaf x)
    fun s' r' g hy => .reduction hy (lt_of_shape? hx)
  exact ⟨_, _, s', r', (exec_reduce_eq op hx hr).trans hmade, advances, hy⟩

theorem exec_convolve_error {x w : TensorId} {args : Convolution} {e : Stop LayoutError}
    (he : View.checkShape args.outShape = .error e) :
    exec (convolve x w args) s = (.error (e.mapRefusal .layout), s) := by
  rw [convolve, exec_bind, exec_liftLayout, he]
  rfl

theorem exec_convolve_eq {x w : TensorId} {args : Convolution}
    (ho : View.checkShape args.outShape = .ok ()) :
    exec (convolve x w args) s =
      exec (addNode args.outShape .processing (.convolution args) [.leaf x, .leaf w]) s := by
  rw [convolve, exec_bind, exec_liftLayout, ho]
  rfl

theorem Coherent.exec_convolve (h : Coherent used s r) {x w : TensorId} {args : Convolution}
    (hx : x < s.tensors.size) (hw : w < s.tensors.size)
    (ho : View.checkShape args.outShape = .ok ()) :
    ∃ id y s' r', exec (convolve x w args) s = (.ok y, s') ∧ Advances used s r s' r' ∧
      s'.tensors[y]? = some ⟨args.outShape,
        .deferred .processing (.node id (.convolution args) [.leaf x, .leaf w])⟩ := by
  obtain ⟨s', r', hmade, advances, hy, -⟩ := h.exec_addNode
    (fun t ht => by rcases List.mem_pair.mp ht with rfl | rfl <;> exact .leaf _)
    fun s' r' g hy => .convolution hy hx hw
  exact ⟨_, _, s', r', (exec_convolve_eq ho).trans hmade, advances, hy⟩

end TensorLoom.Session
