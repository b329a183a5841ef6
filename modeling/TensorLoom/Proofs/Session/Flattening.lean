import TensorLoom.Proofs.Session.Memo
import TensorLoom.Proofs.Session.Movement

/-!
# Chains of pointwise operations

A pointwise operation takes up the trees of those of its operands that are pointwise and have not
been realized, so chains of pointwise operations become one tree: what is left at its leaves has
been realized, or is not pointwise (`Session.Reachable.flattens`).

There is one exception. Pushing a movement puts at the leaves what it makes of them, or what is
remembered of having moved them. Of a tensor that was pointwise when it was moved and has been
realized since, it remembers a pointwise tensor that nobody has realized. Such a tensor is outdated
(`Session.Outdated`): asked now, the movement would not be pushed. It stays a leaf
(`Session.not_forall_flattens`), and so do tensors that are moved from it.
-/

namespace TensorLoom.Session

open OpTree (Subtree)

variable {used : Op → Prop} {s s' : Session} {r r' : OpTree.Register TensorId}

/-- A tensor of a pointwise tree. -/
def IsElementwise (s : Session) (x : TensorId) : Prop :=
  ∃ shape tree, s.tensors[x]? = some ⟨shape, .deferred .elementwise tree⟩

/-- One tensor is what is known for another one after a movement, or after several. -/
def MovedFrom (s : Session) : TensorId → TensorId → Prop :=
  Relation.TransGen fun w z => ∃ m : Movement, s.movementMemo[(m, w)]? = some z

/-- A tensor that was made of a pointwise tensor, by movements, and the other one has been realized.
-/
def Outdated (s : Session) (z : TensorId) : Prop :=
  ∃ w, s.IsElementwise w ∧ s.isRealized w = true ∧ s.MovedFrom w z

/-- Whatever is still open at the leaves of pointwise trees is outdated. -/
def Flat (s : Session) : Prop :=
  ∀ (y : TensorId) (shape : List Nat) (tree : OpTree TensorId) (z : TensorId),
    s.tensors[y]? = some ⟨shape, .deferred .elementwise tree⟩ → Subtree (.leaf z) tree →
      s.isOpen z .elementwise = true → s.Outdated z

/-! ## Open tensors -/

theorem isOpen_elementwise_iff {x : TensorId} :
    s.isOpen x .elementwise = true ↔ s.IsElementwise x ∧ s.isRealized x = false := by
  rw [isOpen, Bool.and_eq_true, Bool.not_eq_true']
  refine and_congr_left' ?_
  unfold IsElementwise
  cases s.tensors[x]? with
  | none => simp
  | some t =>
    obtain ⟨shape, content⟩ := t
    cases content with
    | host data => simp [Tensor.category]
    | deferred category tree => simp [Tensor.category]

/-- What a movement leaves open it has been pushed into, or it has left the tensor as it was. -/
theorem MovementOf.isElementwise {m : Movement} {x y : TensorId} (h : MovementOf s m x y)
    (hy : s.IsElementwise y) : s.IsElementwise x := by
  obtain ⟨shape, tree, hy⟩ := hy
  cases h with
  | same _ _ => exact ⟨shape, tree, hy⟩
  | pushed source _ _ _ _ _ _ => exact ⟨_, _, source⟩
  | chained _ _ made _ _ => cases (Tensor.mk.inj (Option.some.inj (hy.symm.trans made))).2

/-! ## As a session goes on -/

/-- Nothing is lost of a session, and what has been realized stays realized. -/
theorem Outdated.mono (g : Grows s r s' r')
    (hrealized : ∀ x, s.isRealized x = true → s'.isRealized x = true) {z : TensorId}
    (h : s.Outdated z) : s'.Outdated z := by
  obtain ⟨w, ⟨shape, tree, hw⟩, hrw, hmoved⟩ := h
  refine ⟨w, ⟨shape, tree, g.tensors _ _ hw⟩, hrealized w hrw, Relation.TransGen.mono ?_ _ _ hmoved⟩
  rintro a b ⟨m, hm⟩
  exact ⟨m, g.known_movement _ _ _ hm⟩

/-- A tensor that is open was open before. -/
theorem isOpen_of_grows (g : Grows s r s' r')
    (hrealized : ∀ x, s.isRealized x = true → s'.isRealized x = true) {z : TensorId}
    (hz : z < s.tensors.size) (hopen : s'.isOpen z .elementwise = true) :
    s.isOpen z .elementwise = true := by
  obtain ⟨⟨shape, tree, hz'⟩, hnot⟩ := isOpen_elementwise_iff.mp hopen
  have ht := Array.getElem?_eq_getElem hz
  refine isOpen_elementwise_iff.mpr ⟨⟨shape, tree, ?_⟩, Bool.eq_false_of_not_eq_true fun hr => ?_⟩
  · exact ht.trans ((g.tensors _ _ ht).symm.trans hz')
  · cases hnot.symm.trans (hrealized z hr)

/-- A session stays flat if the tensors that are new are. -/
theorem Flat.grow (h : s.Flat) (hs : Coherent used s r) (g : Grows s r s' r')
    (hrealized : ∀ x, s.isRealized x = true → s'.isRealized x = true)
    (new : ∀ (y : TensorId) (shape : List Nat) (tree : OpTree TensorId) (z : TensorId),
      s.tensors.size ≤ y → s'.tensors[y]? = some ⟨shape, .deferred .elementwise tree⟩ →
        Subtree (.leaf z) tree → s'.isOpen z .elementwise = true → s'.Outdated z) : s'.Flat := by
  intro y shape tree z hy hz hopen
  rcases Nat.lt_or_ge y s.tensors.size with hlt | hge
  · have ht := Array.getElem?_eq_getElem hlt
    have hy₀ := ht.trans ((g.tensors _ _ ht).symm.trans hy)
    have hzlt : z < s.tensors.size := (hs.older hy₀ hz).trans hlt
    exact (h y shape tree z hy₀ hz (isOpen_of_grows g hrealized hzlt hopen)).mono g hrealized
  · exact new y shape tree z hge hy hz hopen

/-! ## Steps -/

/-- A pointwise operation leaves open at its leaves what its operands left open. -/
theorem Flat.applied (h : s.Flat) (hs : Coherent used s r)
    (hmerge : s.rules.mergeElementwise = true) {op : Op} {xs : List TensorId}
    {run : Except (Stop SessionError) TensorId × Session}
    (hrun : Applied s op xs run) {y : TensorId} {shape : List Nat} {tree : OpTree TensorId}
    {z : TensorId} (hnew : s.tensors.size ≤ y)
    (hy : run.2.tensors[y]? = some ⟨shape, .deferred .elementwise tree⟩)
    (hz : Subtree (.leaf z) tree)
    (hopen : z < s.tensors.size → s.isOpen z .elementwise = true) : s.Outdated z := by
  cases hrun with
  | refused e => exact absurd (lt_of_tensor hy) (Nat.not_lt_of_le hnew)
  | known _ => exact absurd (lt_of_tensor hy) (Nat.not_lt_of_le hnew)
  | made _ _ shapes operands =>
    have hy : (s.tensors.push _)[y]? = some ⟨shape, .deferred .elementwise tree⟩ := hy
    rw [Array.getElem?_push] at hy
    split at hy
    · cases hy
      cases operands with
      | kept keeps => cases hmerge.symm.trans keeps
      | spliced =>
        rcases OpTree.subtree_node.mp hz with e | ⟨u, hu, hzu⟩
        · cases e
        · obtain ⟨x, hx, rfl⟩ := List.mem_map.mp hu
          by_cases hxopen : s.isOpen x .elementwise = true
          · obtain ⟨t, ht⟩ := exists_of_isOpen hxopen
            rw [operand_of_isOpen ht hxopen] at hzu
            have ht' := ht.trans (congrArg some (content_of_isOpen ht hxopen))
            exact h x _ _ z ht' hzu (hopen ((hs.older ht' hzu).trans (lt_of_tensor ht)))
          · rw [operand_of_not_isOpen hxopen] at hzu
            cases OpTree.subtree_leaf.mp hzu
            exact absurd (hopen (lt_of_shape? (shapes _ hx))) hxopen
    · exact absurd (lt_of_tensor hy) (Nat.not_lt_of_le hnew)

/-- A movement puts at the leaves what it makes of them. What it makes of a tensor that is open was
made of one that was open or has been realized since. -/
theorem Flat.moved (h : s.Flat) (hs : Coherent used s r) (hs' : Coherent used s' r')
    (g : Grows s r s' r') (hrealized : s'.realized = s.realized) {m : Movement} {x : TensorId}
    (hx : x < s.tensors.size) (hmoves : MovesOnce m (s.Needs x) s s') {y : TensorId}
    {shape : List Nat} {tree : OpTree TensorId} {z : TensorId} (hnew : s.tensors.size ≤ y)
    (hy : s'.tensors[y]? = some ⟨shape, .deferred .elementwise tree⟩)
    (hz : Subtree (.leaf z) tree) (hopen : s'.isOpen z .elementwise = true) : s'.Outdated z := by
  have hkept : ∀ x, s.isRealized x = true → s'.isRealized x = true := fun x hx => by
    rw [isRealized, hrealized]
    exact hx
  obtain ⟨w, hw, -, honly⟩ := hmoves.made y hnew (lt_of_tensor hy)
  have hwlt : w < s.tensors.size := Nat.lt_of_le_of_lt (hs.le_of_needs hw) hx
  cases hs'.known_movement m w y ((honly _).mpr rfl) with
  | same _ _ => exact absurd hwlt (Nat.not_lt_of_le hnew)
  | chained _ _ made _ _ => cases (Tensor.mk.inj (Option.some.inj (hy.symm.trans made))).2
  | pushed source _ made leaves _ _ _ =>
    cases hy.symm.trans made
    have ht := Array.getElem?_eq_getElem hwlt
    have hw₀ := ht.trans ((g.tensors _ _ ht).symm.trans source)
    obtain ⟨v, hv, hmemo⟩ := leaves.exists_leaf hz
    have hvz := (hs'.known_movement m v z hmemo).isElementwise (isOpen_elementwise_iff.mp hopen).1
    cases hr : s'.isRealized v with
    | true => exact ⟨v, hvz, hr, .single ⟨m, hmemo⟩⟩
    | false =>
      have hvopen := isOpen_of_grows g hkept ((hs.older hw₀ hv).trans hwlt)
        (isOpen_elementwise_iff.mpr ⟨hvz, hr⟩)
      obtain ⟨u, hu, hru, huv⟩ := (h w _ _ v hw₀ hv hvopen).mono g hkept
      exact ⟨u, hu, hru, huv.tail ⟨m, hmemo⟩⟩

/-- Reductions, convolutions and the host make no pointwise tensors. -/
theorem Added.of_elementwise {c : Construct TensorId} {shape : List Nat} {tree : OpTree TensorId}
    (h : Added s c ⟨shape, .deferred .elementwise tree⟩) :
    (∃ op xs, c = .elementwise op xs) ∨ ∃ m x, c = .movement m x := by
  cases h with
  | pointwise _ _ => exact .inl ⟨_, _, rfl⟩
  | moved _ => exact .inr ⟨_, _, rfl⟩

namespace Reachable

variable {rules : FusionRules}

theorem rules_eq (h : Reachable rules s) : s.rules = rules := by
  induction h with
  | start => rfl
  | @construct s c h operands ih =>
    obtain ⟨r, hs⟩ := h.coherent
    obtain ⟨r', advances⟩ := hs.step operands
    exact advances.grows.rules.trans ih
  | @realize s _ materialize device x _ ih =>
    obtain ⟨realized, e⟩ := realize_eq_withRealized materialize s device x
    exact e ▸ ih

/-- At any time, whatever is open at the leaves of pointwise trees is outdated. -/
theorem flat (h : Reachable .standard s) : s.Flat := by
  induction h with
  | start => exact fun y shape tree z hy => absurd hy (by simp [new])
  | @construct s c h operands ih =>
    obtain ⟨r, hs⟩ := h.coherent
    obtain ⟨r', advances⟩ := hs.step operands
    have hrealized : ∀ x, s.isRealized x = true → (exec c.step s).2.isRealized x = true :=
      fun x hx => by
        rw [isRealized, advances.realized]
        exact hx
    refine ih.grow hs advances.grows hrealized fun y shape tree z hnew hy hz hopen => ?_
    rcases added_step operands y _ hy with hold | hadded
    · exact absurd (lt_of_tensor hold) (Nat.not_lt_of_le hnew)
    rcases hadded.of_elementwise with ⟨op, xs, rfl⟩ | ⟨m, x, rfl⟩
    · have hmerge : s.rules.mergeElementwise = true := congrArg (·.mergeElementwise) h.rules_eq
      exact (ih.applied hs hmerge (applied_elementwise op operands) hnew hy hz fun hzlt =>
        isOpen_of_grows advances.grows hrealized hzlt hopen).mono advances.grows hrealized
    · have hx := operands x List.mem_cons_self
      exact ih.moved hs advances.coherent advances.grows advances.realized hx
        (hs.movesOnce m hx hs.follows) hnew hy hz hopen
  | @realize s _ materialize device x h ih =>
    obtain ⟨r, hs⟩ := h.coherent
    obtain ⟨realized, e⟩ := realize_eq_withRealized materialize s device x
    refine ih.grow hs (e ▸ grows_withRealized realized)
      (fun z hz => isRealized_realize hz materialize device x) fun y shape tree z hnew hy => ?_
    rw [e] at hy
    exact absurd (lt_of_tensor hy) (Nat.not_lt_of_le hnew)

/-- Chains of pointwise operations become one tree. Whatever has been built and realized before, a
leaf of a new pointwise tensor that is pointwise itself has been realized already, or is what
movements made of a pointwise tensor that has been realized since. -/
theorem flattens (h : Reachable .standard s) {c : Construct TensorId}
    (operands : ∀ x ∈ c.operands, x < s.tensors.size) :
    let s' := (exec c.step s).2
    ∀ (y : TensorId) (shape : List Nat) (tree : OpTree TensorId), s.tensors.size ≤ y →
      s'.tensors[y]? = some ⟨shape, .deferred .elementwise tree⟩ →
        ∀ z, Subtree (.leaf z) tree → s'.IsElementwise z →
          s.isRealized z = true ∨ s'.Outdated z := by
  intro s' y shape tree hnew hy z hz hzkind
  obtain ⟨r, hs⟩ := h.coherent
  obtain ⟨r', advances⟩ := hs.step operands
  by_cases hr : s.isRealized z = true
  · exact .inl hr
  · refine .inr ((h.construct operands).flat y shape tree z hy hz ?_)
    refine isOpen_elementwise_iff.mpr ⟨hzkind, ?_⟩
    rw [isRealized, advances.realized]
    exact Bool.eq_false_of_not_eq_true hr

/-- Data of the host, rectified and then transposed. -/
def transposedLater : Session where
  rules := .standard
  tensors := #[⟨[2, 3], .host #[1, 2, 3, 4, 5, 6]⟩,
    ⟨[2, 3], .deferred .elementwise (.node 0 (.unary .relu) [.leaf 0])⟩,
    ⟨[3, 2], .deferred .movement (.node 1 (.movement (.permute [1, 0])) [.leaf 0])⟩,
    ⟨[3, 2], .deferred .elementwise (.node 2 (.unary .relu) [.leaf 2])⟩]
  realized := ∅
  nextNode := 3
  elementwiseMemo := (∅ : Std.HashMap _ _).insert (.unary .relu, [0]) 1
  movementMemo :=
    ((∅ : Std.HashMap _ _).insert (.permute [1, 0], 0) 2).insert (.permute [1, 0], 1) 3

theorem exec_transpose_rectified :
    exec (movement (.permute [1, 0]) 1) (rectified [2, 3] #[1, 2, 3, 4, 5, 6]) =
      (.ok 3, transposedLater) := by
  rw [rectified_eq rfl]
  generalize hs : withElementwise (withTensor _ _ _) _ _ _ = s
  have hnew : ∀ x : TensorId, s.movementMemo[((.permute [1, 0] : Movement), x)]? = none :=
    fun x => hs ▸ Std.HashMap.getElem?_empty
  have hpush : s.pushesMovement (.permute [1, 0]) 1 = true := by
    have hrealized : s.isRealized 1 = false := hs ▸ Std.HashSet.contains_empty
    simp only [pushesMovement, isOpen, hrealized]
    rw [← hs]
    rfl
  have hx : s.tensors[1]? = some
      ⟨[2, 3], .deferred .elementwise (.node 0 (.unary .relu) ([0].map .leaf))⟩ := hs ▸ rfl
  obtain ⟨s₁, hfirst, hs₁⟩ : ∃ s₁, exec (movement (.permute [1, 0]) 0) s = (.ok 2, s₁) ∧
      s₁ = { transposedLater with
        tensors := transposedLater.tensors.pop
        nextNode := 2
        movementMemo := (∅ : Std.HashMap _ _).insert (.permute [1, 0], 0) 2 } := by
    subst hs
    exact ⟨_, exec_movement_leaf (hnew 0) rfl rfl fun _ => rfl, rfl⟩
  have hall : exec ([0].mapM (movement (.permute [1, 0]))) s = (.ok [2], s₁) := by
    rw [List.mapM_cons, exec_bind, hfirst]
    rfl
  subst hs₁
  exact exec_movement_leaves (hnew 1) hx rfl hpush (by decide) hall

/-- Data of the host, rectified, transposed and only then realized. It is negated afterwards. -/
def negatedLater : Session :=
  let transposed := (exec (Construct.step (.movement (.permute [1, 0]) 1))
    (rectified [2, 3] #[1, 2, 3, 4, 5, 6])).2
  let realized := (transposed.realize (recording none) #[] 1).2.1
  (exec (Construct.step (.elementwise (.unary .neg) [1])) realized).2

theorem negatedLater_eq : negatedLater =
    ((transposedLater.markRealized 1).withNode.withTensor [2, 3]
      (.deferred .elementwise (.node 3 (.unary .neg) [.leaf 1]))).withElementwise (.unary .neg) [1]
        4 := by
  obtain ⟨request, hasked⟩ : ∃ request, transposedLater.request? 1 = some request := by
    have hrealized : transposedLater.isRealized 1 = false := Std.HashSet.contains_empty
    exact ⟨_, if_neg (Bool.eq_false_iff.mp hrealized)⟩
  have hready : ∀ z ∈ transposedLater.sources 1, transposedLater.isPending z = false := by
    have hsources : transposedLater.sources 1 = [0] := by
      change (OpTree.leaves (.node 0 (.unary .relu) [.leaf 0])).eraseDups = [0]
      rw [OpTree.leaves, OpTree.walk_single]
      rfl
    rw [hsources, List.forall_mem_singleton]
    rfl
  have hnew : (transposedLater.markRealized 1).elementwiseMemo[(Op.unary .neg, [1])]? = none := by
    simp [transposedLater, markRealized]
  have hclosed : ∀ x ∈ [1], ∀ category,
      (transposedLater.markRealized 1).isOpen x category = false := by
    rw [List.forall_mem_singleton]
    intro category
    rw [isOpen, isRealized, markRealized, Std.HashSet.contains_insert_self, Bool.not_true,
      Bool.and_false]
  have hnegate := exec_elementwise_leaves (.cons rfl .nil) rfl hnew hclosed
  rw [negatedLater, Construct.step, Construct.step, exec_transpose_rectified]
  dsimp only
  rw [realize_ready (recording none) hasked hready rfl, hnegate]
  rfl

theorem reachable_negatedLater : Reachable .standard negatedLater := by
  have h : Reachable .standard (rectified [2, 3] #[1, 2, 3, 4, 5, 6]) :=
    construct (construct start (List.forall_mem_nil _)) (by decide)
  have hsize : (rectified [2, 3] #[1, 2, 3, 4, 5, 6]).tensors.size = 2 := by
    rw [rectified_eq rfl]
    rfl
  have transposed := h.construct (c := .movement (.permute [1, 0]) 1)
    (List.forall_mem_singleton.mpr (Nat.lt_of_lt_of_eq (by decide) hsize.symm))
  have hsize' : ((exec (Construct.step (.movement (.permute [1, 0]) 1))
      (rectified [2, 3] #[1, 2, 3, 4, 5, 6])).2.realize (recording none) #[] 1).2.1.tensors.size =
        4 := by
    obtain ⟨realized, e⟩ := realize_eq_withRealized (recording none) (exec (Construct.step
      (.movement (.permute [1, 0]) 1)) (rectified [2, 3] #[1, 2, 3, 4, 5, 6])).2 #[] 1
    rw [e, Construct.step, exec_transpose_rectified]
    rfl
  exact (transposed.realize (recording none) #[] 1).construct (c := .elementwise (.unary .neg) [1])
    (List.forall_mem_singleton.mpr (hsize' ▸ by decide))

/-- Transposing the negated tensor takes up what is known of the rectified one. -/
theorem transposed_negatedLater :
    let s' := (exec (Construct.step (.movement (.permute [1, 0]) 4)) negatedLater).2
    negatedLater.tensors.size = 5 ∧ negatedLater.isRealized 3 = false ∧ s'.IsElementwise 3 ∧
      s'.tensors[5]? =
        some ⟨[3, 2], .deferred .elementwise (.node 4 (.unary .neg) [.leaf 3])⟩ := by
  have hrealized : ∀ x ≠ 1, negatedLater.isRealized x = false := fun x hx => by
    rw [negatedLater_eq]
    refine Std.HashSet.contains_insert.trans ?_
    rw [beq_eq_false_iff_ne.mpr hx.symm]
    exact Std.HashSet.contains_empty
  have hx : negatedLater.tensors[4]? = some
      ⟨[2, 3], .deferred .elementwise (.node 3 (.unary .neg) ([1].map .leaf))⟩ := by
    rw [negatedLater_eq]
    rfl
  have hnew : negatedLater.movementMemo[((.permute [1, 0] : Movement), 4)]? = none := by
    rw [negatedLater_eq]
    change transposedLater.movementMemo[_]? = none
    simp [transposedLater]
  have hknown : negatedLater.movementMemo[((.permute [1, 0] : Movement), 1)]? = some 3 := by
    rw [negatedLater_eq]
    exact Std.HashMap.getElem?_insert_self
  have hpush : negatedLater.pushesMovement (.permute [1, 0]) 4 = true := by
    simp only [pushesMovement, isOpen, hrealized 4 (by decide), hx]
    rw [negatedLater_eq]
    rfl
  have hmoves : exec ([1].mapM (movement (.permute [1, 0]))) negatedLater =
      (.ok [3], negatedLater) := by
    rw [List.mapM_cons, exec_bind, exec_movement_known hknown]
    rfl
  have hrun := exec_movement_leaves hnew hx rfl hpush (by decide) hmoves
  rw [Construct.step, hrun]
  refine ⟨?_, hrealized 3 (by decide), ⟨[3, 2], .node 2 (.unary .relu) [.leaf 2], ?_⟩, ?_⟩ <;>
    rw [negatedLater_eq] <;> rfl

/-- The rectified tensor was pointwise when it was transposed. -/
theorem flattens_negatedLater :
    (exec (Construct.step (.movement (.permute [1, 0]) 4)) negatedLater).2.Outdated 3 := by
  obtain ⟨hsize, hrealized, hkind, hy⟩ := transposed_negatedLater
  have hstep := flattens reachable_negatedLater (c := .movement (.permute [1, 0]) 4)
    (List.forall_mem_singleton.mpr (hsize ▸ by decide))
  refine (hstep 5 _ _ (Nat.le_of_eq hsize) hy 3 ?_ hkind).resolve_left fun hr => ?_
  · exact OpTree.subtree_source List.mem_cons_self
  · cases hrealized.symm.trans hr

/-- Not every pointwise leaf of a new pointwise tensor has been realized. -/
theorem not_forall_flattens :
    ¬ ∀ (s : Session) (c : Construct TensorId), Reachable .standard s →
      (∀ x ∈ c.operands, x < s.tensors.size) →
        let s' := (exec c.step s).2
        ∀ (y : TensorId) (shape : List Nat) (tree : OpTree TensorId), s.tensors.size ≤ y →
          s'.tensors[y]? = some ⟨shape, .deferred .elementwise tree⟩ →
            ∀ z, Subtree (.leaf z) tree → s'.IsElementwise z → s.isRealized z = true := by
  intro hall
  obtain ⟨hsize, hrealized, hkind, hy⟩ := transposed_negatedLater
  have hleaf := hall negatedLater (.movement (.permute [1, 0]) 4) reachable_negatedLater
    (List.forall_mem_singleton.mpr (hsize ▸ by decide)) 5 _ _ (Nat.le_of_eq hsize) hy 3
    (OpTree.subtree_source List.mem_cons_self) hkind
  cases hrealized.symm.trans hleaf

end Reachable

end TensorLoom.Session
