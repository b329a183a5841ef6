import TensorLoom.Proofs.OpTree.Correspondence
import TensorLoom.Proofs.Session.Value

/-!
# Where tensors come from

Every tensor of a session is made in one of five ways (`Session.Origin`), and the tree that it gets
depends on the rules of fusion. Fusion never shows in its value: `Session.PointwiseOf.value` and
`Session.MovementOf.value` say that what a pointwise operation or a movement makes of its operands
is a matter of their values alone.

An operand in a tree is spliced or left as it is (`Session.Spliced`), which is the same to the value
of the tree. Pushing a movement puts moved tensors at the leaves of a tree and keeps its operations;
the tree then holds the moved value, since every operation of the tree is pointwise
(`Session.Coherent.pointwise_tree`).
-/

namespace TensorLoom

open OpTree (Subtree Corresponds Registered Register EveryNode)

/-- What a movement makes of a row-major buffer: its tracker, and whether this leaves the buffer as
it is. -/
def Movement.outcome (m : Movement) (shape : List Nat) : Attempt LayoutError (Tracker × Bool) := do
  let t ← Dense.tracker shape m
  return (t, ← t.isIdentity shape)

namespace Session

/-- The shape of a tensor. -/
def shape? (s : Session) (x : TensorId) : Option (List Nat) :=
  s.tensors[x]?.map (·.shape)

/-- A tree that stands for a tensor in the trees of a kind: the tensor itself, or its own tree if it
is of this kind. -/
inductive Spliced (s : Session) (category : Category) (x : TensorId) : OpTree TensorId → Prop
  | leaf : Spliced s category x (.leaf x)
  | tree {shape : List Nat} {t : OpTree TensorId} :
      s.tensors[x]? = some ⟨shape, .deferred category t⟩ → Spliced s category x t

/-- A tensor is made of operands of its own shape by a pointwise operation. -/
inductive PointwiseOf (used : Op → Prop) (s : Session) (op : Op) (xs : List TensorId)
    (y : TensorId) : Prop
  | intro {shape : List Nat} {category : Category} {id : Nat} {sources : List (OpTree TensorId)}
      (made : s.tensors[y]? = some ⟨shape, .deferred category (.node id op sources)⟩)
      (kind : category = .elementwise ∨ category = .processing)
      (pointwise : op.Pointwise xs.length)
      (used : used op)
      (operands : List.Forall₂ (Spliced s category) xs sources)
      (older : ∀ x ∈ xs, x < y)
      (shapes : ∀ x ∈ xs, s.shape? x = some shape)

/-- A tensor is what a movement makes of another one. Paddings are pushed where the rules say so. -/
inductive MovementOf (s : Session) (m : Movement) (x : TensorId) : TensorId → Prop
  | same {shape : List Nat} {t : Tracker}
      (source : s.shape? x = some shape)
      (outcome : m.outcome shape = .ok (t, true)) : MovementOf s m x x
  | pushed {shape : List Nat} {t : Tracker} {tree moved : OpTree TensorId} {y : TensorId}
      (source : s.tensors[x]? = some ⟨shape, .deferred .elementwise tree⟩)
      (outcome : m.outcome shape = .ok (t, false))
      (made : s.tensors[y]? = some ⟨t.shape, .deferred .elementwise moved⟩)
      (leaves : Corresponds (fun z z' => s.movementMemo[(m, z)]? = some z') tree moved)
      (allowed : (∀ amounts, m ≠ .pad amounts) ∨ s.rules.pushPads = true)
      (source_older : x < y)
      (older : ∀ z, Subtree (.leaf z) moved → z < y) : MovementOf s m x y
  | chained {shape : List Nat} {t : Tracker} {id : Nat} {source : OpTree TensorId} {y : TensorId}
      (source_shape : s.shape? x = some shape)
      (outcome : m.outcome shape = .ok (t, false))
      (made : s.tensors[y]? = some
        ⟨t.shape, .deferred .movement (.node id (.movement m) [source])⟩)
      (operand : Spliced s .movement x source)
      (older : x < y) : MovementOf s m x y

/-- How a tensor was made. -/
inductive Origin (used : Op → Prop) (s : Session) (y : TensorId) : Prop
  | host {shape : List Nat} {data : Array Float32}
      (made : s.tensors[y]? = some ⟨shape, .host data⟩)
      (size : Shape.size shape = .ok data.size)
  | pointwise {op : Op} {xs : List TensorId} (of : PointwiseOf used s op xs y)
  | movement {m : Movement} {x : TensorId} (of : MovementOf s m x y) (older : x < y)
  | reduction {shape : List Nat} {id : Nat} {op : Reduction} {x : TensorId}
      (made : s.tensors[y]? = some
        ⟨shape, .deferred .reduction (.node id (.reduce op shape) [.leaf x])⟩)
      (older : x < y)
  | convolution {id : Nat} {args : Convolution} {x w : TensorId}
      (made : s.tensors[y]? = some
        ⟨args.outShape, .deferred .processing (.node id (.convolution args) [.leaf x, .leaf w])⟩)
      (older : x < y) (weights_older : w < y)

/-- Every tensor has an origin, and so has every entry of a memo. The nodes of all trees are those
of a register, which has none of an identity still to be given. -/
structure Coherent (used : Op → Prop) (s : Session) (r : Register TensorId) : Prop where
  origin : ∀ y, y < s.tensors.size → Origin used s y
  registered : ∀ (y : TensorId) (shape : List Nat) (category : Category) (t : OpTree TensorId),
    s.tensors[y]? = some ⟨shape, .deferred category t⟩ → Registered r t
  fresh : ∀ id, s.nextNode ≤ id → r id = none
  known_elementwise : ∀ op xs y, s.elementwiseMemo[(op, xs)]? = some y → PointwiseOf used s op xs y
  known_movement : ∀ m x y, s.movementMemo[(m, x)]? = some y → MovementOf s m x y

variable {used : Op → Prop} {s s' : Session} {r r' : Register TensorId}

theorem coherent_new (used : Op → Prop) (rules : FusionRules) :
    Coherent used (.new rules) fun _ => none where
  origin y hy := absurd hy (Nat.not_lt_zero y)
  registered y shape category t h := by simp [new] at h
  fresh _ _ := rfl
  known_elementwise op xs y h := by simp [new] at h
  known_movement m x y h := by simp [new] at h

theorem lt_of_tensor {x : TensorId} {t : Tensor} (h : s.tensors[x]? = some t) :
    x < s.tensors.size :=
  (Array.getElem?_eq_some_iff.mp h).1

theorem shape?_of_tensor {x : TensorId} {t : Tensor} (h : s.tensors[x]? = some t) :
    s.shape? x = some t.shape := by
  rw [shape?, h]
  rfl

theorem lt_of_shape? {x : TensorId} {shape : List Nat} (h : s.shape? x = some shape) :
    x < s.tensors.size := by
  obtain ⟨t, ht, -⟩ := Option.map_eq_some_iff.mp h
  exact lt_of_tensor ht

/-- What a movement makes of a tensor has the shape of its tracker. -/
theorem MovementOf.shape_eq {m : Movement} {x y : TensorId} (h : MovementOf s m x y)
    {shape : List Nat} (hx : s.shape? x = some shape) {t : Tracker}
    (ht : m.outcome shape = .ok (t, false)) : s.shape? y = some t.shape := by
  cases h with
  | same source outcome =>
    obtain rfl := Option.some.inj (hx.symm.trans source)
    cases ht.symm.trans outcome
  | pushed source outcome made _ _ _ _ =>
    obtain rfl := Option.some.inj (hx.symm.trans (shape?_of_tensor source))
    cases ht.symm.trans outcome
    exact shape?_of_tensor made
  | chained source outcome made _ _ =>
    obtain rfl := Option.some.inj (hx.symm.trans source)
    cases ht.symm.trans outcome
    exact shape?_of_tensor made

/-- A movement that changes nothing gives the tensor itself. -/
theorem MovementOf.eq_of_same {m : Movement} {x y : TensorId} (h : MovementOf s m x y)
    {shape : List Nat} (hx : s.shape? x = some shape) {t : Tracker}
    (ht : m.outcome shape = .ok (t, true)) : y = x := by
  cases h with
  | same _ _ => rfl
  | pushed source outcome _ _ _ _ _ =>
    obtain rfl := Option.some.inj (hx.symm.trans (shape?_of_tensor source))
    cases ht.symm.trans outcome
  | chained source outcome _ _ _ =>
    obtain rfl := Option.some.inj (hx.symm.trans source)
    cases ht.symm.trans outcome

/-- A pointwise operation has the shape of its operands. -/
theorem PointwiseOf.shape_eq {op : Op} {xs : List TensorId} {y : TensorId}
    (h : PointwiseOf used s op xs y) {shape : List Nat}
    (hxs : ∀ x ∈ xs, s.shape? x = some shape) : s.shape? y = some shape := by
  obtain ⟨made, -, pointwise, -, -, -, shapes⟩ := h
  have hne : xs ≠ [] := by
    rintro rfl
    cases pointwise
  obtain ⟨x, hx⟩ := List.exists_mem_of_ne_nil xs hne
  obtain rfl := Option.some.inj ((shapes x hx).symm.trans (hxs x hx))
  exact shape?_of_tensor made

theorem MovementOf.exists_outcome {m : Movement} {x y : TensorId} (h : MovementOf s m x y)
    {shape : List Nat} (hx : s.shape? x = some shape) :
    ∃ t same, m.outcome shape = .ok (t, same) := by
  cases h with
  | same source outcome => exact ⟨_, _, Option.some.inj (hx.symm.trans source) ▸ outcome⟩
  | pushed source outcome _ _ _ _ _ =>
    obtain rfl := Option.some.inj (hx.symm.trans (shape?_of_tensor source))
    exact ⟨_, _, outcome⟩
  | chained source outcome _ _ _ =>
    exact ⟨_, _, Option.some.inj (hx.symm.trans source) ▸ outcome⟩

theorem MovementOf.lt_size {m : Movement} {x y : TensorId} (h : MovementOf s m x y) :
    y < s.tensors.size := by
  cases h with
  | same source _ => exact lt_of_shape? source
  | pushed _ _ made _ _ _ _ => exact lt_of_tensor made
  | chained _ _ made _ _ => exact lt_of_tensor made

/-! ## Trees -/

/-- A spliced operand has leaves older than what it is spliced into. -/
theorem Spliced.older {category : Category} {x y : TensorId} {t : OpTree TensorId}
    (h : Spliced s category x t) (hxy : x < y)
    (hx : ∀ shape category t, s.tensors[x]? = some ⟨shape, .deferred category t⟩ →
      ∀ z, Subtree (.leaf z) t → z < x) {z : TensorId} (hz : Subtree (.leaf z) t) : z < y := by
  cases h with
  | leaf =>
    cases OpTree.subtree_leaf.mp hz
    exact hxy
  | tree h => exact (hx _ _ _ h z hz).trans hxy

/-- A tree of pointwise operations that have been used, each with as many operands as it takes, over
tensors of one shape. -/
structure PointwiseTree (used : Op → Prop) (s : Session) (shape : List Nat) (t : OpTree TensorId) :
    Prop where
  nodes : t.EveryNode fun op n => op.Pointwise n ∧ used op
  leaves : ∀ z, Subtree (.leaf z) t → s.shape? z = some shape

namespace PointwiseTree

variable {shape : List Nat}

theorem leaf {x : TensorId} (h : s.shape? x = some shape) :
    PointwiseTree used s shape (.leaf x) where
  nodes := OpTree.everyNode_leaf x
  leaves z hz := by
    cases OpTree.subtree_leaf.mp hz
    exact h

theorem node {id : Nat} {op : Op} {sources : List (OpTree TensorId)}
    (hop : op.Pointwise sources.length ∧ used op)
    (h : ∀ t ∈ sources, PointwiseTree used s shape t) :
    PointwiseTree used s shape (.node id op sources) where
  nodes := OpTree.everyNode_node.mpr ⟨hop, fun t ht => (h t ht).nodes⟩
  leaves z hz := by
    rcases OpTree.subtree_node.mp hz with e | ⟨t, ht, hzt⟩
    · cases e
    · exact (h t ht).leaves z hzt

end PointwiseTree

theorem Spliced.pointwiseTree {x : TensorId} {shape : List Nat} {t : OpTree TensorId}
    (h : Spliced s .elementwise x t) (hshape : s.shape? x = some shape)
    (hx : ∀ {shape t}, s.tensors[x]? = some ⟨shape, .deferred .elementwise t⟩ →
      PointwiseTree used s shape t) : PointwiseTree used s shape t := by
  cases h with
  | leaf => exact .leaf hshape
  | tree made =>
    obtain rfl := Option.some.inj ((shape?_of_tensor made).symm.trans hshape)
    exact hx made

namespace Coherent

/-- The leaves of a tree are older than its tensor. -/
theorem older (h : Coherent used s r) {y : TensorId} {shape : List Nat} {category : Category}
    {t : OpTree TensorId} (hy : s.tensors[y]? = some ⟨shape, .deferred category t⟩) {z : TensorId}
    (hz : Subtree (.leaf z) t) : z < y := by
  induction y using Nat.strongRecOn generalizing shape category t z with
  | ind y ih =>
    have hspliced : ∀ {category x t z}, Spliced s category x t → x < y → Subtree (.leaf z) t →
        z < y := fun hs hxy hz => hs.older hxy (fun _ _ _ hx _ hz => ih _ hxy hx hz) hz
    have hmade : ∀ {shape' category' t'},
        s.tensors[y]? = some ⟨shape', .deferred category' t'⟩ → t = t' := by
      intro shape' category' t' h'
      rw [hy] at h'
      cases h'
      rfl
    cases h.origin y (lt_of_tensor hy) with
    | host made _ =>
      rw [hy] at made
      cases made
    | pointwise of =>
      obtain ⟨made, -, -, -, operands, older, -⟩ := of
      obtain rfl := hmade made
      rcases OpTree.subtree_node.mp hz with e | ⟨t, ht, hz⟩
      · cases e
      · obtain ⟨x, hx, hxt⟩ := exists_of_forall₂_right operands ht
        exact hspliced hxt (older x hx) hz
    | movement of hxy =>
      cases of with
      | same _ _ => exact absurd hxy (Nat.lt_irrefl _)
      | pushed _ _ made _ _ _ older =>
        obtain rfl := hmade made
        exact older z hz
      | chained _ _ made operand _ =>
        obtain rfl := hmade made
        rcases OpTree.subtree_node.mp hz with e | ⟨t, ht, hzt⟩
        · cases e
        · obtain rfl := List.mem_singleton.mp ht
          exact hspliced operand hxy hzt
    | reduction made hxy =>
      obtain rfl := hmade made
      cases OpTree.subtree_single hz
      exact hxy
    | convolution made hx hw =>
      obtain rfl := hmade made
      rcases OpTree.subtree_node.mp hz with e | ⟨t, ht, hz⟩
      · cases e
      · rcases List.mem_pair.mp ht with rfl | rfl
        · cases OpTree.subtree_leaf.mp hz
          exact hx
        · cases OpTree.subtree_leaf.mp hz
          exact hw

/-- The tree of a pointwise tensor is a pointwise tree. -/
theorem pointwise_tree (h : Coherent used s r) {y : TensorId} {shape : List Nat}
    {t : OpTree TensorId} (hy : s.tensors[y]? = some ⟨shape, .deferred .elementwise t⟩) :
    PointwiseTree used s shape t := by
  induction y using Nat.strongRecOn generalizing shape t with
  | ind y ih =>
    have hmade : ∀ {shape' category' t'},
        s.tensors[y]? = some ⟨shape', .deferred category' t'⟩ →
          shape' = shape ∧ category' = .elementwise ∧ t' = t := by
      intro shape' category' t' h'
      rw [hy] at h'
      cases h'
      exact ⟨rfl, rfl, rfl⟩
    cases h.origin y (lt_of_tensor hy) with
    | host made _ =>
      rw [hy] at made
      cases made
    | pointwise of =>
      obtain ⟨made, -, pointwise, hused, operands, older, shapes⟩ := of
      obtain ⟨rfl, rfl, rfl⟩ := hmade made
      refine .node ⟨operands.length_eq ▸ pointwise, hused⟩ fun t ht => ?_
      obtain ⟨x, hx, hxt⟩ := exists_of_forall₂_right operands ht
      exact hxt.pointwiseTree (shapes x hx) (ih x (older x hx))
    | movement of hxy =>
      cases of with
      | same _ _ => exact absurd hxy (Nat.lt_irrefl _)
      | pushed source outcome made leaves _ _ _ =>
        obtain ⟨rfl, -, rfl⟩ := hmade made
        obtain ⟨hnodes, hleaves⟩ := ih _ hxy source
        refine ⟨leaves.everyNode hnodes, fun z' hz' => ?_⟩
        obtain ⟨z, hz, hmemo⟩ := leaves.exists_leaf hz'
        exact (h.known_movement _ _ _ hmemo).shape_eq (hleaves z hz) outcome
      | chained _ _ made _ _ => cases (hmade made).2.1
    | reduction made _ => cases (hmade made).2.1
    | convolution made _ _ => cases (hmade made).2.1

end Coherent

/-! ## Values -/

variable {rule : ConvolutionRule}

/-- A pointwise tree over values of one shape has a value of this shape. -/
theorem PointwiseTree.ofShape_value {shape : List Nat} {t : OpTree TensorId}
    {f : TensorId → Option (Dense Float32)} (h : PointwiseTree used s shape t)
    (hf : ∀ z, Subtree (.leaf z) t → Dense.OfShape shape (f z)) :
    Dense.OfShape shape (t.value? rule f) := by
  obtain ⟨hnodes, -⟩ := h
  induction t using OpTree.induction with
  | leaf x =>
    rw [OpTree.value?]
    exact hf x (.refl _)
  | node id op sources ih =>
    obtain ⟨⟨hop, -⟩, hsources⟩ := OpTree.everyNode_node.mp hnodes
    rw [OpTree.value?]
    refine Op.Pointwise.ofShape_value (by rwa [List.length_map]) fun v hv => ?_
    obtain ⟨t, ht, rfl⟩ := List.mem_map.mp hv
    exact ih t ht (fun z hz => hf z (hz.trans (OpTree.subtree_source ht))) (hsources t ht)

/-- A pointwise tree with moved leaves has the moved value. -/
theorem PointwiseTree.value_moved {shape : List Nat} {t u : OpTree TensorId}
    {f : TensorId → Option (Dense Float32)} {m : Movement} (h : PointwiseTree used s shape t)
    (hf : ∀ z, Subtree (.leaf z) t → Dense.OfShape shape (f z))
    (hm : ∀ op, used op → Dense.Exchanges m op.SendsZeros)
    (hu : Corresponds (fun z z' => f z' = (f z).bind (Dense.move m)) t u) :
    u.value? rule f = (t.value? rule f).bind (Dense.move m) := by
  induction t using OpTree.induction generalizing u with
  | leaf x =>
    obtain ⟨hxy⟩ := hu
    rw [OpTree.value?, OpTree.value?, hxy]
  | node id op sources ih =>
    rcases hu with _ | ⟨hsources'⟩
    obtain ⟨⟨hop, hused⟩, hsources⟩ := OpTree.everyNode_node.mp h.nodes
    have below : ∀ t ∈ sources, PointwiseTree used s shape t ∧
        ∀ z, Subtree (.leaf z) t → Dense.OfShape shape (f z) := fun t ht =>
      ⟨⟨hsources t ht, fun z hz => h.leaves z (hz.trans (OpTree.subtree_source ht))⟩,
        fun z hz => hf z (hz.trans (OpTree.subtree_source ht))⟩
    have moved : ∀ t ∈ sources, ∀ u, Corresponds _ t u →
        u.value? rule f = (t.value? rule f).bind (Dense.move m) := fun t ht u hu =>
      ih t ht (below t ht).1 (below t ht).2 hu
    have values := ((List.forall₂_and_left _ _).mpr ⟨moved, hsources'⟩).imp
      fun t u htu => htu.1 u htu.2
    have shapes : ∀ v ∈ sources.map (OpTree.value? rule f), Dense.OfShape shape v := by
      intro v hv
      obtain ⟨t, ht, rfl⟩ := List.mem_map.mp hv
      exact (below t ht).1.ofShape_value (below t ht).2
    have arity : op.Pointwise (sources.map (OpTree.value? rule f)).length := by
      rwa [List.length_map]
    rw [OpTree.value?, OpTree.value?, ← arity.value_move shapes (hm op hused), List.map_map]
    exact congrArg _ (forall₂_eq_map (List.forall₂_map_right_iff.mpr values))

/-- Splicing an operand is nothing to its value. -/
theorem Coherent.value_spliced (h : Coherent used s r) {category : Category} {x : TensorId}
    {t : OpTree TensorId} (hx : Spliced s category x t) :
    t.value? rule (s.value rule) = s.value rule x := by
  cases hx with
  | leaf => rw [OpTree.value?]
  | tree made => exact (value_deferred rule made fun _ hz => h.older made hz).symm

/-- The value of a pointwise operation is that of its operands. -/
theorem Coherent.value_pointwise (h : Coherent used s r) {op : Op} {xs : List TensorId}
    {y : TensorId} (of : PointwiseOf used s op xs y) :
    s.value rule y = op.value? rule (xs.map (s.value rule)) := by
  obtain ⟨made, -, -, -, operands, -, -⟩ := of
  rw [value_deferred rule made fun _ hz => h.older made hz, OpTree.value?]
  refine congrArg _ (forall₂_eq_map (List.forall₂_map_right_iff.mpr ?_))
  exact operands.imp fun x t hx => h.value_spliced hx

/-- A value has the shape of its tensor. -/
theorem Coherent.ofShape_value (h : Coherent used s r) {y : TensorId} {shape : List Nat}
    (hy : s.shape? y = some shape) : Dense.OfShape shape (s.value rule y) := by
  induction y using Nat.strongRecOn generalizing shape with
  | ind y ih =>
    have hshape : ∀ {t : Tensor}, s.tensors[y]? = some t → t.shape = shape := fun ht =>
      Option.some.inj ((shape?_of_tensor ht).symm.trans hy)
    cases h.origin y (lt_of_shape? hy) with
    | host made _ =>
      obtain rfl := hshape made
      rw [value_host rule made]
      intro d hd
      split at hd
      · obtain rfl := Option.some.inj hd
        exact ⟨rfl, ‹_›⟩
      · cases hd
    | pointwise of =>
      rw [h.value_pointwise of]
      obtain ⟨made, -, pointwise, -, -, older, shapes⟩ := of
      obtain rfl := hshape made
      refine Op.Pointwise.ofShape_value (by rwa [List.length_map]) fun v hv => ?_
      obtain ⟨x, hx, rfl⟩ := List.mem_map.mp hv
      exact ih x (older x hx) (shapes x hx)
    | movement of hxy =>
      cases of with
      | same _ _ => exact absurd hxy (Nat.lt_irrefl _)
      | pushed source outcome made leaves _ _ older =>
        obtain rfl := hshape made
        have tree := h.pointwise_tree made
        rw [value_deferred rule made older]
        exact tree.ofShape_value fun z hz => ih z (older z hz) (tree.leaves z hz)
      | chained source outcome made operand _ =>
        obtain rfl := hshape made
        rw [value_deferred rule made fun _ hz => h.older made hz, OpTree.value?, List.map_singleton,
          h.value_spliced operand]
        obtain ⟨t, ht, houtcome⟩ := bind_eq_ok.mp outcome
        obtain ⟨_, -, e⟩ := bind_eq_ok.mp houtcome
        cases e
        exact Dense.ofShape_move (ih _ hxy source) ht
    | reduction made _ =>
      obtain rfl := hshape made
      rw [value_deferred rule made fun _ hz => h.older made hz, OpTree.value?, List.map_singleton]
      intro d hd
      obtain ⟨_, -, hd⟩ := Option.bind_eq_some_iff.mp hd
      exact Dense.ofShape_allocate d hd
    | convolution made _ _ =>
      obtain rfl := hshape made
      rw [value_deferred rule made fun _ hz => h.older made hz, OpTree.value?]
      intro d hd
      obtain ⟨_, -, hd⟩ := Option.bind_eq_some_iff.mp hd
      obtain ⟨_, -, hd⟩ := Option.bind_eq_some_iff.mp hd
      exact Dense.ofShape_allocate d hd

/-- The value of what a movement makes of a tensor with a shape and a value. -/
def movedValue (m : Movement) (shape : List Nat) (v : Option (Dense Float32)) :
    Option (Dense Float32) :=
  match m.outcome shape with
  | .ok (_, true) => v
  | _ => v.bind (Dense.move m)

/-- The value of a movement is that of its operand. Where paddings are pushed, the operations used
have to send zeros to zero. -/
theorem Coherent.value_movement (h : Coherent used s r)
    (hzero : s.rules.pushPads = true → ∀ op, used op → op.SendsZeros) {m : Movement}
    {x y : TensorId} (of : MovementOf s m x y) {shape : List Nat} (hx : s.shape? x = some shape) :
    s.value rule y = movedValue m shape (s.value rule x) := by
  induction x using Nat.strongRecOn generalizing y shape with
  | ind x ih =>
    cases of with
    | same source outcome =>
      obtain rfl := Option.some.inj (hx.symm.trans source)
      rw [movedValue, outcome]
    | pushed source outcome made leaves allowed _ older =>
      obtain rfl := Option.some.inj (hx.symm.trans (shape?_of_tensor source))
      have tree := h.pointwise_tree source
      rw [movedValue, outcome, value_deferred rule made older,
        value_deferred rule source fun _ hz => h.older source hz]
      refine tree.value_moved (fun z hz => h.ofShape_value (tree.leaves z hz)) ?_ ?_
      · exact fun op hop => allowed.imp_right fun hpads => hzero hpads op hop
      · refine leaves.imp fun z z' hz hmemo => ?_
        have moved := ih z (h.older source hz) (h.known_movement _ _ _ hmemo) (tree.leaves z hz)
        rwa [movedValue, outcome] at moved
    | chained source outcome made operand _ =>
      obtain rfl := Option.some.inj (hx.symm.trans source)
      rw [movedValue, outcome, value_deferred rule made fun _ hz => h.older made hz, OpTree.value?,
        List.map_singleton, h.value_spliced operand]
      rfl

end Session

end TensorLoom
