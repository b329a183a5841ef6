import TensorLoom.Proofs.Session.History

/-!
# Well-formed tensors

Fusion and realization take the trees of a session as they find them: a pushed movement counts on
the leaves of a pointwise tree to have the shape of its tensor, a chained movement on the chain
below it, a realization on every leaf being older than what it is a leaf of. `Session.WellFormed`
says what the tree of a tensor looks like, by the kind of the tensor.

`Session.Reachable` collects the sessions that the steps lead to, in any order and with tensors of
any kind as operands, among them those made on the way. All their tensors are well formed, and no
tensor needs itself (`Session.Reachable.wellFormed`). The step is `Session.Coherent.exec_construct`;
what a coherent session says of the origin of each tensor is then read off by induction on the
number of the tensor, with one case for each origin.
-/

namespace TensorLoom

open OpTree (Subtree Corresponds Register EveryNode)

theorem Op.Pointwise.arity_eq {op : Op} {n : Nat} (h : op.Pointwise n) : n = op.arity := by
  cases h <;> rfl

theorem Op.Pointwise.isElementwise {op : Op} {n : Nat} (h : op.Pointwise n) :
    op.isElementwise = true := by
  cases h <;> rfl

theorem OpTree.EveryNode.imp {α : Type} {p q : Op → Nat → Prop} (hpq : ∀ op n, p op n → q op n)
    {t : OpTree α} (h : t.EveryNode p) : t.EveryNode q :=
  fun id op sources hs => hpq op _ (h id op sources hs)

namespace Session

/-! ## What a tree looks like -/

/-- Movements one above the other over one tensor, each of which a row-major buffer of the shape
below it accepts. The shape is that of the whole chain. -/
inductive MovementChain (s : Session) : OpTree TensorId → List Nat → Prop
  | leaf {x : TensorId} {shape : List Nat} :
      s.shape? x = some shape → MovementChain s (.leaf x) shape
  | node {id : Nat} {m : Movement} {source : OpTree TensorId} {shape : List Nat} {t : Tracker} :
      MovementChain s source shape → Dense.tracker shape m = .ok t →
        MovementChain s (.node id (.movement m) [source]) t.shape

/-- A tree of pointwise operations and convolutions, in which whatever stands directly under a
pointwise operation has one shape. -/
structure ProcessingTree (s : Session) (shape : List Nat) (t : OpTree TensorId) : Prop where
  nodes : t.EveryNode fun op _ => op.isElementwise = true ∨ op.category = some .processing
  operands : ∀ id op sources x, Subtree (.node id op sources) t → op.isElementwise = true →
    .leaf x ∈ sources → s.shape? x = some shape

/-- The tree of a tensor is one that its kind allows. -/
structure WellFormed (s : Session) (y : TensorId) (t : Tensor) : Prop where
  arity : t.tree.EveryNode fun op n => n = op.arity
  older : ∀ z, Subtree (.leaf z) t.tree → z < y
  host : t.hostData.isSome = true → t.category = none ∧ t.tree = .node 0 .load []
  elementwise : t.category = some .elementwise →
    (t.tree.EveryNode fun op _ => op.isElementwise = true) ∧
      ∀ z, Subtree (.leaf z) t.tree → s.shape? z = some t.shape
  movement : t.category = some .movement →
    (∃ id m source, t.tree = .node id (.movement m) [source]) ∧ MovementChain s t.tree t.shape
  reduction : t.category = some .reduction →
    ∃ id op x, t.tree = .node id (.reduce op t.shape) [.leaf x]
  processing : t.category = some .processing → ProcessingTree s t.shape t.tree

variable {used : Op → Prop} {s : Session} {r : Register TensorId}

theorem processingTree_leaf (s : Session) (shape : List Nat) (x : TensorId) :
    ProcessingTree s shape (.leaf x) where
  nodes := OpTree.everyNode_leaf x
  operands _ _ _ _ h := by cases h

/-- A pointwise operation over trees of its shape, and over tensors of its shape. -/
theorem processingTree_pointwise {shape : List Nat} {id : Nat} {op : Op}
    {sources : List (OpTree TensorId)} (hop : op.isElementwise = true)
    (htrees : ∀ t ∈ sources, ProcessingTree s shape t)
    (hleaves : ∀ x, .leaf x ∈ sources → s.shape? x = some shape) :
    ProcessingTree s shape (.node id op sources) where
  nodes := OpTree.everyNode_node.mpr ⟨.inl hop, fun t ht => (htrees t ht).nodes⟩
  operands id' op' sources' x hs hop' hx := by
    rcases OpTree.subtree_node.mp hs with e | ⟨t, ht, hs⟩
    · cases e
      exact hleaves x hx
    · exact (htrees t ht).operands id' op' sources' x hs hop' hx

theorem processingTree_convolution (s : Session) (shape : List Nat) (id : Nat) (args : Convolution)
    (x w : TensorId) :
    ProcessingTree s shape (.node id (.convolution args) [.leaf x, .leaf w]) where
  nodes := OpTree.everyNode_node.mpr ⟨.inr rfl, fun t ht => by
    rcases List.mem_pair.mp ht with rfl | rfl <;> exact OpTree.everyNode_leaf _⟩
  operands id' op' sources' z hs hop hz := by
    rcases OpTree.subtree_node.mp hs with e | ⟨t, ht, hs⟩
    · cases e
      cases hop
    · rcases List.mem_pair.mp ht with rfl | rfl <;> cases OpTree.subtree_leaf.mp hs

/-! ## Tensors of a coherent session -/

/-- How the tree of a tensor has been put together: a node over operands, each spliced or left as it
is, or a pushed movement, which keeps the operations of the tree that it is pushed into. -/
inductive Assembled (s : Session) (y : TensorId) : List Nat → Category → OpTree TensorId → Prop
  | pointwise {shape : List Nat} {category : Category} {id : Nat} {op : Op}
      {sources : List (OpTree TensorId)}
      (kind : category = .elementwise ∨ category = .processing)
      (pointwise : op.Pointwise sources.length)
      (operands : ∀ t ∈ sources, ∃ x < y, s.shape? x = some shape ∧ Spliced s category x t) :
      Assembled s y shape category (.node id op sources)
  | pushed {x : TensorId} {shape shape' : List Nat} {tree moved : OpTree TensorId} (older : x < y)
      (source : s.tensors[x]? = some ⟨shape, .deferred .elementwise tree⟩)
      (operations : Corresponds (fun _ _ => True) tree moved) :
      Assembled s y shape' .elementwise moved
  | chained {x : TensorId} {shape : List Nat} {m : Movement} {t : Tracker} {id : Nat}
      {source : OpTree TensorId} (older : x < y) (source_shape : s.shape? x = some shape)
      (accepted : Dense.tracker shape m = .ok t) (operand : Spliced s .movement x source) :
      Assembled s y t.shape .movement (.node id (.movement m) [source])
  | reduction (shape : List Nat) (id : Nat) (op : Reduction) (x : TensorId) :
      Assembled s y shape .reduction (.node id (.reduce op shape) [.leaf x])
  | convolution (id : Nat) (args : Convolution) (x w : TensorId) :
      Assembled s y args.outShape .processing (.node id (.convolution args) [.leaf x, .leaf w])

namespace Coherent

variable {y : TensorId} {shape : List Nat} {category : Category} {t : OpTree TensorId}

theorem assembled (h : Coherent used s r)
    (hy : s.tensors[y]? = some ⟨shape, .deferred category t⟩) : Assembled s y shape category t := by
  have hmade : ∀ {shape' category' t'}, s.tensors[y]? = some ⟨shape', .deferred category' t'⟩ →
      Assembled s y shape' category' t' → Assembled s y shape category t := by
    intro shape' category' t' h' assembled
    rw [hy] at h'
    cases h'
    exact assembled
  cases h.origin y (lt_of_tensor hy) with
  | host made _ =>
    rw [hy] at made
    cases made
  | pointwise of =>
    obtain ⟨made, kind, pointwise, -, operands, older, shapes⟩ := of
    refine hmade made (.pointwise kind (operands.length_eq ▸ pointwise) fun t ht => ?_)
    obtain ⟨x, hx, hxt⟩ := exists_of_forall₂_right operands ht
    exact ⟨x, older x hx, shapes x hx, hxt⟩
  | movement of hxy =>
    cases of with
    | same _ _ => exact absurd hxy (Nat.lt_irrefl _)
    | pushed source _ made leaves _ _ _ =>
      exact hmade made (.pushed hxy source (leaves.imp fun _ _ _ _ => trivial))
    | chained source outcome made operand _ =>
      obtain ⟨tracker, accepted, houtcome⟩ := bind_eq_ok.mp outcome
      obtain ⟨same, -, e⟩ := bind_eq_ok.mp houtcome
      cases e
      exact hmade made (.chained hxy source accepted operand)
  | reduction made _ => exact hmade made (.reduction ..)
  | convolution made _ _ => exact hmade made (.convolution ..)

/-- Every tree has a node at its root. -/
theorem ne_leaf (h : Coherent used s r)
    (hy : s.tensors[y]? = some ⟨shape, .deferred category t⟩) (z : TensorId) : t ≠ .leaf z := by
  induction y using Nat.strongRecOn generalizing shape category t z with
  | ind y ih =>
    cases h.assembled hy with
    | pushed older source operations =>
      rintro rfl
      cases operations with
      | leaf _ => exact ih _ older source _ rfl
    | pointwise _ _ _ => nofun
    | chained _ _ _ _ => nofun
    | reduction _ _ _ _ => nofun
    | convolution _ _ _ _ => nofun

/-- Every node has as many operands as its operation takes. -/
theorem everyNode_arity (h : Coherent used s r)
    (hy : s.tensors[y]? = some ⟨shape, .deferred category t⟩) :
    t.EveryNode fun op n => n = op.arity := by
  induction y using Nat.strongRecOn generalizing shape category t with
  | ind y ih =>
    have hspliced : ∀ {category x t}, x < y → Spliced s category x t →
        t.EveryNode fun op n => n = op.arity := by
      intro category x t hxy hx
      cases hx with
      | leaf => exact OpTree.everyNode_leaf x
      | tree made => exact ih x hxy made
    cases h.assembled hy with
    | pointwise _ pointwise operands =>
      refine OpTree.everyNode_node.mpr ⟨pointwise.arity_eq, fun t ht => ?_⟩
      obtain ⟨x, hxy, -, hx⟩ := operands t ht
      exact hspliced hxy hx
    | pushed older source operations => exact operations.everyNode (ih _ older source)
    | chained older _ _ operand =>
      exact OpTree.everyNode_node.mpr ⟨rfl, List.forall_mem_singleton.mpr (hspliced older operand)⟩
    | reduction _ _ _ x =>
      exact OpTree.everyNode_node.mpr
        ⟨rfl, List.forall_mem_singleton.mpr (OpTree.everyNode_leaf x)⟩
    | convolution _ _ x w =>
      refine OpTree.everyNode_node.mpr ⟨rfl, List.forall_mem_cons.mpr ⟨OpTree.everyNode_leaf x, ?_⟩⟩
      exact List.forall_mem_singleton.mpr (OpTree.everyNode_leaf w)

/-- The tree of a movement is a chain of movements. -/
theorem movement_chain (h : Coherent used s r)
    (hy : s.tensors[y]? = some ⟨shape, .deferred .movement t⟩) :
    (∃ id m source, t = .node id (.movement m) [source]) ∧ MovementChain s t shape := by
  induction y using Nat.strongRecOn generalizing shape t with
  | ind y ih =>
    cases h.assembled hy with
    | pointwise kind _ _ => rcases kind with e | e <;> cases e
    | chained older source_shape accepted operand =>
      refine ⟨⟨_, _, _, rfl⟩, .node ?_ accepted⟩
      cases operand with
      | leaf => exact .leaf source_shape
      | tree made =>
        obtain rfl := Option.some.inj ((shape?_of_tensor made).symm.trans source_shape)
        exact (ih _ older made).2

/-- The tree of a reduction is a single reduction. -/
theorem reduction_single (h : Coherent used s r)
    (hy : s.tensors[y]? = some ⟨shape, .deferred .reduction t⟩) :
    ∃ id op x, t = .node id (.reduce op shape) [.leaf x] := by
  cases h.assembled hy with
  | pointwise kind _ _ => rcases kind with e | e <;> cases e
  | reduction _ id op x => exact ⟨id, op, x, rfl⟩

/-- What is computed from a convolution has pointwise operations above it. -/
theorem processing_tree (h : Coherent used s r)
    (hy : s.tensors[y]? = some ⟨shape, .deferred .processing t⟩) : ProcessingTree s shape t := by
  induction y using Nat.strongRecOn generalizing shape t with
  | ind y ih =>
    cases h.assembled hy with
    | pointwise _ pointwise operands =>
      refine processingTree_pointwise pointwise.isElementwise (fun t ht => ?_) fun z hz => ?_
      · obtain ⟨x, hxy, hshape, hx⟩ := operands t ht
        cases hx with
        | leaf => exact processingTree_leaf ..
        | tree made =>
          obtain rfl := Option.some.inj ((shape?_of_tensor made).symm.trans hshape)
          exact ih x hxy made
      · obtain ⟨x, -, hshape, hx⟩ := operands _ hz
        cases hx with
        | leaf => exact hshape
        | tree made => exact absurd rfl (h.ne_leaf made z)
    | convolution => exact processingTree_convolution ..

/-- Every tensor of a coherent session is well formed. -/
theorem wellFormed_tensor (h : Coherent used s r) {t : Tensor} (ht : s.tensors[y]? = some t) :
    WellFormed s y t := by
  obtain ⟨shape, content⟩ := t
  cases content with
  | host data =>
    refine ⟨OpTree.everyNode_node.mpr ⟨rfl, nofun⟩, fun z hz => ?_, fun _ => ⟨rfl, rfl⟩,
      nofun, nofun, nofun, nofun⟩
    rcases OpTree.subtree_node.mp hz with e | ⟨t, ht, -⟩
    · cases e
    · cases ht
  | deferred category tree =>
    refine ⟨h.everyNode_arity ht, fun z hz => h.older ht hz, nofun, ?_, ?_, ?_, ?_⟩
    · rintro ⟨⟩
      have pointwise := h.pointwise_tree ht
      exact ⟨pointwise.nodes.imp fun op n hop => hop.1.isElementwise, pointwise.leaves⟩
    · rintro ⟨⟩
      exact h.movement_chain ht
    · rintro ⟨⟩
      exact h.reduction_single ht
    · rintro ⟨⟩
      exact h.processing_tree ht

/-- No tensor of a coherent session needs itself. -/
theorem acyclic (h : Coherent used s r) (x : TensorId) :
    ¬ Relation.TransGen (fun x z => z ∈ s.sources x) x x := by
  intro hx
  have hlt : ∀ {z}, Relation.TransGen (fun x z => z ∈ s.sources x) x z → z < x := by
    intro z hz
    induction hz with
    | single hz => exact h.older_sources x _ hz
    | tail _ hz ih => exact Nat.lt_trans (h.older_sources _ _ hz) ih
  exact Nat.lt_irrefl x (hlt hx)

end Coherent

/-! ## Reachable sessions -/

/-- The operands of a step. -/
def Construct.operands {α : Type} : Construct α → List α
  | .host _ _ => []
  | .elementwise _ xs => xs
  | .movement _ x => [x]
  | .reduce _ x _ => [x]
  | .convolve x w _ => [x, w]

/-- The sessions that steps lead to, whether they make a tensor or are refused, and realizations,
whether they succeed or fail. The operands of a step are any tensors of the session. -/
inductive Reachable (rules : FusionRules) : Session → Prop
  | start : Reachable rules (.new rules)
  | construct {s : Session} {c : Construct TensorId} : Reachable rules s →
      (∀ x ∈ c.operands, x < s.tensors.size) → Reachable rules (exec c.step s).2
  | realize {s : Session} {σ : Type} (materialize : Materializer σ) (device : σ) (x : TensorId) :
      Reachable rules s → Reachable rules (s.realize materialize device x).2.1

theorem Construct.Rel.operands {α β : Type} {R : α → β → Prop} {c : Construct α} {c' : Construct β}
    (h : Construct.Rel R c c') : List.Forall₂ R c.operands c'.operands := by
  cases h with
  | host _ _ => exact .nil
  | elementwise _ hxs => exact hxs
  | movement _ hx => exact .cons hx .nil
  | reduce _ _ hx => exact .cons hx .nil
  | convolve _ hx hw => exact .cons hx (.cons hw .nil)

/-- The shapes of the operands of a step. -/
theorem Construct.exists_shapes {c : Construct TensorId}
    (h : ∀ x ∈ c.operands, x < s.tensors.size) :
    ∃ c', Construct.Rel (fun x d => s.shape? x = some d) c c' := by
  have hshape : ∀ x ∈ c.operands, ∃ d, s.shape? x = some d := fun x hx =>
    ⟨_, shape?_of_tensor (Array.getElem?_eq_getElem (h x hx))⟩
  cases c with
  | host shape data => exact ⟨_, .host shape data⟩
  | elementwise op xs =>
    obtain ⟨shapes, hshapes⟩ : ∃ ds, List.Forall₂ (fun x d => s.shape? x = some d) xs ds := by
      replace hshape : ∀ x ∈ xs, ∃ d, s.shape? x = some d := hshape
      clear h
      induction xs with
      | nil => exact ⟨[], .nil⟩
      | cons x xs ih =>
        obtain ⟨d, hd⟩ := hshape x List.mem_cons_self
        obtain ⟨ds, hds⟩ := ih fun x hx => hshape x (List.mem_cons_of_mem _ hx)
        exact ⟨d :: ds, .cons hd hds⟩
    exact ⟨_, .elementwise op hshapes⟩
  | movement m x =>
    obtain ⟨d, hd⟩ := hshape x List.mem_cons_self
    exact ⟨_, .movement m hd⟩
  | reduce op x shape =>
    obtain ⟨d, hd⟩ := hshape x List.mem_cons_self
    exact ⟨_, .reduce op shape hd⟩
  | convolve x w args =>
    obtain ⟨d, hd⟩ := hshape x List.mem_cons_self
    obtain ⟨d', hd'⟩ := hshape w (List.mem_cons_of_mem _ List.mem_cons_self)
    exact ⟨_, .convolve args hd hd'⟩

/-- A session goes on with a step, whether the step is refused or not. -/
theorem Coherent.step (h : Coherent (fun _ => True) s r) {c : Construct TensorId}
    (operands : ∀ x ∈ c.operands, x < s.tensors.size) :
    ∃ r', Advances (fun _ => True) s r (exec c.step s).2 r' := by
  obtain ⟨c', hc⟩ := Construct.exists_shapes operands
  rcases h.exec_construct hc fun _ _ _ => trivial with
    ⟨e, -, hrun⟩ | ⟨y, shape, s', r', -, hrun, advances, -, -⟩
  · exact ⟨r, hrun ▸ .refl h⟩
  · exact ⟨r', hrun ▸ advances⟩

namespace Reachable

variable {rules : FusionRules}

/-- Steps and realizations keep a session coherent. -/
theorem coherent (h : Reachable rules s) : ∃ r, Coherent (fun _ => True) s r := by
  induction h with
  | start => exact ⟨_, coherent_new _ rules⟩
  | construct _ operands ih =>
    obtain ⟨r, hs⟩ := ih
    obtain ⟨r', advances⟩ := hs.step operands
    exact ⟨r', advances.coherent⟩
  | realize materialize device x _ ih =>
    obtain ⟨r, hs⟩ := ih
    obtain ⟨realized, e⟩ := realize_eq_withRealized materialize _ device x
    exact ⟨r, e ▸ hs.withRealized realized⟩

/-- Every tensor of a reachable session is well formed, and none needs itself. -/
theorem wellFormed (h : Reachable rules s) :
    (∀ y t, s.tensors[y]? = some t → WellFormed s y t) ∧
      ∀ x, ¬ Relation.TransGen (fun x z => z ∈ s.sources x) x x := by
  obtain ⟨r, hs⟩ := h.coherent
  exact ⟨fun y t ht => hs.wellFormed_tensor ht, hs.acyclic⟩

/-- The row sums of data given by the host, realized. -/
theorem wellFormed_rowSums :
    let given := (exec (Construct.step (.host [2, 3] #[1, 2, 3, 4, 5, 6])) (.new .standard)).2
    let summed := (exec (Construct.step (.reduce .sum 0 [2, 1])) given).2
    let realized := (summed.realize (recording none) #[] 1).2.1
    realized.tensors.size = 2 ∧ (∀ y t, realized.tensors[y]? = some t → WellFormed realized y t) ∧
      ∀ x, ¬ Relation.TransGen (fun x z => z ∈ realized.sources x) x x := by
  intro given summed realized
  obtain ⟨_, e⟩ := realize_eq_withRealized (recording none) summed #[] 1
  have hsize : realized.tensors.size = 2 := by
    rw [show realized = _ from e]
    rfl
  exact ⟨hsize, wellFormed ((construct (construct start (List.forall_mem_nil _))
    (by decide)).realize (recording none) #[] 1)⟩

end Reachable

/-- A program leads to reachable sessions. -/
theorem Run.reachable_commands {σ : Type} (rules : FusionRules) (materialize : Materializer σ)
    (device : σ) (commands : List Command) :
    Reachable rules ((start rules device).commands materialize commands).session := by
  suffices ∀ run : Run σ, ∀ r, Consistent (fun _ => True) run r → Reachable rules run.session →
      Reachable rules (run.commands materialize commands).session from
    this _ _ (consistent_start _ rules device) .start
  induction commands with
  | nil => exact fun _ _ _ h => h
  | cons command commands ih =>
    intro run r consistent h
    obtain ⟨r', hs⟩ := consistent.steps materialize command fun _ _ => trivial
    refine ih _ r' (hs.consistent consistent) ?_
    cases command with
    | construct c =>
      cases hc : c.lookup (result? run.made) with
      | none => rwa [command_construct_missing hc]
      | some c₁ =>
        rw [command_construct hc]
        refine h.construct fun x hx => ?_
        obtain ⟨c', hc'⟩ := consistent.exists_shapes hc
        obtain ⟨d, -, hd⟩ := exists_of_forall₂_right hc'.operands.flip hx
        exact lt_of_shape? hd
    | realize i =>
      cases hi : result? run.made i with
      | none => rwa [command_realize_missing hi]
      | some x =>
        rw [command_realize hi]
        exact h.realize materialize run.device x
    | realizeTensor x => exact h.realize materialize run.device x

end Session

end TensorLoom
