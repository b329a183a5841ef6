import TensorLoom.Proofs.Session.Provenance

/-!
# Sessions only grow

A step of a session adds tensors, nodes and entries of memos and takes none away (`Session.Grows`).
How a tensor was made stays true as its session grows, so a session stays coherent if what is new in
it has an origin (`Session.Coherent.grow`). The single changes that steps are put together from are
cases of this: a node is given an identity, a tensor is added, an entry is added to a memo, and
tensors are realized.
-/

namespace TensorLoom.Session

open OpTree (Subtree Registered Register)

variable {used : Op → Prop} {s s' s'' : Session} {r r' r'' : Register TensorId}

/-- Nothing of one session is lost in the other. -/
structure Grows (s : Session) (r : Register TensorId) (s' : Session) (r' : Register TensorId) :
    Prop where
  rules : s'.rules = s.rules
  tensors : ∀ (x : TensorId) (t : Tensor), s.tensors[x]? = some t → s'.tensors[x]? = some t
  nextNode : s.nextNode ≤ s'.nextNode
  registered : ∀ id n, r id = some n → r' id = some n
  known_elementwise : ∀ (op : Op) (xs : List TensorId) (y : TensorId),
    s.elementwiseMemo[(op, xs)]? = some y → s'.elementwiseMemo[(op, xs)]? = some y
  known_movement : ∀ (m : Movement) (x y : TensorId),
    s.movementMemo[(m, x)]? = some y → s'.movementMemo[(m, x)]? = some y

namespace Grows

theorem refl (s : Session) (r : Register TensorId) : Grows s r s r where
  rules := rfl
  tensors _ _ h := h
  nextNode := Nat.le_refl _
  registered _ _ h := h
  known_elementwise _ _ _ h := h
  known_movement _ _ _ h := h

theorem trans (g : Grows s r s' r') (g' : Grows s' r' s'' r'') : Grows s r s'' r'' where
  rules := g'.rules.trans g.rules
  tensors x t h := g'.tensors x t (g.tensors x t h)
  nextNode := g.nextNode.trans g'.nextNode
  registered id n h := g'.registered id n (g.registered id n h)
  known_elementwise op xs y h := g'.known_elementwise op xs y (g.known_elementwise op xs y h)
  known_movement m x y h := g'.known_movement m x y (g.known_movement m x y h)

theorem shape? (g : Grows s r s' r') {x : TensorId} {shape : List Nat}
    (h : s.shape? x = some shape) : s'.shape? x = some shape := by
  obtain ⟨t, ht, rfl⟩ := Option.map_eq_some_iff.mp h
  exact shape?_of_tensor (g.tensors x t ht)

theorem lt_size (g : Grows s r s' r') {x : TensorId} (h : x < s.tensors.size) :
    x < s'.tensors.size :=
  lt_of_tensor (g.tensors x _ (Array.getElem?_eq_getElem h))

theorem spliced (g : Grows s r s' r') {category : Category} {x : TensorId} {t : OpTree TensorId}
    (h : Spliced s category x t) : Spliced s' category x t := by
  cases h with
  | leaf => exact .leaf
  | tree made => exact .tree (g.tensors _ _ made)

theorem pointwiseOf (g : Grows s r s' r') {op : Op} {xs : List TensorId} {y : TensorId}
    (h : PointwiseOf used s op xs y) : PointwiseOf used s' op xs y := by
  obtain ⟨made, kind, pointwise, hused, operands, older, shapes⟩ := h
  exact .intro (g.tensors _ _ made) kind pointwise hused (operands.imp fun _ _ => g.spliced) older
    fun x hx => g.shape? (shapes x hx)

theorem movementOf (g : Grows s r s' r') {m : Movement} {x y : TensorId}
    (h : MovementOf s m x y) : MovementOf s' m x y := by
  cases h with
  | same source outcome => exact .same (g.shape? source) outcome
  | pushed source outcome made leaves allowed source_older older =>
    exact .pushed (g.tensors _ _ source) outcome (g.tensors _ _ made)
      (leaves.imp fun z z' _ => g.known_movement m z z') (g.rules ▸ allowed) source_older older
  | chained source outcome made operand older =>
    exact .chained (g.shape? source) outcome (g.tensors _ _ made) (g.spliced operand) older

theorem origin (g : Grows s r s' r') {y : TensorId} (h : Origin used s y) : Origin used s' y := by
  cases h with
  | host made size => exact .host (g.tensors _ _ made) size
  | pointwise of => exact .pointwise (g.pointwiseOf of)
  | movement of older => exact .movement (g.movementOf of) older
  | reduction made older => exact .reduction (g.tensors _ _ made) older
  | convolution made older weights_older =>
    exact .convolution (g.tensors _ _ made) older weights_older

end Grows

namespace Coherent

/-- A session stays coherent as it grows, if what is new in it is made as tensors are made. -/
theorem grow (h : Coherent used s r) (g : Grows s r s' r')
    (origin : ∀ y, y < s'.tensors.size → y < s.tensors.size ∨ Origin used s' y)
    (registered : ∀ (y : TensorId) (shape : List Nat) (category : Category) (t : OpTree TensorId),
      s'.tensors[y]? = some ⟨shape, .deferred category t⟩ →
        s.tensors[y]? = some ⟨shape, .deferred category t⟩ ∨ Registered r' t)
    (fresh : ∀ id, s'.nextNode ≤ id → r' id = none)
    (elementwise : ∀ (op : Op) (xs : List TensorId) (y : TensorId),
      s'.elementwiseMemo[(op, xs)]? = some y →
        s.elementwiseMemo[(op, xs)]? = some y ∨ PointwiseOf used s' op xs y)
    (movement : ∀ (m : Movement) (x y : TensorId), s'.movementMemo[(m, x)]? = some y →
      s.movementMemo[(m, x)]? = some y ∨ MovementOf s' m x y) : Coherent used s' r' where
  origin y hy := (origin y hy).elim (fun hy => g.origin (h.origin y hy)) id
  registered y shape category t hy := (registered y shape category t hy).elim
    (fun hy => (h.registered y shape category t hy).mono g.registered) id
  fresh := fresh
  known_elementwise op xs y hy := (elementwise op xs y hy).elim
    (fun hy => g.pointwiseOf (h.known_elementwise op xs y hy)) id
  known_movement m x y hy := (movement m x y hy).elim
    (fun hy => g.movementOf (h.known_movement m x y hy)) id

end Coherent

/-! ## Nodes -/

/-- The session after a node has been given an identity. -/
def withNode (s : Session) : Session := { s with nextNode := s.nextNode + 1 }

/-- A register with the next node of a session. -/
def register (s : Session) (r : Register TensorId) (op : Op) (sources : List (OpTree TensorId)) :
    Register TensorId :=
  Function.update r s.nextNode (some (op, sources))

theorem Coherent.grows_withNode (h : Coherent used s r) (op : Op)
    (sources : List (OpTree TensorId)) : Grows s r s.withNode (s.register r op sources) where
  rules := rfl
  tensors _ _ h := h
  nextNode := Nat.le_succ _
  registered id n hn := by
    rw [register, Function.update_of_ne]
    · exact hn
    · rintro rfl
      rw [h.fresh _ (Nat.le_refl _)] at hn
      cases hn
  known_elementwise _ _ _ h := h
  known_movement _ _ _ h := h

theorem Coherent.withNode (h : Coherent used s r) (op : Op) (sources : List (OpTree TensorId)) :
    Coherent used s.withNode (s.register r op sources) := by
  refine h.grow (h.grows_withNode op sources) (fun y hy => .inl hy) (fun _ _ _ _ h => .inl h) ?_
    (fun _ _ _ h => .inl h) (fun _ _ _ h => .inl h)
  intro id hid
  have hid : s.nextNode + 1 ≤ id := hid
  rw [register, Function.update_of_ne (by omega)]
  exact h.fresh id (by omega)

theorem registered_withNode (h : Coherent used s r) {op : Op} {sources : List (OpTree TensorId)}
    (hsources : ∀ t ∈ sources, Registered r t) :
    Registered (s.register r op sources) (.node s.nextNode op sources) :=
  .node (Function.update_self ..) fun t ht =>
    (hsources t ht).mono (h.grows_withNode op sources).registered

/-! ## Tensors -/

/-- The session with one more tensor. -/
def withTensor (s : Session) (shape : List Nat) (content : Content) : Session :=
  { s with tensors := s.tensors.push ⟨shape, content⟩ }

section Tensors

variable {shape : List Nat} {content : Content}

theorem tensor_withTensor :
    (s.withTensor shape content).tensors[s.tensors.size]? = some ⟨shape, content⟩ :=
  Array.getElem?_push_size

theorem grows_withTensor : Grows s r (s.withTensor shape content) r where
  rules := rfl
  tensors x t ht := by
    rw [withTensor, Array.getElem?_push, if_neg (Nat.ne_of_lt (lt_of_tensor ht))]
    exact ht
  nextNode := Nat.le_refl _
  registered _ _ h := h
  known_elementwise _ _ _ h := h
  known_movement _ _ _ h := h

theorem Coherent.withTensor (h : Coherent used s r)
    (origin : Origin used (s.withTensor shape content) s.tensors.size)
    (registered : ∀ category t, content = .deferred category t → Registered r t) :
    Coherent used (s.withTensor shape content) r := by
  refine h.grow grows_withTensor ?_ ?_ h.fresh (fun _ _ _ h => .inl h) (fun _ _ _ h => .inl h)
  · intro y hy
    rw [Session.withTensor, Array.size_push] at hy
    rcases Nat.lt_succ_iff_lt_or_eq.mp hy with hy | rfl
    · exact .inl hy
    · exact .inr origin
  · intro y shape' category t hy
    rw [Session.withTensor, Array.getElem?_push] at hy
    split at hy
    · cases hy
      exact .inr (registered category t rfl)
    · exact .inl hy

end Tensors

/-! ## Memos and flags -/

/-- The session in which a pointwise operation is known. -/
def withElementwise (s : Session) (op : Op) (xs : List TensorId) (y : TensorId) : Session :=
  { s with elementwiseMemo := s.elementwiseMemo.insert (op, xs) y }

/-- The session in which a movement is known. -/
def withMovement (s : Session) (m : Movement) (x y : TensorId) : Session :=
  { s with movementMemo := s.movementMemo.insert (m, x) y }

theorem grows_withElementwise {op : Op} {xs : List TensorId} {y : TensorId}
    (hnew : s.elementwiseMemo[(op, xs)]? = none) : Grows s r (s.withElementwise op xs y) r where
  rules := rfl
  tensors _ _ h := h
  nextNode := Nat.le_refl _
  registered _ _ h := h
  known_elementwise op' xs' z hz := by
    rw [withElementwise, Std.HashMap.getElem?_insert]
    split
    · rename_i e
      obtain ⟨rfl, rfl⟩ := Prod.mk.inj (eq_of_beq e)
      rw [hnew] at hz
      cases hz
    · exact hz
  known_movement _ _ _ h := h

theorem Coherent.withElementwise (h : Coherent used s r) {op : Op} {xs : List TensorId}
    {y : TensorId} (hnew : s.elementwiseMemo[(op, xs)]? = none)
    (of : PointwiseOf used s op xs y) : Coherent used (s.withElementwise op xs y) r := by
  have g := grows_withElementwise (r := r) (y := y) hnew
  refine h.grow g (fun y hy => .inl hy) (fun _ _ _ _ h => .inl h) h.fresh ?_
    (fun _ _ _ h => .inl h)
  intro op' xs' z hz
  rw [Session.withElementwise, Std.HashMap.getElem?_insert] at hz
  split at hz
  · rename_i e
    obtain ⟨rfl, rfl⟩ := Prod.mk.inj (eq_of_beq e)
    cases hz
    exact .inr (g.pointwiseOf of)
  · exact .inl hz

theorem grows_withMovement {m : Movement} {x y : TensorId}
    (hnew : s.movementMemo[(m, x)]? = none) : Grows s r (s.withMovement m x y) r where
  rules := rfl
  tensors _ _ h := h
  nextNode := Nat.le_refl _
  registered _ _ h := h
  known_elementwise _ _ _ h := h
  known_movement m' x' z hz := by
    rw [withMovement, Std.HashMap.getElem?_insert]
    split
    · rename_i e
      obtain ⟨rfl, rfl⟩ := Prod.mk.inj (eq_of_beq e)
      rw [hnew] at hz
      cases hz
    · exact hz

theorem Coherent.withMovement (h : Coherent used s r) {m : Movement} {x y : TensorId}
    (hnew : s.movementMemo[(m, x)]? = none) (of : MovementOf s m x y) :
    Coherent used (s.withMovement m x y) r := by
  have g := grows_withMovement (r := r) (y := y) hnew
  refine h.grow g (fun y hy => .inl hy) (fun _ _ _ _ h => .inl h) h.fresh
    (fun _ _ _ h => .inl h) ?_
  intro m' x' z hz
  rw [Session.withMovement, Std.HashMap.getElem?_insert] at hz
  split at hz
  · rename_i e
    obtain ⟨rfl, rfl⟩ := Prod.mk.inj (eq_of_beq e)
    cases hz
    exact .inr (g.movementOf of)
  · exact .inl hz

/-- Which tensors have been realized says nothing about how they were made. -/
theorem grows_withRealized (realized : Std.HashSet TensorId) : Grows s r { s with realized } r where
  rules := rfl
  tensors _ _ h := h
  nextNode := Nat.le_refl _
  registered _ _ h := h
  known_elementwise _ _ _ h := h
  known_movement _ _ _ h := h

theorem Coherent.withRealized (h : Coherent used s r) (realized : Std.HashSet TensorId) :
    Coherent used { s with realized } r :=
  h.grow (grows_withRealized realized) (fun _ hy => .inl hy) (fun _ _ _ _ h => .inl h) h.fresh
    (fun _ _ _ h => .inl h) (fun _ _ _ h => .inl h)

end TensorLoom.Session
