import TensorLoom.Proofs.Session.Additions

/-!
# What a movement makes on the way

Pushing a movement applies it to the leaves of a tree, and to leaves of theirs, as often as they
occur. Yet each tensor is moved once: a tensor that is made on the way is the result that is known
for one tensor below, and for no other (`Session.MovesOnce`).

This is shown of each change that applying a movement makes to a session, and of all of them one
after the other, whether the movement is carried through or refused on the way.
-/

namespace TensorLoom.Session

variable {used : Op → Prop} {s₀ s s' s'' : Session} {r : OpTree.Register TensorId} {m : Movement}
  {P Q : TensorId → Prop}

/-- A movement has been applied to tensors of a kind, to each of them once. -/
structure MovesOnce (m : Movement) (P : TensorId → Prop) (s s' : Session) : Prop where
  rules : s'.rules = s.rules
  realized : s'.realized = s.realized
  elementwise : s'.elementwiseMemo = s.elementwiseMemo
  tensors : ∀ (y : TensorId) (t : Tensor), s.tensors[y]? = some t → s'.tensors[y]? = some t
  kept : ∀ (key : Movement × TensorId) (y : TensorId),
    s.movementMemo[key]? = some y → s'.movementMemo[key]? = some y
  /-- What is known since then is this movement of one of these tensors. Its result is the tensor
  itself, or has been made. -/
  known : ∀ (key : Movement × TensorId) (y : TensorId), s'.movementMemo[key]? = some y →
    s.movementMemo[key]? = some y ∨ s.movementMemo[key]? = none ∧ key.1 = m ∧ P key.2 ∧
      (y = key.2 ∨ s.tensors.size ≤ y ∧ y < s'.tensors.size)
  /-- A tensor that has been made is known as the result for one tensor, and for nothing else. -/
  made : ∀ y, s.tensors.size ≤ y → y < s'.tensors.size → ∃ z, P z ∧
    s.movementMemo[(m, z)]? = none ∧ ∀ key, s'.movementMemo[key]? = some y ↔ key = (m, z)

/-- A session has the tensors of another one, and has made all results of movements that it knows.
-/
structure Follows (s₀ s : Session) : Prop where
  tensors : ∀ (y : TensorId) (t : Tensor), s₀.tensors[y]? = some t → s.tensors[y]? = some t
  known : ∀ (key : Movement × TensorId) (y : TensorId),
    s.movementMemo[key]? = some y → y < s.tensors.size

theorem size_le_of_tensors
    (h : ∀ (y : TensorId) (t : Tensor), s.tensors[y]? = some t → s'.tensors[y]? = some t) :
    s.tensors.size ≤ s'.tensors.size := by
  by_contra hlt
  have hy := h _ _ (Array.getElem?_eq_getElem (Nat.lt_of_not_le hlt))
  exact Nat.lt_irrefl _ (lt_of_tensor hy)

/-- What a coherent session knows has been made. -/
theorem Coherent.follows (h : Coherent used s r) : Follows s s where
  tensors _ _ ht := ht
  known _ _ hy := (h.known_movement _ _ _ hy).lt_size

namespace MovesOnce

theorem refl (s : Session) : MovesOnce m P s s where
  rules := rfl
  realized := rfl
  elementwise := rfl
  tensors _ _ h := h
  kept _ _ h := h
  known _ _ h := .inl h
  made _ hy hy' := absurd hy' (Nat.not_lt_of_le hy)

theorem mono (h : MovesOnce m P s s') (hPQ : ∀ z, P z → Q z) : MovesOnce m Q s s' where
  rules := h.rules
  realized := h.realized
  elementwise := h.elementwise
  tensors := h.tensors
  kept := h.kept
  known key y hy := (h.known key y hy).imp_right fun ⟨hnew, hm, hz, hy⟩ => ⟨hnew, hm, hPQ _ hz, hy⟩
  made y hy hy' := by
    obtain ⟨z, hz, hnew, honly⟩ := h.made y hy hy'
    exact ⟨z, hPQ z hz, hnew, honly⟩

theorem size_le (h : MovesOnce m P s s') : s.tensors.size ≤ s'.tensors.size :=
  size_le_of_tensors h.tensors

theorem unknown (h : MovesOnce m P s s') {key : Movement × TensorId}
    (hnew : s'.movementMemo[key]? = none) : s.movementMemo[key]? = none := by
  by_contra hne
  obtain ⟨y, hy⟩ := Option.ne_none_iff_exists'.mp hne
  cases hnew.symm.trans (h.kept key y hy)

/-- Nothing becomes known of other tensors. -/
theorem still_unknown (h : MovesOnce m P s s') {key : Movement × TensorId}
    (hnew : s.movementMemo[key]? = none) (hkey : ¬ P key.2) : s'.movementMemo[key]? = none := by
  by_contra hne
  obtain ⟨y, hy⟩ := Option.ne_none_iff_exists'.mp hne
  rcases h.known key y hy with hy | ⟨-, -, hP, -⟩
  · cases hnew.symm.trans hy
  · exact hkey hP

/-- Tensors that have been moved before are not moved again. -/
theorem trans (h : MovesOnce m P s s') (h' : MovesOnce m P s' s'')
    (bounded : ∀ z, P z → z < s.tensors.size) : MovesOnce m P s s'' where
  rules := h'.rules.trans h.rules
  realized := h'.realized.trans h.realized
  elementwise := h'.elementwise.trans h.elementwise
  tensors y t ht := h'.tensors y t (h.tensors y t ht)
  kept key y hy := h'.kept key y (h.kept key y hy)
  known key y hy := by
    rcases h'.known key y hy with hy | ⟨hnew, hm, hz, hy⟩
    · refine (h.known key y hy).imp_right fun ⟨hnew, hm, hz, hy⟩ => ⟨hnew, hm, hz, ?_⟩
      exact hy.imp_right fun hy => ⟨hy.1, Nat.lt_of_lt_of_le hy.2 h'.size_le⟩
    · refine .inr ⟨h.unknown hnew, hm, hz, hy.imp_right fun hy => ⟨?_, hy.2⟩⟩
      exact h.size_le.trans hy.1
  made y hy hy'' := by
    rcases Nat.lt_or_ge y s'.tensors.size with hy' | hy'
    · obtain ⟨z, hz, hnew, honly⟩ := h.made y hy hy'
      refine ⟨z, hz, hnew, fun key => ⟨fun hkey => ?_, fun hkey => ?_⟩⟩
      · rcases h'.known key y hkey with hkey | ⟨-, -, hbelow, rfl | ⟨hle, -⟩⟩
        · exact (honly key).mp hkey
        · exact absurd (bounded _ hbelow) (Nat.not_lt_of_le hy)
        · exact absurd hy' (Nat.not_lt_of_le hle)
      · exact h'.kept key y ((honly key).mpr hkey)
    · obtain ⟨z, hz, hnew, honly⟩ := h'.made y hy' hy''
      exact ⟨z, hz, h.unknown hnew, honly⟩

theorem follows (h : MovesOnce m P s s') (bounded : ∀ z, P z → z < s.tensors.size)
    (hs : Follows s₀ s) : Follows s₀ s' where
  tensors y t ht := h.tensors y t (hs.tensors y t ht)
  known key y hy := by
    rcases h.known key y hy with hy | ⟨-, -, hz, rfl | ⟨-, hy⟩⟩
    · exact Nat.lt_of_lt_of_le (hs.known key y hy) h.size_le
    · exact Nat.lt_of_lt_of_le (bounded _ hz) h.size_le
    · exact hy

/-! ## Single changes -/

theorem withNode (s : Session) : MovesOnce m P s s.withNode where
  rules := rfl
  realized := rfl
  elementwise := rfl
  tensors _ _ h := h
  kept _ _ h := h
  known _ _ h := .inl h
  made _ hy hy' := absurd hy' (Nat.not_lt_of_le hy)

/-- What is known in a session with one more result. -/
theorem withMovement_eq_some {x y y' : TensorId} {key : Movement × TensorId}
    (h : (s.withMovement m x y).movementMemo[key]? = some y') :
    (key = (m, x) ∧ y' = y) ∨ s.movementMemo[key]? = some y' := by
  rw [Session.withMovement, Std.HashMap.getElem?_insert] at h
  split at h
  · rename_i e
    cases h
    exact .inl ⟨(eq_of_beq e).symm, rfl⟩
  · exact .inr h

/-- A movement that changes nothing makes no tensor. -/
theorem same {x : TensorId} (hnew : s.movementMemo[(m, x)]? = none) (hx : P x) :
    MovesOnce m P s (s.withMovement m x x) where
  rules := rfl
  realized := rfl
  elementwise := rfl
  tensors _ _ h := h
  kept key y := (grows_withMovement (r := fun _ => none) hnew).known_movement key.1 key.2 y
  known key y hy := by
    rcases withMovement_eq_some hy with ⟨rfl, rfl⟩ | hy
    · exact .inr ⟨hnew, rfl, hx, .inl rfl⟩
    · exact .inl hy
  made _ hy hy' := absurd hy' (Nat.not_lt_of_le hy)

/-- Any other movement makes one tensor, which is its result. -/
theorem withTensor {x : TensorId} {shape : List Nat} {content : Content} (hs : Follows s₀ s)
    (hnew : s.movementMemo[(m, x)]? = none) (hx : P x) :
    MovesOnce m P s ((s.withTensor shape content).withMovement m x s.tensors.size) where
  rules := rfl
  realized := rfl
  elementwise := rfl
  tensors := (grows_withTensor (r := fun _ => none)).tensors
  kept key y := (grows_withMovement (r := fun _ => none) (s := s.withTensor shape content)
    hnew).known_movement key.1 key.2 y
  known key y hy := by
    rcases withMovement_eq_some hy with ⟨rfl, rfl⟩ | hy
    · exact .inr ⟨hnew, rfl, hx, .inr ⟨Nat.le_refl _, lt_of_tensor tensor_withTensor⟩⟩
    · exact .inl hy
  made y hy hy' := by
    have hy' : y < (s.tensors.push ⟨shape, content⟩).size := hy'
    rw [Array.size_push] at hy'
    obtain rfl : y = s.tensors.size := Nat.le_antisymm (Nat.le_of_lt_succ hy') hy
    refine ⟨x, hx, hnew, fun key => ⟨fun hkey => ?_, fun hkey => ?_⟩⟩
    · rcases withMovement_eq_some hkey with ⟨hkey, -⟩ | hkey
      · exact hkey
      · exact absurd (hs.known key _ hkey) (Nat.lt_irrefl _)
    · subst hkey
      exact Std.HashMap.getElem?_insert_self

end MovesOnce

/-! ## A movement -/

/-- What a tensor needs is the tensor itself or older. -/
theorem Coherent.le_of_needs (h : Coherent used s r) {x z : TensorId} (hz : s.Needs x z) :
    z ≤ x := by
  induction hz with
  | refl => exact Nat.le_refl x
  | tail _ hz ih => exact (Nat.le_of_lt (h.older_sources _ _ hz)).trans ih

/-- Pushing a movement onto the leaves of a tree moves tensors below. -/
theorem Coherent.movesOnce_mapLeaves (h : Coherent used s₀ r) {x : TensorId} {t : Tensor}
    (ht : s₀.tensors[x]? = some t)
    (ih : ∀ z < x, ∀ s, Follows s₀ s → MovesOnce m (s₀.Needs z) s (exec (movement m z) s).2) :
    Leads (fun s s' => Follows s₀ s → MovesOnce m (fun z => z < x ∧ s₀.Needs x z) s s')
      (t.tree.mapLeaves (fun _ => freshNode) fun leaf =>
        if _older : leaf < x then movement m leaf else throw (.fault .outOfBounds)) := by
  have bounded : ∀ s, Follows s₀ s → ∀ z, z < x ∧ s₀.Needs x z → z < s.tensors.size :=
    fun s hs z hz =>
      Nat.lt_of_lt_of_le (hz.1.trans (lt_of_tensor ht)) (size_le_of_tensors hs.tensors)
  refine leads_mapLeaves (fun s _ => .refl s) (fun s s' s'' hx hx' hs => ?_) (fun _ => ?_) t.tree
    fun z hz => ?_
  · have below := bounded s hs
    exact (hx hs).trans (hx' ((hx hs).follows below hs)) below
  · exact fun s _ => .withNode s
  · split
    · intro s hs
      refine (ih z ‹_› s hs).mono fun w hw => ⟨?_, .head (h.mem_sources.mpr ⟨t, ht, hz⟩) hw⟩
      exact Nat.lt_of_le_of_lt (h.le_of_needs hw) ‹_›
    · exact fun s _ => .refl s

/-- What a movement makes that is not known yet. -/
theorem Coherent.movesOnce_makeMovement (h : Coherent used s₀ r) (hs : Follows s₀ s) {x : TensorId}
    {t : Tensor} (ht : s₀.tensors[x]? = some t) (hnew : s.movementMemo[(m, x)]? = none)
    (tracker : Tracker) (same : Bool)
    (ih : ∀ z < x, ∀ s, Follows s₀ s → MovesOnce m (s₀.Needs z) s (exec (movement m z) s).2) :
    match exec (makeMovement m x t tracker same) s with
    | (.ok y, s') => MovesOnce m (s₀.Needs x) s (s'.withMovement m x y)
    | (.error _, s') => MovesOnce m (s₀.Needs x) s s' := by
  have bounded : ∀ z, s₀.Needs x z → z < s.tensors.size := fun z hz =>
    Nat.lt_of_lt_of_le (Nat.lt_of_le_of_lt (h.le_of_needs hz) (lt_of_tensor ht))
      (size_le_of_tensors hs.tensors)
  have chain : ∀ u, MovesOnce m (s₀.Needs x) s ((s.withNode.withTensor tracker.shape
      (.deferred .movement (.node s.nextNode (.movement m) [u]))).withMovement m x
        s.tensors.size) := fun u =>
    (MovesOnce.withNode s).trans (.withTensor ⟨hs.tensors, hs.known⟩ hnew (Needs.refl s₀ x)) bounded
  simp only [makeMovement, exec_bind, exec_get]
  by_cases hsame : same = true
  · rw [if_pos hsame]
    exact .same hnew (Needs.refl s₀ x)
  rw [if_neg hsame]
  by_cases hpush : s.pushesMovement m x = true
  · have pushed := h.movesOnce_mapLeaves ht ih s hs
    rw [if_pos hpush, exec_bind]
    rcases hrun : exec (t.tree.mapLeaves (fun _ => freshNode) _) s with ⟨e | tree, s₁⟩
    · rw [hrun] at pushed
      exact pushed.mono fun _ => And.right
    · rw [hrun] at pushed
      have hs₁ := pushed.follows (fun z hz => bounded z hz.2) hs
      -- the tensors moved so far are below, so nothing is known of this one
      have hnew₁ := pushed.still_unknown hnew fun hlt => Nat.lt_irrefl _ hlt.1
      exact (pushed.mono fun _ => And.right).trans (.withTensor hs₁ hnew₁ (Needs.refl s₀ x)) bounded
  rw [if_neg hpush]
  by_cases hmerge : s.rules.mergeMovements = true
  · rw [if_pos hmerge, exec_bind, exec_splice]
    exact chain _
  · rw [if_neg hmerge]
    exact chain _

/-- A movement moves what it needs, each tensor once. -/
theorem Coherent.movesOnce (h : Coherent used s₀ r) (m : Movement) {x : TensorId}
    (hx : x < s₀.tensors.size) (hs : Follows s₀ s) :
    MovesOnce m (s₀.Needs x) s (exec (movement m x) s).2 := by
  induction x using Nat.strongRecOn generalizing s with
  | ind x ih =>
    obtain ⟨t, ht⟩ : ∃ t, s₀.tensors[x]? = some t := ⟨_, Array.getElem?_eq_getElem hx⟩
    cases hmemo : s.movementMemo[(m, x)]? with
    | some y =>
      rw [exec_movement_known hmemo]
      exact .refl s
    | none =>
      cases ho : m.outcome t.shape with
      | error e =>
        rw [exec_movement_refused hmemo (hs.tensors x t ht) ho]
        exact .refl s
      | ok outcome =>
        obtain ⟨tracker, same⟩ := outcome
        have hmake := h.movesOnce_makeMovement hs ht hmemo tracker same
          fun z hz s hs => ih z hz (hz.trans hx) hs
        rw [exec_movement_make hmemo (hs.tensors x t ht) ho]
        generalize exec (makeMovement m x t tracker same) s = run at hmake ⊢
        obtain ⟨e | y, s'⟩ := run
        · exact hmake
        · exact hmake

end TensorLoom.Session
