import TensorLoom.Proofs.Session.WellFormed
import TensorLoom.Proofs.Layout.Identity
import TensorLoom.Proofs.OpTree.Copy

/-!
# What a step adds

Tensors never change, so a step is told by the tensors that it adds. `Session.Added` lists them by
the step: data of a checked shape, one node over the operands of a pointwise operation, what pushing
and chaining a movement make on the way, one reduction, one convolution. Whether the step is refused
or not, it adds nothing else (`Session.added_step`).

A movement adds tensors wherever it is pushed, so this is shown of a step put together from others
(`Session.Leads`, `Session.Adds`), and then by induction on the number of the tensor moved.

What holds of every tensor added, given that it holds of those before, holds of all tensors of a
reachable session (`Session.Reachable.forall_tensor`). So none of them has an empty dimension
(`Session.Reachable.positive`).
-/

namespace TensorLoom

/-- What a movement makes of a row-major buffer has no empty dimension. -/
theorem Dense.positive_tracker {shape : List Nat} {m : Movement} {t : Tracker}
    (h : Dense.tracker shape m = .ok t) : ∀ d ∈ t.shape, 0 < d := by
  obtain ⟨row, hrow, hmove⟩ := bind_eq_ok.mp h
  obtain ⟨v, hv, rfl⟩ := Tracker.ofShape_eq_ok hrow
  obtain ⟨hp, hshape, -⟩ := View.contiguous_eq_ok hv
  have hp : ∀ d ∈ v.shape, 0 < d := hshape ▸ hp
  exact Tracker.positive_move (t := ⟨v, []⟩) hp hmove

namespace Session

open OpTree (Subtree)

variable {α β : Type} {s s' s'' : Session} {P : Tensor → Prop}

/-- Every tensor of the second session was in the first, or is of a kind. -/
def OnlyAdds (P : Tensor → Prop) (s s' : Session) : Prop :=
  ∀ (y : TensorId) (t : Tensor), s'.tensors[y]? = some t → s.tensors[y]? = some t ∨ P t

namespace OnlyAdds

theorem of_eq (h : s'.tensors = s.tensors) : OnlyAdds P s s' := fun _ _ ht => .inl (h ▸ ht)

theorem trans (h : OnlyAdds P s s') (h' : OnlyAdds P s' s'') : OnlyAdds P s s'' :=
  fun y t ht => (h' y t ht).elim (h y t) .inr

theorem withTensor {shape : List Nat} {content : Content} (h : P ⟨shape, content⟩) :
    OnlyAdds P s (s.withTensor shape content) := by
  intro y t ht
  rw [Session.withTensor, Array.getElem?_push] at ht
  split at ht
  · cases ht
    exact .inr h
  · exact .inl ht

end OnlyAdds

/-! ## Steps put together -/

/-- Whatever session a step is run in, it leads to one that stands in a relation to it. -/
def Leads (R : Session → Session → Prop) (x : SessionM α) : Prop := ∀ s, R s (exec x s).2

section Leads

variable {R : Session → Session → Prop} (refl : ∀ s, R s s)
  (trans : ∀ s s' s'', R s s' → R s' s'' → R s s'')

include refl in
theorem leads_pure (a : α) : Leads R (pure a : SessionM α) := refl

include trans in
/-- What follows a step matters only for the values that the step has. -/
theorem leads_bind {x : SessionM α} {f : α → SessionM β} (hx : Leads R x)
    (hf : ∀ s a s', exec x s = (.ok a, s') → Leads R (f a)) : Leads R (x >>= f) := by
  intro s
  have h := hx s
  rw [exec_bind]
  cases hrun : exec x s with
  | mk outcome s' =>
    rw [hrun] at h
    cases outcome with
    | error e => exact h
    | ok a => exact trans _ _ _ h (hf s a s' hrun s')

include refl trans in
/-- Replacing the leaves of a tree leads where the replacements lead. -/
theorem leads_mapLeaves {rename : Nat → SessionM Nat} {replace : α → SessionM β}
    (hrename : ∀ id, Leads R (rename id)) (t : OpTree α)
    (hreplace : ∀ x, Subtree (.leaf x) t → Leads R (replace x)) :
    Leads R (t.mapLeaves rename replace) := by
  suffices (∀ t : OpTree α, (∀ x, Subtree (.leaf x) t → Leads R (replace x)) →
      ∀ finished, Leads R (OpTree.copyTree rename replace finished t)) ∧
      ∀ ts : List (OpTree α), (∀ t ∈ ts, ∀ x, Subtree (.leaf x) t → Leads R (replace x)) →
        ∀ finished, Leads R (OpTree.copyTrees rename replace finished ts) by
    rw [OpTree.mapLeaves_eq_copy, map_eq_pure_bind]
    exact leads_bind trans (this.1 t hreplace _) fun _ _ _ _ => leads_pure refl _
  refine OpTree.induction_list ?leaf ?node ?nil ?cons
  case leaf =>
    intro x h finished
    rw [OpTree.copyTree]
    exact leads_bind trans (h x (.refl _)) fun _ _ _ _ => leads_pure refl _
  case node =>
    intro id op sources ih h finished
    rw [OpTree.copyTree]
    split
    · exact leads_pure refl _
    · refine leads_bind trans (ih (fun t ht x hx => h x (hx.trans (OpTree.subtree_source ht))) _)
        fun _ _ _ _ => ?_
      exact leads_bind trans (hrename id) fun _ _ _ _ => leads_pure refl _
  case nil =>
    intro _ finished
    rw [OpTree.copyTrees]
    exact leads_pure refl _
  case cons =>
    intro t ts iht ihts h finished
    rw [OpTree.copyTrees]
    refine leads_bind trans (iht (h t List.mem_cons_self) _) fun _ _ _ _ => ?_
    refine leads_bind trans (ihts (fun t ht => h t (List.mem_cons_of_mem _ ht)) _) fun _ _ _ _ => ?_
    exact leads_pure refl _

end Leads

/-! ## Movements -/

/-- Whatever session a step is run in, it only adds tensors of a kind. -/
def Adds (P : Tensor → Prop) (x : SessionM α) : Prop := ∀ s, OnlyAdds P s (exec x s).2

namespace Adds

theorem pure (a : α) : Adds P (pure a : SessionM α) := leads_pure (fun _ => .of_eq rfl) a

theorem bind {x : SessionM α} {f : α → SessionM β} (hx : Adds P x)
    (hf : ∀ s a s', exec x s = (.ok a, s') → Adds P (f a)) : Adds P (x >>= f) :=
  leads_bind (fun _ _ _ => .trans) hx hf

theorem get : Adds P (get : SessionM Session) := fun _ => .of_eq rfl

theorem fetch (x : TensorId) : Adds P (fetch x) := by
  refine bind get fun s s' _ _ => ?_
  split
  · exact pure _
  · exact fun _ => .of_eq rfl

theorem liftLayout (x : Attempt LayoutError α) : Adds P (liftLayout x) := fun _ => .of_eq rfl

theorem splice (category : Category) (x : TensorId) : Adds P (splice category x) := fun s => by
  rw [exec_splice]
  exact .of_eq rfl

theorem addTensor {shape : List Nat} {content : Content} (h : P ⟨shape, content⟩) :
    Adds P (addTensor shape content) := fun s => by
  rw [exec_addTensor]
  exact .withTensor h

theorem addNode {shape : List Nat} {category : Category} {op : Op}
    {sources : List (OpTree TensorId)}
    (h : ∀ id, P ⟨shape, .deferred category (.node id op sources)⟩) :
    Adds P (addNode shape category op sources) := by
  refine bind (fun _ => .of_eq rfl) fun _ id _ _ => ?_
  exact addTensor (h id)

theorem mapLeaves {rename : Nat → SessionM Nat} {replace : α → SessionM β}
    (hrename : ∀ id, Adds P (rename id)) (hreplace : ∀ x, Adds P (replace x)) (t : OpTree α) :
    Adds P (t.mapLeaves rename replace) :=
  leads_mapLeaves (fun _ => .of_eq rfl) (fun _ _ _ => .trans) hrename t fun x _ => hreplace x

end Adds

/-- A tensor that applying a movement makes. -/
structure MovedTensor (t : Tensor) : Prop where
  kind : t.category = some .elementwise ∨ t.category = some .movement
  positive : ∀ d ∈ t.shape, 0 < d

/-- A movement adds tensors of moved shapes, wherever it is pushed. -/
theorem adds_movement (m : Movement) (x : TensorId) : Adds MovedTensor (movement m x) := by
  induction x using Nat.strongRecOn with
  | ind x ih =>
    rw [movement]
    refine .bind .get fun s _ _ _ => ?_
    dsimp only
    split
    · exact .pure _
    refine .bind (.fetch x) fun _ t _ _ => .bind (.liftLayout _) fun s tracker s' htracker => ?_
    have hp : ∀ d ∈ tracker.shape, 0 < d :=
      Dense.positive_tracker (mapError_eq_ok.mp (congrArg Prod.fst htracker))
    refine .bind .get fun _ s _ _ => .bind (.liftLayout _) fun _ same _ _ => ?_
    have known : ∀ made, Adds MovedTensor (do
        modify fun s : Session => { s with movementMemo := s.movementMemo.insert (m, x) made }
        return made) := fun made => .bind (fun _ => .of_eq rfl) fun _ _ _ _ => .pure made
    have chain : ∀ source, Adds MovedTensor
        (addNode tracker.shape .movement (.movement m) [source]) := fun source =>
      .addNode fun id => ⟨.inr rfl, hp⟩
    split
    · exact .bind (.pure x) fun _ made _ _ => known made
    split
    · -- the movement is pushed: the leaves are older tensors
      refine .bind (.mapLeaves (fun _ _ => .of_eq rfl) (fun leaf => ?_) _) fun _ tree _ _ => ?_
      · split
        · exact ih leaf ‹_›
        · exact fun _ => .of_eq rfl
      · exact .bind (.addTensor ⟨.inl rfl, hp⟩) fun _ made _ _ => known made
    split
    · exact .bind (.splice .movement x) fun _ source _ _ =>
        .bind (chain source) fun _ made _ _ => known made
    · exact .bind (.pure _) fun _ source _ _ => .bind (chain source) fun _ made _ _ => known made

/-! ## All steps -/

/-- A tensor that a step adds to a session. -/
inductive Added (s : Session) : Construct TensorId → Tensor → Prop
  | host {shape : List Nat} {data : Array Float32} (positive : ∀ d ∈ shape, 0 < d) :
      Added s (.host shape data) ⟨shape, .host data⟩
  | pointwise {op : Op} {xs : List TensorId} {shape : List Nat} {id : Nat}
      {sources : List (OpTree TensorId)} (pointwise : op.Pointwise xs.length)
      (shapes : ∀ x ∈ xs, s.shape? x = some shape) :
      Added s (.elementwise op xs) ⟨shape, .deferred .elementwise (.node id op sources)⟩
  | folded {op : Op} {xs : List TensorId} {shape : List Nat} {id : Nat}
      (pointwise : op.Pointwise xs.length) (shapes : ∀ x ∈ xs, s.shape? x = some shape)
      (folds : s.foldsIntoProcessing xs = true) :
      Added s (.elementwise op xs)
        ⟨shape, .deferred .processing (.node id op (xs.map (s.operand .processing)))⟩
  | moved {m : Movement} {x : TensorId} {t : Tensor} (moved : MovedTensor t) :
      Added s (.movement m x) t
  | reduced {op : Reduction} {x : TensorId} {shape target : List Nat} {id : Nat}
      (source : s.shape? x = some shape) (reduces : Reduces shape target) :
      Added s (.reduce op x target)
        ⟨target, .deferred .reduction (.node id (.reduce op target) [.leaf x])⟩
  | convolved {x w : TensorId} {args : Convolution} {id : Nat}
      (positive : ∀ d ∈ args.outShape, 0 < d) :
      Added s (.convolve x w args) ⟨args.outShape,
        .deferred .processing (.node id (.convolution args) [.leaf x, .leaf w])⟩

theorem added_host (shape : List Nat) (data : Array Float32) :
    OnlyAdds (Added s (.host shape data)) s (exec (host shape data) s).2 := by
  rw [exec_host_eq]
  cases ho : hostSize shape data with
  | error e => exact .of_eq rfl
  | ok u =>
    obtain ⟨_, hcheck, -⟩ := bind_eq_ok.mp ho
    exact .withTensor (.host (View.checkShape_eq_ok (mapError_eq_ok.mp hcheck)))

/-- What becomes of a pointwise operation: it is refused, or known, or one tensor is made for it,
which is known from then on. -/
inductive Applied (s : Session) (op : Op) (xs : List TensorId) :
    Except (Stop SessionError) TensorId × Session → Prop
  | refused (e : Stop SessionError) : Applied s op xs (.error e, s)
  | known {y : TensorId} (known : s.elementwiseMemo[(op, xs)]? = some y) :
      Applied s op xs (.ok y, s)
  | made {shape : List Nat} {category : Category} {sources : List (OpTree TensorId)}
      (new : s.elementwiseMemo[(op, xs)]? = none) (pointwise : op.Pointwise xs.length)
      (shapes : ∀ x ∈ xs, s.shape? x = some shape)
      (operands : PointwiseOperands s xs category sources) :
      Applied s op xs (.ok s.tensors.size, (s.withNode.withTensor shape
        (.deferred category (.node s.nextNode op sources))).withElementwise op xs s.tensors.size)

theorem applied_elementwise (op : Op) {xs : List TensorId} (hxs : ∀ x ∈ xs, x < s.tensors.size) :
    Applied s op xs (exec (elementwise op xs) s) := by
  obtain ⟨c', hc'⟩ := Construct.exists_shapes (c := .elementwise op xs) hxs
  cases hc' with
  | elementwise _ hshapes =>
    obtain ⟨ts, hts, rfl⟩ := exists_tensors hshapes
    rw [exec_elementwise_eq hts]
    cases ho : elementwiseShape op (ts.map (·.shape)) with
    | error e => exact .refused _
    | ok shape =>
      obtain ⟨hop, hsame⟩ := of_elementwiseShape ho
      have shapes : ∀ x ∈ xs, s.shape? x = some shape := fun x hx => by
        obtain ⟨d, hd, hxd⟩ := exists_of_forall₂_right hshapes.flip hx
        rw [hxd, hsame d hd]
      dsimp only
      cases hmemo : s.elementwiseMemo[(op, xs)]? with
      | some y => exact .known hmemo
      | none =>
        obtain ⟨category, sources, operands, hmake⟩ := exec_makeElementwise_eq (s := s) op xs shape
        dsimp only
        rw [exec_bind, hmake, exec_addNode]
        exact .made hmemo (hshapes.length_eq ▸ hop) shapes operands

theorem added_elementwise {op : Op} {xs : List TensorId}
    (hxs : ∀ x ∈ xs, x < s.tensors.size) :
    OnlyAdds (Added s (.elementwise op xs)) s (exec (elementwise op xs) s).2 := by
  have happlied := applied_elementwise op hxs
  generalize exec (elementwise op xs) s = run at happlied ⊢
  have made : ∀ {shape content}, Added s (.elementwise op xs) ⟨shape, content⟩ →
      OnlyAdds (Added s (.elementwise op xs)) s ((s.withNode.withTensor shape
        content).withElementwise op xs s.tensors.size) := fun h =>
    .trans (.of_eq rfl) (.trans (.withTensor h) (.of_eq rfl))
  cases happlied with
  | refused e => exact .of_eq rfl
  | known _ => exact .of_eq rfl
  | made _ pointwise shapes operands =>
    cases operands with
    | folded folds => exact made (.folded pointwise shapes folds)
    | spliced => exact made (.pointwise pointwise shapes)
    | kept _ => exact made (.pointwise pointwise shapes)

/-- A step adds what it is known to add, and nothing else. -/
theorem added_step {c : Construct TensorId} (operands : ∀ x ∈ c.operands, x < s.tensors.size) :
    OnlyAdds (Added s c) s (exec c.step s).2 := by
  cases c with
  | host shape data => exact added_host shape data
  | elementwise op xs => exact added_elementwise operands
  | movement m x =>
    intro y t ht
    exact (adds_movement m x s y t ht).imp_right .moved
  | reduce op x target =>
    obtain ⟨shape, hx⟩ : ∃ shape, s.shape? x = some shape :=
      ⟨_, shape?_of_tensor (Array.getElem?_eq_getElem (operands x List.mem_cons_self))⟩
    by_cases hr : Reduces shape target
    · rw [Construct.step, exec_reduce_eq op hx hr]
      exact Adds.addNode (fun _ => .reduced hx hr) s
    · rw [Construct.step, exec_reduce_error hx hr]
      exact .of_eq rfl
  | convolve x w args =>
    cases hcheck : View.checkShape args.outShape with
    | error e =>
      rw [Construct.step, exec_convolve_error hcheck]
      exact .of_eq rfl
    | ok u =>
      rw [Construct.step, exec_convolve_eq hcheck]
      exact Adds.addNode (fun _ => .convolved (View.checkShape_eq_ok hcheck)) s

/-! ## All tensors of a reachable session -/

namespace Reachable

variable {rules : FusionRules}

/-- What holds of the tensors that steps add holds of every tensor. -/
theorem forall_tensor (h : Reachable rules s) {Q : Tensor → Prop}
    (added : ∀ s c t, (∀ (y : TensorId) t, s.tensors[y]? = some t → Q t) → Added s c t → Q t) :
    ∀ (y : TensorId) t, s.tensors[y]? = some t → Q t := by
  induction h with
  | start => exact fun y t ht => absurd ht (by simp [new])
  | construct _ operands ih =>
    exact fun y t ht => (added_step operands y t ht).elim (ih y t) (added _ _ t ih)
  | @realize s _ materialize device x _ ih =>
    obtain ⟨realized, e⟩ := realize_eq_withRealized materialize s device x
    exact e ▸ ih

/-- No tensor has an empty dimension. -/
theorem positive (h : Reachable rules s) {y : TensorId} {t : Tensor} (ht : s.tensors[y]? = some t) :
    ∀ d ∈ t.shape, 0 < d := by
  refine h.forall_tensor (Q := fun t => ∀ d ∈ t.shape, 0 < d) (fun s c t before hadded => ?_) y t ht
  have of_operand : ∀ {x shape}, s.shape? x = some shape → ∀ d ∈ shape, 0 < d := by
    intro x shape hx
    obtain ⟨t, ht, rfl⟩ := Option.map_eq_some_iff.mp hx
    exact before x t ht
  have of_operands : ∀ {op : Op} {xs : List TensorId} {shape}, op.Pointwise xs.length →
      (∀ x ∈ xs, s.shape? x = some shape) → ∀ d ∈ shape, 0 < d := by
    intro op xs shape pointwise shapes
    obtain ⟨x, hx⟩ := List.exists_mem_of_ne_nil xs (by rintro rfl; cases pointwise)
    exact of_operand (shapes x hx)
  cases hadded with
  | host positive => exact positive
  | pointwise pointwise shapes => exact of_operands pointwise shapes
  | folded pointwise shapes _ => exact of_operands pointwise shapes
  | moved moved => exact moved.positive
  | @reduced op x shape target id source reduces =>
    intro d hd
    obtain ⟨hl, hall⟩ := reduces
    obtain ⟨i, hi, hid⟩ := exists_of_forall₂_right (List.forall₂_iff_zip.mpr
      ⟨hl.symm, fun {i o} hio => of_decide_eq_true (List.all_eq_true.mp hall _ hio)⟩) hd
    have hid : d = i ∨ d = 1 := hid
    rcases hid with rfl | rfl
    · exact of_operand source d hi
    · exact Nat.one_pos
  | convolved positive => exact positive

end Reachable

end Session

end TensorLoom
