import TensorLoom.OpTree.MapLeaves
import TensorLoom.Proofs.OpTree.Walk
import TensorLoom.Proofs.Checked
import Std.Data.HashMap.Lemmas

/-!
# Trees with other leaves

What `OpTree.mapLeaves` makes of a tree does not depend on the monad that it runs in. `Execution`
says what running in a monad means, and `OpTree.Carries.mapLeaves_runs` is an induction rule over
the run: what holds of the new leaves, and is handed on from the sources of a node to the node,
holds of the new tree. The nodes that are finished are looked up by identity, so the rule needs that
nodes of one identity are the same node.

In the identity monad the new tree is `OpTree.map` of the old one (`OpTree.mapLeaves_eq_map`).
-/

namespace TensorLoom

/-- What it means to run in a monad: from a state to a value and a state. -/
structure Execution (m : Type → Type) [Monad m] (σ : Type) where
  Runs : {γ : Type} → m γ → σ → γ → σ → Prop
  pure : ∀ {γ : Type} (a : γ) (s : σ), Runs (Pure.pure a) s a s
  bind : ∀ {γ δ : Type} {x : m γ} {f : γ → m δ} {s s' s'' : σ} {a : γ} {b : δ},
    Runs x s a s' → Runs (f a) s' b s'' → Runs (x >>= f) s b s''

/-- The identity monad has no state. -/
def Execution.ofId : Execution Id Unit where
  Runs x _ a _ := x.run = a
  pure _ _ := rfl
  bind := by
    rintro _ _ _ _ _ _ _ _ _ rfl h
    exact h

namespace OpTree

variable {α β : Type}

section Rule

variable {m : Type → Type} [Monad m] {σ : Type} (e : Execution m σ) {rename : Nat → m Nat}
  {replace : α → m β} {root : OpTree α} (image : σ → OpTree α → OpTree β → Prop)

/-- The sources of the node in hand, of which those that are done have their images. -/
def Frame.Ready (root : OpTree α) (image : OpTree α → OpTree β → Prop) (f : Frame α β)
    (sources : List (OpTree α)) : Prop :=
  Subtree (node f.id f.op sources) root ∧
    ∃ finished, sources = finished ++ f.todo ∧ List.Forall₂ image finished f.done.toList

/-- The frames of the nodes above a tree, each of which waits for the one below it. -/
def Frame.Await (root : OpTree α) (image : OpTree α → OpTree β → Prop) :
    OpTree α → List (Frame α β) → Prop
  | t, [] => t = root
  | t, f :: frames => ∃ sources finished, Subtree (node f.id f.op sources) root ∧
    sources = finished ++ t :: f.todo ∧ List.Forall₂ image finished f.done.toList ∧
      Frame.Await root image (node f.id f.op sources) frames

theorem Frame.Await.imp {image image' : OpTree α → OpTree β → Prop}
    (h : ∀ t u, image t u → image' t u) {t : OpTree α} {frames : List (Frame α β)}
    (hf : Frame.Await root image t frames) : Frame.Await root image' t frames := by
  induction frames generalizing t with
  | nil => exact hf
  | cons f frames ih =>
    obtain ⟨sources, finished, hs, hsources, hdone, hrest⟩ := hf
    exact ⟨sources, finished, hs, hsources, hdone.imp h, ih hrest⟩

theorem Frame.ready_push {image : OpTree α → OpTree β → Prop} {f : Frame α β}
    {sources before : List (OpTree α)} {t : OpTree α} {u : OpTree β}
    (hs : Subtree (node f.id f.op sources) root) (hsources : sources = before ++ t :: f.todo)
    (hdone : List.Forall₂ image before f.done.toList) (hu : image t u) :
    Frame.Ready root image (f.push u) sources := by
  refine ⟨hs, before ++ [t], ?_, ?_⟩
  · rw [hsources, List.append_assoc]
    rfl
  · rw [Frame.push, Array.toList_push]
    exact List.rel_append hdone (.cons hu .nil)

/-- What holds between two steps of a rebuild: the nodes that are finished have their images under
their identities, the node in hand has those of its sources that are done, and the frames above it
wait for it. -/
structure Rebuilding (root : OpTree α) (image : OpTree α → OpTree β → Prop)
    (rebuilt : Std.HashMap Nat (OpTree β)) (frame : Frame α β) (parents : List (Frame α β))
    (sources : List (OpTree α)) : Prop where
  finished : ∀ (id : Nat) (u : OpTree β), rebuilt[id]? = some u →
    ∃ op sources, Subtree (node id op sources) root ∧ image (node id op sources) u
  ready : Frame.Ready root image frame sources
  await : Frame.Await root image (node frame.id frame.op sources) parents

namespace Rebuilding

variable {image image' : OpTree α → OpTree β → Prop} {rebuilt : Std.HashMap Nat (OpTree β)}
  {parents : List (Frame α β)} {id : Nat} {op : Op} {done : Array (OpTree β)}
  {todo sources : List (OpTree α)} {t : OpTree α} {u : OpTree β}

theorem imp {frame : Frame α β} (himage : ∀ t u, image t u → image' t u)
    (h : Rebuilding root image rebuilt frame parents sources) :
    Rebuilding root image' rebuilt frame parents sources where
  finished id u hu := by
    obtain ⟨op, sources, ht, hi⟩ := h.finished id u hu
    exact ⟨op, sources, ht, himage _ _ hi⟩
  ready := by
    obtain ⟨hsub, before, hsources, hdone⟩ := h.ready
    exact ⟨hsub, before, hsources, hdone.imp himage⟩
  await := h.await.imp himage

/-- The next source belongs to the tree. -/
theorem subtree (h : Rebuilding root image rebuilt ⟨id, op, done, t :: todo⟩ parents sources) :
    Subtree t root := by
  obtain ⟨hsub, before, rfl, -⟩ := h.ready
  exact (subtree_source (List.mem_append_right _ List.mem_cons_self)).trans hsub

/-- The next source is done. -/
theorem push (h : Rebuilding root image rebuilt ⟨id, op, done, t :: todo⟩ parents sources)
    (hu : image t u) :
    Rebuilding root image rebuilt ((⟨id, op, done, todo⟩ : Frame α β).push u) parents sources where
  finished := h.finished
  ready := by
    obtain ⟨hsub, before, hsources, hdone⟩ := h.ready
    exact Frame.ready_push hsub hsources hdone hu
  await := h.await

/-- A node that was finished under the identity of the next source is the next source. -/
theorem known (hw : root.WellShared) {id' : Nat} {op' : Op} {below : List (OpTree α)}
    (h : Rebuilding root image rebuilt ⟨id, op, done, node id' op' below :: todo⟩ parents sources)
    (hknown : rebuilt[id']? = some u) : image (node id' op' below) u := by
  obtain ⟨op'', below', ht, hi⟩ := h.finished id' u hknown
  obtain ⟨rfl, rfl⟩ := hw _ _ _ _ _ h.subtree ht
  exact hi

/-- The next source is taken in hand. -/
theorem enter {id' : Nat} {op' : Op} {below : List (OpTree α)}
    (h : Rebuilding root image rebuilt ⟨id, op, done, node id' op' below :: todo⟩ parents sources) :
    Rebuilding root image rebuilt ⟨id', op', #[], below⟩ (⟨id, op, done, todo⟩ :: parents)
      below where
  finished := h.finished
  ready := ⟨h.subtree, [], rfl, .nil⟩
  await := by
    obtain ⟨hsub, before, hsources, hdone⟩ := h.ready
    exact ⟨sources, before, hsub, hsources, hdone, h.await⟩

/-- A node in hand with nothing left to do has the images of all of its sources. -/
theorem complete (h : Rebuilding root image rebuilt ⟨id, op, done, []⟩ parents sources) :
    List.Forall₂ image sources done.toList := by
  obtain ⟨-, before, rfl, hdone⟩ := h.ready
  rw [List.append_nil]
  exact hdone

/-- It is done, and the node above it is gone on with. -/
theorem leave {parent : Frame α β}
    (h : Rebuilding root image rebuilt ⟨id, op, done, []⟩ (parent :: parents) sources)
    (hu : image (node id op sources) u) :
    ∃ above, Rebuilding root image (rebuilt.insert id u) (parent.push u) parents above := by
  obtain ⟨above, before, hsub, habove, hbefore, hawait⟩ := h.await
  refine ⟨above, fun id' u' hu' => ?_, Frame.ready_push hsub habove hbefore hu, hawait⟩
  rw [Std.HashMap.getElem?_insert] at hu'
  split at hu'
  · rename_i hid
    obtain rfl := eq_of_beq hid
    obtain rfl := Option.some.inj hu'
    exact ⟨op, sources, h.ready.1, hu⟩
  · exact h.finished id' u' hu'

end Rebuilding

/-- What carries over from the leaves of a tree to the whole of it while it is rebuilt. That `u` is
an image of `t` in a state stays so in the states after it. In a state with the invariant each leaf
is replaced by an image, and so is each node whose sources have been. -/
structure Carries (rename : Nat → m Nat) (replace : α → m β) (root : OpTree α) (le : σ → σ → Prop)
    (inv : σ → Prop) (image : σ → OpTree α → OpTree β → Prop) : Prop where
  trans : ∀ s s' s'', le s s' → le s' s'' → le s s''
  mono : ∀ s s' t u, le s s' → image s t u → image s' t u
  onLeaf : ∀ x s, Subtree (leaf x) root → inv s →
    ∃ y s', e.Runs (replace x) s y s' ∧ le s s' ∧ inv s' ∧ image s' (leaf x) (leaf y)
  onNode : ∀ id op sources done s, Subtree (node id op sources) root → inv s →
    List.Forall₂ (image s) sources done →
      ∃ id' s', e.Runs (rename id) s id' s' ∧ le s s' ∧ inv s' ∧
        image s' (node id op sources) (node id' op done)

variable {e image} {le : σ → σ → Prop} {inv : σ → Prop}

/-- Going on with the node in hand gives an image of the whole tree. -/
theorem Carries.rebuild_runs (h : Carries e rename replace root le inv image)
    (hw : root.WellShared) (rebuilt : Std.HashMap Nat (OpTree β)) (frame : Frame α β)
    (parents : List (Frame α β)) :
    ∀ s sources, inv s → Rebuilding root (image s) rebuilt frame parents sources →
      ∃ u s', e.Runs (rebuild rename replace rebuilt frame parents) s u s' ∧ le s s' ∧ inv s' ∧
        image s' root u := by
  induction rebuilt, frame, parents using rebuild.induct with
  | case1 rebuilt frame parents x todo htodo ih =>
    intro s sources hs hr
    obtain ⟨id, op, done, _⟩ := frame
    subst htodo
    obtain ⟨y, s₁, hrun, hle, hs₁, hy⟩ := h.onLeaf x s hr.subtree hs
    have hr := (hr.imp fun t u => h.mono s s₁ t u hle).push hy
    obtain ⟨u, s₂, hrest, hle', hs₂, hu⟩ := ih y s₁ sources hs₁ hr
    refine ⟨u, s₂, ?_, h.trans _ _ _ hle hle', hs₂, hu⟩
    rw [rebuild]
    exact e.bind hrun hrest
  | case2 rebuilt frame parents id' op' below todo htodo source hknown ih =>
    intro s sources hs hr
    obtain ⟨id, op, done, _⟩ := frame
    subst htodo
    obtain ⟨u, s₁, hrest, hrun⟩ := ih s sources hs (hr.push (hr.known hw hknown))
    refine ⟨u, s₁, ?_, hrun⟩
    rw [rebuild]
    simp only [hknown]
    exact hrest
  | case3 rebuilt frame parents id' op' below todo htodo hnew ih =>
    intro s sources hs hr
    obtain ⟨id, op, done, _⟩ := frame
    subst htodo
    obtain ⟨u, s₁, hrest, hrun⟩ := ih s below hs hr.enter
    refine ⟨u, s₁, ?_, hrun⟩
    rw [rebuild]
    simp only [hnew]
    exact hrest
  | case4 rebuilt frame parents htodo ih =>
    intro s sources hs hr
    obtain ⟨id, op, done, _⟩ := frame
    subst htodo
    obtain ⟨id', s₁, hrun, hle, hs₁, hi⟩ := h.onNode id op sources _ s hr.ready.1 hs hr.complete
    cases parents with
    | nil =>
      obtain rfl : node id op sources = root := hr.await
      refine ⟨_, s₁, ?_, hle, hs₁, hi⟩
      rw [rebuild]
      exact e.bind hrun (e.pure _ _)
    | cons parent parents =>
      obtain ⟨above, hr⟩ := (hr.imp fun t u => h.mono s s₁ t u hle).leave hi
      obtain ⟨u, s₂, hrest, hle', hs₂, hu⟩ := ih id' s₁ above hs₁ hr
      refine ⟨u, s₂, ?_, h.trans _ _ _ hle hle', hs₂, hu⟩
      rw [rebuild]
      exact e.bind hrun hrest

/-- A tree is mapped to an image of it. -/
theorem Carries.mapLeaves_runs (h : Carries e rename replace root le inv image)
    (hw : root.WellShared) {s : σ} (hs : inv s) :
    ∃ u s', e.Runs (root.mapLeaves rename replace) s u s' ∧ le s s' ∧ inv s' ∧ image s' root u := by
  cases root with
  | leaf x =>
    obtain ⟨y, s', hrun, hle, hs', hy⟩ := h.onLeaf x s (.refl _) hs
    exact ⟨leaf y, s', e.bind hrun (e.pure _ _), hle, hs', hy⟩
  | node id op sources =>
    exact h.rebuild_runs hw {} ⟨id, op, #[], sources⟩ [] s sources hs
      ⟨fun id u hu => by simp at hu, ⟨.refl _, [], rfl, .nil⟩, rfl⟩

end Rule

/-- The tree with the leaves replaced and nothing else changed. -/
def map (f : α → β) : OpTree α → OpTree β
  | leaf x => leaf (f x)
  | node id op sources => node id op (sources.map (map f))

theorem subtree_map {f : α → β} {s t : OpTree α} (h : Subtree s t) :
    Subtree (s.map f) (t.map f) := by
  induction h with
  | refl => exact .refl _
  | source _ hm ih =>
    rw [map]
    exact .source ih (List.mem_map_of_mem hm)

/-- The subtrees of a mapped tree are mapped subtrees. -/
theorem exists_of_subtree_map {f : α → β} {u : OpTree β} {t : OpTree α}
    (h : Subtree u (t.map f)) : ∃ s, Subtree s t ∧ u = s.map f := by
  generalize ht : t.map f = v at h
  induction h generalizing t with
  | refl => exact ⟨t, .refl t, ht.symm⟩
  | source _ hm ih =>
    cases t with
    | leaf x =>
      rw [map] at ht
      cases ht
    | node id op sources =>
      rw [map] at ht
      cases ht
      obtain ⟨t, ht, rfl⟩ := List.mem_map.mp hm
      obtain ⟨s, hs, hu⟩ := ih rfl
      exact ⟨s, .source hs ht, hu⟩

theorem exists_node_of_map {f : α → β} {s : OpTree α} {id : Nat} {op : Op}
    {sources : List (OpTree β)} (h : node id op sources = s.map f) :
    ∃ sources', s = node id op sources' ∧ sources = sources'.map (map f) := by
  cases s with
  | leaf x =>
    rw [map] at h
    cases h
  | node id' op' sources' =>
    rw [map] at h
    cases h
    exact ⟨sources', rfl, rfl⟩

theorem WellShared.map {t : OpTree α} (hw : t.WellShared) (f : α → β) : (t.map f).WellShared := by
  intro id op sources op' sources' h h'
  obtain ⟨s, hs, hu⟩ := exists_of_subtree_map h
  obtain ⟨s', hs', hu'⟩ := exists_of_subtree_map h'
  obtain ⟨below, rfl, rfl⟩ := exists_node_of_map hu
  obtain ⟨below', rfl, rfl⟩ := exists_node_of_map hu'
  obtain ⟨rfl, rfl⟩ := hw _ _ _ _ _ hs hs'
  exact ⟨rfl, rfl⟩

theorem carries_map (t : OpTree α) (f : α → β) :
    Carries Execution.ofId pure (fun x => pure (f x)) t (fun _ _ => True) (fun _ => True)
      (fun _ t u => u = t.map f) where
  trans _ _ _ _ _ := trivial
  mono _ _ _ _ _ h := h
  onLeaf x s _ _ := ⟨f x, s, rfl, trivial, trivial, by rw [OpTree.map]⟩
  onNode id op sources done s _ _ hdone := by
    refine ⟨id, s, rfl, trivial, trivial, ?_⟩
    rw [OpTree.map, forall₂_eq_map hdone]

theorem mapLeaves_eq_map {t : OpTree α} (hw : t.WellShared) (f : α → β) :
    Id.run (t.mapLeaves pure fun x => pure (f x)) = t.map f := by
  obtain ⟨u, _, hrun, -, -, hu⟩ := (carries_map t f).mapLeaves_runs hw (s := ()) trivial
  exact hrun.trans hu

/-- A node over leaves. -/
theorem mapLeaves_leaves {m : Type → Type} [Monad m] [LawfulMonad m] (rename : Nat → m Nat)
    (replace : α → m β) (id : Nat) (op : Op) (xs : List α) :
    (node id op (xs.map leaf)).mapLeaves rename replace = (do
      let ys ← xs.mapM replace
      let id ← rename id
      return node id op (ys.map leaf)) := by
  suffices ∀ (done : List β) rebuilt, rebuild rename replace rebuilt
      ⟨id, op, (done.map leaf).toArray, xs.map leaf⟩ [] = (do
        let ys ← xs.mapM replace
        let id ← rename id
        return node id op ((done ++ ys).map leaf)) from this [] _
  induction xs with
  | nil => intro done rebuilt; simp [rebuild]
  | cons x xs ih =>
    intro done rebuilt
    have push : ∀ y, (done.map leaf).toArray.push (leaf y : OpTree β) =
        ((done ++ [y]).map leaf).toArray := fun y => by simp
    simp only [List.map_cons, rebuild, Frame.push, push, ih, List.mapM_cons, bind_assoc, pure_bind,
      List.append_assoc, List.singleton_append]

theorem mapLeaves_single {m : Type → Type} [Monad m] [LawfulMonad m] (rename : Nat → m Nat)
    (replace : α → m β) (id : Nat) (op : Op) (x : α) :
    (node id op [leaf x]).mapLeaves rename replace = (do
      let y ← replace x
      let id ← rename id
      return node id op [leaf y]) := by
  simpa using mapLeaves_leaves rename replace id op [x]

end OpTree

end TensorLoom
