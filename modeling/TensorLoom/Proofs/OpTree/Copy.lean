import TensorLoom.OpTree.MapLeaves
import TensorLoom.Proofs.OpTree.Isomorphism
import Std.Data.HashMap.Lemmas

/-!
# Copies of a tree

`OpTree.copy` replaces the leaves of a tree by the values of a function, which may change a state
and may fail, and counts the identities of the new nodes. The loop over frames that does so is a
recursion over nodes and sources (`OpTree.mapLeaves_eq_copy`), in which a node that is finished is
looked up.

While a tree is copied, what is finished is sound (`OpTree.Finished.Sound`), and each step adds to
it what `OpTree.Copied` says of the trees copied so far. The outline of a copy is compared with that
of the tree behind any identities, since the nodes above, which come first in the outline, get their
identities last.

So the calls are those for the leaves in their order, and the tree that is made is isomorphic to the
one that is copied and has the values for its leaves (`OpTree.copy_calls`).
-/

namespace TensorLoom.OpTree

variable {α β γ : Type}

/-! ## The recursion behind the frames -/

section Recursion

variable {m : Type → Type} [Monad m]

mutual

/-- Copy a tree by recursion. The nodes that are finished are kept by identity. -/
def copyTree (rename : Nat → m Nat) (replace : α → m β)
    (finished : Std.HashMap Nat (OpTree β)) :
    OpTree α → m (OpTree β × Std.HashMap Nat (OpTree β))
  | leaf x => do
    let y ← replace x
    return (leaf y, finished)
  | node id op sources =>
    match finished[id]? with
    | some u => return (u, finished)
    | none => do
      let (us, finished) ← copyTrees rename replace finished sources
      let id' ← rename id
      return (node id' op us, finished.insert id (node id' op us))

/-- Copy the trees of a list, one after the other. -/
def copyTrees (rename : Nat → m Nat) (replace : α → m β)
    (finished : Std.HashMap Nat (OpTree β)) :
    List (OpTree α) → m (List (OpTree β) × Std.HashMap Nat (OpTree β))
  | [] => return ([], finished)
  | t :: ts => do
    let (u, finished) ← copyTree rename replace finished t
    let (us, finished) ← copyTrees rename replace finished ts
    return (u :: us, finished)

end

variable [LawfulMonad m] (rename : Nat → m Nat) (replace : α → m β)

/-- Going on with a frame is to copy its next source by recursion, and then to go on. -/
theorem rebuild_eq_copy :
    (∀ (t : OpTree α) rebuilt id op (done : Array (OpTree β)) todo parents,
      rebuild rename replace rebuilt ⟨id, op, done, t :: todo⟩ parents =
        copyTree rename replace rebuilt t >>= fun (u, rebuilt) =>
          rebuild rename replace rebuilt ⟨id, op, done.push u, todo⟩ parents) ∧
    ∀ (ts : List (OpTree α)) rebuilt id op (done : Array (OpTree β)) todo parents,
      rebuild rename replace rebuilt ⟨id, op, done, ts ++ todo⟩ parents =
        copyTrees rename replace rebuilt ts >>= fun (us, rebuilt) =>
          rebuild rename replace rebuilt ⟨id, op, done ++ us.toArray, todo⟩ parents := by
  refine induction_list ?leaf ?node ?nil ?cons
  case leaf =>
    intro x rebuilt id op done todo parents
    rw [rebuild, copyTree]
    simp [Frame.push]
  case node =>
    intro id' op' sources ih rebuilt id op done todo parents
    rw [rebuild, copyTree]
    cases hknown : rebuilt[id']? with
    | some u => simp only [hknown, Frame.push, pure_bind]
    | none =>
      have h := ih rebuilt id' op' #[] [] (⟨id, op, done, todo⟩ :: parents)
      rw [List.append_nil] at h
      simp only [hknown, h, bind_assoc]
      refine bind_congr fun r => ?_
      rw [rebuild]
      simp [Frame.push]
  case nil =>
    intro rebuilt id op done todo parents
    simp [copyTrees]
  case cons =>
    intro t ts iht ihts rebuilt id op done todo parents
    rw [List.cons_append, iht, copyTrees]
    have hpush : ∀ u (us : List (OpTree β)),
        done.push u ++ us.toArray = done ++ (u :: us).toArray := fun u us => by simp
    simp only [ihts, hpush, bind_assoc, pure_bind]

/-- The loop over frames copies a tree by recursion. -/
theorem mapLeaves_eq_copy (t : OpTree α) :
    t.mapLeaves rename replace = Prod.fst <$> copyTree rename replace {} t := by
  cases t with
  | leaf x => simp [mapLeaves, copyTree]
  | node id op sources =>
    have h := (rebuild_eq_copy rename replace).2 sources {} id op #[] [] []
    rw [List.append_nil] at h
    rw [mapLeaves, h, copyTree]
    simp only [Std.HashMap.getElem?_empty, map_bind]
    refine bind_congr fun r => ?_
    rw [rebuild]
    simp

end Recursion

/-! ## What is finished -/

/-- The nodes that are finished, by the identities that they are copies of. -/
abbrev Finished (β : Type) := Std.HashMap Nat (OpTree β)

/-- A node was copied under another identity. -/
def Finished.Renames (finished : Finished β) (id id' : Nat) : Prop :=
  ∃ op us, finished[id]? = some (node id' op us)

/-- A tree with the finished nodes in the places of the nodes that they are copies of. -/
inductive Finished.Shows (finished : Finished β) : OpTree α → OpTree β → Prop
  | leaf (x : α) (y : β) : Shows finished (leaf x) (leaf y)
  | node {id id' : Nat} {op : Op} {ts : List (OpTree α)} {us : List (OpTree β)} :
      finished[id]? = some (node id' op us) → List.Forall₂ (Shows finished) ts us →
        Shows finished (node id op ts) (node id' op us)

/-- Nothing is lost from the nodes that are finished. -/
def Finished.Keeps (finished finished' : Finished β) : Prop :=
  ∀ (i : Nat) (u : OpTree β), finished[i]? = some u → finished'[i]? = some u

theorem Finished.Shows.mono {finished finished' : Finished β} (h : finished.Keeps finished')
    {t : OpTree α} {u : OpTree β} (hu : finished.Shows t u) : finished'.Shows t u := by
  induction t using OpTree.induction generalizing u with
  | leaf x =>
    cases hu
    exact .leaf x _
  | node id op sources ih =>
    rcases hu with _ | ⟨hid, hsources⟩
    exact .node (h _ _ hid) (forall₂_imp_mem hsources fun t ht u hu => ih t ht hu)

/-- What is finished while a tree is copied: copies of its nodes, under identities of their own that
are less than the next one. -/
structure Finished.Sound (root : OpTree α) (finished : Finished β) (next : Nat) : Prop where
  shows : ∀ (i : Nat) (u : OpTree β), finished[i]? = some u →
    ∃ op ts, Subtree (node i op ts) root ∧ finished.Shows (node i op ts) u
  old : ∀ i j, finished.Renames i j → j < next
  distinct : ∀ i i' j, finished.Renames i j → finished.Renames i' j → i = i'

namespace Finished.Sound

variable {root : OpTree α} {finished : Finished β} {next : Nat}

theorem empty (root : OpTree α) (next : Nat) : Sound root (∅ : Finished β) next where
  shows i u h := by simp at h
  old i j h := by
    obtain ⟨op, us, h⟩ := h
    simp at h
  distinct i i' j h := by
    obtain ⟨op, us, h⟩ := h
    simp at h

/-- What is finished under an identity is a node. -/
theorem exists_node (h : Sound root finished next) {i : Nat} {u : OpTree β}
    (hu : finished[i]? = some u) : ∃ j op us, u = node j op us := by
  obtain ⟨op, ts, -, hshows⟩ := h.shows i u hu
  cases hshows with
  | @node _ j _ _ us => exact ⟨j, op, us, rfl⟩

/-- A node is shown by what is finished under its identity. -/
theorem known (hw : root.WellShared) (h : Sound root finished next) {i : Nat} {op : Op}
    {ts : List (OpTree α)} (ht : Subtree (node i op ts) root) {u : OpTree β}
    (hu : finished[i]? = some u) : finished.Shows (node i op ts) u := by
  obtain ⟨op', ts', ht', hshows⟩ := h.shows i u hu
  obtain ⟨rfl, rfl⟩ := hw _ _ _ _ _ ht ht'
  exact hshows

end Finished.Sound

theorem keeps_insert {finished : Finished β} {i : Nat} (h : i ∉ finished) (u : OpTree β) :
    finished.Keeps (finished.insert i u) := by
  intro i' u' hu'
  have hne : ¬ (i == i') = true := by
    rintro hi
    obtain rfl := eq_of_beq hi
    rw [Std.HashMap.getElem?_eq_none h] at hu'
    cases hu'
  rw [Std.HashMap.getElem?_insert, if_neg hne]
  exact hu'

/-- The identities of the finished nodes and of one more. -/
theorem renames_insert {finished : Finished β} {i next : Nat} {op : Op} {us : List (OpTree β)}
    {i' j : Nat} (h : Finished.Renames (finished.insert i (node next op us)) i' j) :
    (i' = i ∧ j = next) ∨ finished.Renames i' j := by
  obtain ⟨op', us', h⟩ := h
  rw [Std.HashMap.getElem?_insert] at h
  split at h
  · rename_i hi
    cases h
    exact .inl ⟨(eq_of_beq hi).symm, rfl⟩
  · exact .inr ⟨op', us', h⟩

/-- A node whose sources are shown is finished. -/
theorem Finished.Sound.insert {root : OpTree α} {finished : Finished β} {i next : Nat} {op : Op}
    {ts : List (OpTree α)} {us : List (OpTree β)} (h : finished.Sound root next)
    (hnew : i ∉ finished) (ht : Subtree (node i op ts) root)
    (hus : List.Forall₂ finished.Shows ts us) :
    Finished.Sound root (finished.insert i (node next op us)) (next + 1) where
  shows i' u hu := by
    have hkeeps := keeps_insert hnew (node next op us)
    rw [Std.HashMap.getElem?_insert] at hu
    split at hu
    · rename_i hi
      cases hu
      obtain rfl := eq_of_beq hi
      refine ⟨op, ts, ht, .node (by simp) (hus.imp fun _ _ h => h.mono hkeeps)⟩
    · obtain ⟨op', ts', ht', hshows⟩ := h.shows i' u hu
      exact ⟨op', ts', ht', hshows.mono hkeeps⟩
  old i' j hj := by
    rcases renames_insert hj with ⟨-, rfl⟩ | hj
    · exact Nat.lt_succ_self _
    · exact Nat.lt_succ_of_lt (h.old i' j hj)
  distinct i' i'' j hj hj' := by
    rcases renames_insert hj with ⟨rfl, rfl⟩ | hold
    · rcases renames_insert hj' with ⟨rfl, -⟩ | hold'
      · rfl
      · exact absurd (h.old _ _ hold') (Nat.lt_irrefl _)
    · rcases renames_insert hj' with ⟨rfl, rfl⟩ | hold'
      · exact absurd (h.old _ _ hold) (Nat.lt_irrefl _)
      · exact h.distinct _ _ _ hold hold'

/-! ## One copy after another -/

/-- The nodes of a tree that are finished are those that were met. -/
def Tracks (met : List Nat) (finished : Finished β) (t : OpTree α) : Prop :=
  ∀ id op sources, Subtree (node id op sources) t → (id ∈ finished ↔ id ∈ met)

/-- What the copies `us` of some trees are that are made behind the nodes met, with `ys` for their
leaves: they are shown by what is finished in the end, and their own outlines, behind identities
that are not those of the new nodes, have the leaves `ys`. -/
structure Copied (root : OpTree α) (met : List Nat) (finished : Finished β) (next : Nat)
    (ts : List (OpTree α)) (ys : List β) (us : List (OpTree β)) (finished' : Finished β)
    (next' : Nat) : Prop where
  keeps : finished.Keeps finished'
  mem : ∀ i, i ∈ finished' ↔ i ∈ finished ∨ i ∈ (outlinesFrom met ts).flatMap Outline.ids
  sound : finished'.Sound root next'
  shows : List.Forall₂ finished'.Shows ts us
  outlines : ∀ met' : List Nat, (∀ i j, finished.Renames i j → j ∈ met') →
    (∀ j ∈ met', j < next ∨ next' ≤ j) →
    (outlinesFrom met' us).flatMap Outline.leaves = ys ∧
      (∀ j ∈ (outlinesFrom met' us).flatMap Outline.ids, next ≤ j ∧ j < next') ∧
      ∀ i j, finished'.Renames i j → j ∈ met' ++ (outlinesFrom met' us).flatMap Outline.ids

namespace Copied

variable {root : OpTree α} {met : List Nat} {finished finished' finished'' : Finished β}
  {next next' next'' : Nat}

theorem keeps_refl : finished.Keeps finished := fun _ _ h => h

theorem nil (h : finished.Sound root next) :
    Copied root met finished next [] [] [] finished next where
  keeps := keeps_refl
  mem i := by simp [outlinesFrom]
  sound := h
  shows := .nil
  outlines met' hmet' _ := by
    simp only [outlinesFrom, List.flatMap_nil, List.append_nil]
    exact ⟨trivial, by simp, hmet'⟩

theorem cons {t : OpTree α} {ts : List (OpTree α)} {u : OpTree β} {us : List (OpTree β)}
    {ys ys' : List β} (h : Copied root met finished next [t] ys [u] finished' next')
    (h' : Copied root (met ++ (outlineFrom met t).ids) finished' next' ts ys' us finished'' next'')
    (hle : next ≤ next') (hle' : next' ≤ next'') :
    Copied root met finished next (t :: ts) (ys ++ ys') (u :: us) finished'' next'' where
  keeps i v hv := h'.keeps i v (h.keeps i v hv)
  mem i := by
    rw [h'.mem, h.mem]
    simp [outlinesFrom, or_assoc]
  sound := h'.sound
  shows := by
    rcases h.shows with _ | ⟨hu, -⟩
    exact .cons (hu.mono h'.keeps) h'.shows
  outlines met' hmet' hold := by
    obtain ⟨hys, hids, hrenames⟩ := h.outlines met' hmet' fun j hj => by
      have := hold j hj
      omega
    rw [outlinesFrom, outlinesFrom, List.flatMap_singleton] at hys hids hrenames
    obtain ⟨hys', hids', hrenames'⟩ := h'.outlines (met' ++ (outlineFrom met' u).ids) hrenames
      fun j hj => by
        rcases List.mem_append.mp hj with hj | hj
        · have := hold j hj
          omega
        · have := hids j hj
          omega
    refine ⟨by simp [outlinesFrom, hys, hys'], fun j hj => ?_, fun i j hj => ?_⟩
    · rw [outlinesFrom, List.flatMap_cons, List.mem_append] at hj
      rcases hj with hj | hj
      · have := hids j hj
        omega
      · have := hids' j hj
        omega
    · rw [outlinesFrom, List.flatMap_cons, ← List.append_assoc]
      exact hrenames' i j hj

theorem leaf (h : finished.Sound root next) (x : α) (y : β) :
    Copied root met finished next [OpTree.leaf x] [y] [OpTree.leaf y] finished next where
  keeps := keeps_refl
  mem i := by simp [outlinesFrom, outlineFrom]
  sound := h
  shows := .cons (.leaf x y) .nil
  outlines met' hmet' _ := by
    simp only [outlinesFrom, outlineFrom, List.flatMap_cons, List.flatMap_nil, Outline.leaves,
      Outline.ids_leaf, List.append_nil]
    exact ⟨trivial, by simp, hmet'⟩

/-- A node that is finished is not copied again. -/
theorem known (hw : root.WellShared) (h : finished.Sound root next) {id k : Nat} {op : Op}
    {sources : List (OpTree α)} (ht : Subtree (node id op sources) root)
    (hk : met.idxOf? id = some k) {u : OpTree β} (hu : finished[id]? = some u) :
    Copied root met finished next [node id op sources] [] [u] finished next where
  keeps := keeps_refl
  mem i := by simp [outlinesFrom, outlineFrom_again hk]
  sound := h
  shows := .cons (h.known hw ht hu) .nil
  outlines met' hmet' _ := by
    obtain ⟨j, op', us, rfl⟩ := h.exists_node hu
    obtain ⟨k', hk'⟩ : ∃ k', met'.idxOf? j = some k' :=
      Option.ne_none_iff_exists'.mp fun hn =>
        List.idxOf?_eq_none_iff.mp hn (hmet' id j ⟨op', us, hu⟩)
    simp only [outlinesFrom, outlineFrom_again hk', List.flatMap_cons, List.flatMap_nil,
      Outline.leaves, Outline.ids_again, List.append_nil]
    exact ⟨trivial, by simp, hmet'⟩

/-- A node is finished after its sources, under the next identity. -/
theorem node {id : Nat} {op : Op} {sources : List (OpTree α)} {us : List (OpTree β)} {ys : List β}
    (ht : Subtree (node id op sources) root) (hmet : id ∉ met) (hnew : id ∉ finished')
    (h : Copied root (met ++ [id]) finished next sources ys us finished' next')
    (hle : next ≤ next') :
    Copied root met finished next [OpTree.node id op sources] ys [OpTree.node next' op us]
      (finished'.insert id (.node next' op us)) (next' + 1) where
  keeps i v hv := keeps_insert hnew _ i v (h.keeps i v hv)
  mem i := by
    rw [Std.HashMap.mem_insert, h.mem]
    simp only [outlinesFrom, outlineFrom_first hmet, List.flatMap_cons, List.flatMap_nil,
      List.append_nil, Outline.ids_first, List.mem_cons, beq_iff_eq]
    tauto
  sound := h.sound.insert hnew ht h.shows
  shows := .cons (.node (by simp) (h.shows.imp fun _ _ hs => hs.mono (keeps_insert hnew _))) .nil
  outlines met' hmet' hold := by
    have hfresh : next' ∉ met' := fun hj => by
      have := hold next' hj
      omega
    obtain ⟨hys, hids, hrenames⟩ := h.outlines (met' ++ [next'])
      (fun i j hj => List.mem_append_left _ (hmet' i j hj)) fun j hj => by
        rcases List.mem_append.mp hj with hj | hj
        · have := hold j hj
          omega
        · obtain rfl := List.mem_singleton.mp hj
          exact .inr (Nat.le_refl _)
    simp only [outlinesFrom, outlineFrom_first hfresh, List.flatMap_cons, List.flatMap_nil,
      List.append_nil, Outline.ids_first, Outline.leaves]
    refine ⟨hys, fun j hj => ?_, fun i j hj => ?_⟩
    · rcases List.mem_cons.mp hj with rfl | hj
      · omega
      · have := hids j hj
        omega
    · rcases renames_insert hj with ⟨-, rfl⟩ | hj
      · exact List.mem_append_right _ List.mem_cons_self
      · simpa using hrenames i j hj

end Copied

/-! ## Functions with a state that may fail -/

section Functions

/-- A computation that changes a state, and has a value or an error in the end. -/
abbrev Fallible (ε σ : Type) := ExceptT ε (StateM σ)

variable {ε σ τ : Type}

/-- How a computation ends from a state. -/
def Fallible.result (x : Fallible ε σ α) (s : σ) : Except ε α × σ := x.run.run s

theorem Fallible.result_bind_ok {x : Fallible ε σ α} {g : α → Fallible ε σ β} {s s' : σ} {a : α}
    (h : x.result s = (.ok a, s')) : (x >>= g).result s = (g a).result s' := by
  unfold result at h ⊢
  rw [ExceptT.run_bind, StateT.run_bind, h]
  rfl

theorem Fallible.result_bind_error {x : Fallible ε σ α} {g : α → Fallible ε σ β} {s s' : σ} {e : ε}
    (h : x.result s = (.error e, s')) : (x >>= g).result s = (.error e, s') := by
  unfold result at h ⊢
  rw [ExceptT.run_bind, StateT.run_bind, h]
  rfl

/-- A computation calls a function on the members of a list and nothing else: it ends with the error
that ends the calls, or with what the values of all calls say. -/
def Calls (f : α → Fallible ε σ β) (xs : List α) (s : σ) (x : Fallible ε σ γ)
    (post : List β → γ → Prop) : Prop :=
  (∀ e s', (xs.mapM f).result s = (.error e, s') → x.result s = (.error e, s')) ∧
    ∀ ys s', (xs.mapM f).result s = (.ok ys, s') → ∃ c, x.result s = (.ok c, s') ∧ post ys c

namespace Calls

variable {δ : Type} {f : α → Fallible ε σ β} {xs xs' : List α} {s : σ} {x : Fallible ε σ γ}
  {P : List β → γ → Prop} {Q : List β → δ → Prop}

theorem pure {c : γ} (h : P [] c) : Calls f [] s (Pure.pure c) P := by
  refine ⟨fun e s' he => ?_, fun ys s' he => ?_⟩
  · cases he
  · cases he
    exact ⟨c, rfl, h⟩

theorem bind {g : γ → Fallible ε σ δ} (h : Calls f xs s x P)
    (hg : ∀ ys c s', P ys c → Calls f xs' s' (g c) fun ys' d => Q (ys ++ ys') d) :
    Calls f (xs ++ xs') s (x >>= g) Q := by
  rw [Calls, List.mapM_append]
  rcases hfirst : (xs.mapM f).result s with ⟨e | ys, s₁⟩
  · rw [Fallible.result_bind_error hfirst]
    refine ⟨fun e' s' he => ?_, fun ys s' he => ?_⟩
    · cases he
      exact Fallible.result_bind_error (h.1 e s₁ hfirst)
    · cases he
  · obtain ⟨c, hc, hP⟩ := h.2 ys s₁ hfirst
    obtain ⟨herror, hok⟩ := hg ys c s₁ hP
    rw [Fallible.result_bind_ok hfirst, Fallible.result_bind_ok hc]
    rcases hsecond : (xs'.mapM f).result s₁ with ⟨e | ys', s₂⟩
    · rw [Fallible.result_bind_error hsecond]
      refine ⟨fun e' s' he => ?_, fun ys s' he => ?_⟩
      · cases he
        exact herror e s₂ hsecond
      · cases he
    · rw [Fallible.result_bind_ok hsecond]
      refine ⟨fun e' s' he => ?_, fun zs s' he => ?_⟩
      · cases he
      · cases he
        exact hok ys' s₂ hsecond

theorem bind_pure {g : γ → δ} (h : Calls f xs s x P) (hg : ∀ ys c, P ys c → Q ys (g c)) :
    Calls f xs s (x >>= fun c => Pure.pure (g c)) Q := by
  rw [← List.append_nil xs]
  refine h.bind fun ys c s' hP => pure ?_
  rw [List.append_nil]
  exact hg ys c hP

/-- One call. -/
theorem call (x : α) (s : σ) : Calls f [x] s (f x) fun ys y => ys = [y] := by
  rw [Calls, List.mapM_cons]
  rcases hx : (f x).result s with ⟨e | y, s₁⟩
  · rw [Fallible.result_bind_error hx]
    refine ⟨fun e' s' he => ?_, fun ys s' he => ?_⟩
    · cases he
      rfl
    · cases he
  · rw [Fallible.result_bind_ok hx]
    refine ⟨fun e' s' he => ?_, fun ys s' he => ?_⟩
    · cases he
    · cases he
      exact ⟨y, rfl, rfl⟩

/-- A computation that ends with a value has the values of all calls. -/
theorem of_ok (h : Calls f xs s x P) {c : γ} {s' : σ} (hx : x.result s = (.ok c, s')) :
    ∃ ys, (xs.mapM f).result s = (.ok ys, s') ∧ P ys c := by
  rcases hcalls : (xs.mapM f).result s with ⟨e | ys, s₁⟩
  · cases (h.1 e s₁ hcalls).symm.trans hx
  · obtain ⟨d, hd, hP⟩ := h.2 ys s₁ hcalls
    cases hd.symm.trans hx
    exact ⟨ys, rfl, hP⟩

end Calls

/-- The number of the next identity, which is then no longer the next. -/
def fresh {m : Type → Type} [Monad m] : StateT Nat m Nat := do
  let next ← get
  set (next + 1)
  return next

/-- Replace the leaves of a tree by the values of a function. New identities are counted. -/
def copy (f : α → Fallible ε σ β) (t : OpTree α) : StateT Nat (Fallible ε σ) (OpTree β) :=
  t.mapLeaves (fun _ => fresh) fun x => StateT.lift (f x)

variable (f : α → Fallible ε σ β)

/-- The same by recursion. -/
def copyFrom (finished : Finished β) (next : Nat) (t : OpTree α) :
    Fallible ε σ ((OpTree β × Finished β) × Nat) :=
  (copyTree (fun _ => fresh) (fun x => StateT.lift (f x)) finished t).run next

/-- The trees of a list. -/
def copiesFrom (finished : Finished β) (next : Nat) (ts : List (OpTree α)) :
    Fallible ε σ ((List (OpTree β) × Finished β) × Nat) :=
  (copyTrees (fun _ => fresh) (fun x => StateT.lift (f x)) finished ts).run next

theorem copyFrom_leaf (finished : Finished β) (next : Nat) (x : α) :
    copyFrom f finished next (.leaf x) =
      f x >>= fun y => pure ((.leaf y, finished), next) := by
  simp [copyFrom, copyTree]

theorem copyFrom_known {finished : Finished β} {id : Nat} {u : OpTree β}
    (h : finished[id]? = some u) (next : Nat) (op : Op) (sources : List (OpTree α)) :
    copyFrom f finished next (.node id op sources) = pure ((u, finished), next) := by
  rw [copyFrom, copyTree, h]
  rfl

theorem copyFrom_node {finished : Finished β} {id : Nat} (h : id ∉ finished) (next : Nat) (op : Op)
    (sources : List (OpTree α)) :
    copyFrom f finished next (.node id op sources) =
      copiesFrom f finished next sources >>= fun ((us, finished), next) =>
        pure ((.node next op us, finished.insert id (.node next op us)), next + 1) := by
  rw [copyFrom, copyTree, Std.HashMap.getElem?_eq_none h]
  simp [copiesFrom, fresh]

theorem copiesFrom_nil (finished : Finished β) (next : Nat) :
    copiesFrom f finished next [] = pure (([], finished), next) := by
  rw [copiesFrom, copyTrees]
  rfl

theorem copiesFrom_cons (finished : Finished β) (next : Nat) (t : OpTree α)
    (ts : List (OpTree α)) :
    copiesFrom f finished next (t :: ts) =
      copyFrom f finished next t >>= fun ((u, finished), next) =>
        copiesFrom f finished next ts >>= fun ((us, finished), next) =>
          pure ((u :: us, finished), next) := by
  simp [copiesFrom, copyFrom, copyTrees]

/-- Copying a tree behind the nodes met calls the function on the leaves of the outline. -/
theorem copyFrom_calls {root : OpTree α} (hw : root.WellShared) :
    (∀ (t : OpTree α) met finished next s, Subtree t root → met.Nodup → Tracks met finished t →
      finished.Sound root next →
      Calls f (outlineFrom met t).leaves s (copyFrom f finished next t)
        fun ys ((u, finished'), next') => next' = next + (outlineFrom met t).ids.length ∧
          Copied root met finished next [t] ys [u] finished' next') ∧
    ∀ (ts : List (OpTree α)) met finished next s, (∀ t ∈ ts, Subtree t root) → met.Nodup →
      (∀ t ∈ ts, Tracks met finished t) → finished.Sound root next →
      Calls f ((outlinesFrom met ts).flatMap Outline.leaves) s (copiesFrom f finished next ts)
        fun ys ((us, finished'), next') =>
          next' = next + ((outlinesFrom met ts).flatMap Outline.ids).length ∧
          Copied root met finished next ts ys us finished' next' := by
  refine induction_list ?leaf ?node ?nil ?cons
  case leaf =>
    intro x met finished next s _ _ _ hsound
    rw [copyFrom_leaf, outlineFrom, Outline.leaves, Outline.ids_leaf]
    refine (Calls.call x s).bind_pure ?_
    rintro _ y rfl
    exact ⟨rfl, .leaf hsound x y⟩
  case node =>
    intro id op sources ih met finished next s ht hmet htracks hsound
    rcases idxOf?_cases met id with ⟨k, hk, -, hmem⟩ | hnew
    · obtain ⟨u, hu⟩ : ∃ u, finished[id]? = some u := by
        have hid := (htracks id op sources (.refl _)).mpr hmem
        exact ⟨finished[id], Std.HashMap.getElem?_eq_some_getElem hid⟩
      rw [copyFrom_known f hu, outlineFrom_again hk, Outline.leaves, Outline.ids_again]
      exact .pure ⟨rfl, .known hw hsound ht hk hu⟩
    · have hnot : id ∉ finished := fun hid => hnew ((htracks id op sources (.refl _)).mp hid)
      have hmet' : (met ++ [id]).Nodup := List.concat_eq_append ▸ hmet.concat hnew
      -- The node itself is not among its sources, so it does not matter that it is not finished.
      have htracks' : ∀ t ∈ sources, Tracks (met ++ [id]) finished t := by
        intro t hsource id' op' sources' hs
        have hne : id' ≠ id := by
          rintro rfl
          have hroot := (hs.trans (subtree_source hsource)).trans ht
          obtain ⟨rfl, rfl⟩ := hw _ _ _ _ _ hroot ht
          exact not_subtree_source hsource hs
        rw [htracks id' op' sources' (hs.trans (subtree_source hsource))]
        simp [hne]
      rw [copyFrom_node f hnot, outlineFrom_first hnew, Outline.leaves]
      refine (ih (met ++ [id]) finished next s (fun t hs => (subtree_source hs).trans ht) hmet'
        htracks' hsound).bind_pure ?_
      rintro ys ⟨⟨us, finished'⟩, next'⟩ ⟨hnext, hcopied⟩
      have hnot' : id ∉ finished' := by
        have hnodup := nodup_outlineFrom.2 sources (met ++ [id]) hmet'
        rw [hcopied.mem]
        rintro (hid | hid)
        · exact hnot hid
        · exact (List.nodup_append.mp hnodup).2.2 id (by simp) id hid rfl
      refine ⟨?_, .node ht hnew hnot' hcopied (by omega)⟩
      rw [Outline.ids_first, List.length_cons]
      omega
  case nil =>
    intro met finished next s _ _ _ hsound
    rw [copiesFrom_nil, outlinesFrom]
    exact .pure ⟨rfl, .nil hsound⟩
  case cons =>
    intro t ts iht ihts met finished next s hsub hmet htracks hsound
    rw [copiesFrom_cons, outlinesFrom, List.flatMap_cons, List.flatMap_cons]
    refine (iht met finished next s (hsub t List.mem_cons_self) hmet
      (htracks t List.mem_cons_self) hsound).bind ?_
    rintro ys ⟨⟨u, finished'⟩, next'⟩ s' ⟨hnext, hcopied⟩
    have htracks' : ∀ t' ∈ ts, Tracks (met ++ (outlineFrom met t).ids) finished' t' := by
      intro t' ht' id op sources hs
      rw [hcopied.mem, htracks t' (List.mem_cons_of_mem _ ht') id op sources hs]
      simp [outlinesFrom]
    refine (ihts _ finished' next' s' (fun t' ht' => hsub t' (List.mem_cons_of_mem _ ht'))
      (nodup_outlineFrom.1 t met hmet) htracks' hcopied.sound).bind_pure ?_
    rintro ys' ⟨⟨us, finished''⟩, next''⟩ ⟨hnext', hcopied'⟩
    refine ⟨?_, hcopied.cons hcopied' (by omega) (by omega)⟩
    rw [List.length_append]
    omega

/-! ## Copies -/

theorem Finished.Shows.matches {finished : Finished β} {t : OpTree α} {u : OpTree β}
    (h : finished.Shows t u) : Matches finished.Renames (fun _ _ => True) t u := by
  induction t using OpTree.induction generalizing u with
  | leaf x =>
    cases h
    exact .leaf trivial
  | node id op sources ih =>
    rcases h with _ | ⟨hid, hsources⟩
    exact .node ⟨op, _, hid⟩ (forall₂_imp_mem hsources fun t ht u hu => ih t ht hu)

/-- Every node of a tree that is shown is finished. -/
theorem Finished.Shows.exists_finished {finished : Finished β} {t : OpTree α} {u : OpTree β}
    (h : finished.Shows t u) {j : Nat} {op : Op} {us : List (OpTree β)}
    (hs : Subtree (OpTree.node j op us) u) :
    ∃ i : Nat, finished[i]? = some (OpTree.node j op us) := by
  induction t using OpTree.induction generalizing u with
  | leaf x =>
    cases h
    cases hs
  | node id op' sources ih =>
    rcases h with _ | ⟨hid, hsources⟩
    rcases subtree_node.mp hs with heq | ⟨u, hu, hs⟩
    · rw [heq]
      exact ⟨id, hid⟩
    · obtain ⟨t, ht, htu⟩ := exists_of_forall₂_right hsources hu
      exact ih t ht htu hs

theorem Finished.Sound.biUnique {root : OpTree α} {finished : Finished β} {next : Nat}
    (h : finished.Sound root next) : Relator.BiUnique finished.Renames := by
  refine ⟨fun i i' j hi hi' => h.distinct i i' j hi hi', ?_⟩
  rintro i j j' ⟨op, us, hj⟩ ⟨op', us', hj'⟩
  cases hj.symm.trans hj'
  rfl

theorem Finished.Sound.wellShared {root : OpTree α} {finished : Finished β} {next : Nat}
    (h : finished.Sound root next) {t : OpTree α} {u : OpTree β} (hu : finished.Shows t u) :
    u.WellShared := by
  intro j op us op' us' hs hs'
  obtain ⟨i, hi⟩ := hu.exists_finished hs
  obtain ⟨i', hi'⟩ := hu.exists_finished hs'
  obtain rfl := h.distinct i i' j ⟨op, us, hi⟩ ⟨op', us', hi'⟩
  cases hi.symm.trans hi'
  exact ⟨rfl, rfl⟩

theorem run_copy (t : OpTree α) (next : Nat) :
    (t.copy f).run next =
      copyFrom f ∅ next t >>= fun r => pure (r.1.1, r.2) := by
  rw [copy, mapLeaves_eq_copy, StateT.run_map, ← bind_pure_comp]
  rfl

/-- Copying a tree calls the function on the leaves in their order, and gives a well shared tree
that matches and has the values for its leaves. -/
theorem copy_calls {t : OpTree α} (hw : t.WellShared) (next : Nat) (s : σ) :
    Calls f t.leaves s ((t.copy f).run next) fun ys (u, next') =>
      next' = next + t.nodes.length ∧ u.WellShared ∧ u.leaves = ys ∧
        Isomorphic (fun _ _ => True) t u := by
  rw [run_copy, leaves_eq_outline, nodes_eq_outline]
  have htracks : Tracks [] (∅ : Finished β) t := fun id op sources _ => by simp
  refine ((copyFrom_calls f hw).1 t [] ∅ next s (.refl t) List.nodup_nil htracks
    (.empty t next)).bind_pure ?_
  rintro ys ⟨⟨u, finished⟩, next'⟩ ⟨hnext, hcopied⟩
  rcases hcopied.shows with _ | ⟨hu, -⟩
  have hleaves := (hcopied.outlines [] (fun i j hj => by
    obtain ⟨op, us, hj⟩ := hj
    simp at hj) (by simp)).1
  refine ⟨?_, hcopied.sound.wellShared hu, ?_, _, hcopied.sound.biUnique, hu.matches⟩
  · rw [hnext, Outline.ids, List.length_map]
    rfl
  · rw [leaves_eq_outline, ← hleaves, outlinesFrom, outlinesFrom, List.flatMap_singleton]
    rfl

/-! ## One function after another -/

/-- A computation beside another state. -/
def Fallible.inFirst (x : Fallible ε σ α) : Fallible ε (σ × τ) α :=
  ExceptT.mk fun (s, r) => ((x.result s).1, ((x.result s).2, r))

def Fallible.inSecond (x : Fallible ε τ α) : Fallible ε (σ × τ) α :=
  ExceptT.mk fun (s, r) => ((x.result r).1, (s, (x.result r).2))

/-- One function, and then another with a state of its own. -/
def andThen (f : α → Fallible ε σ β) (g : β → Fallible ε τ γ) (x : α) : Fallible ε (σ × τ) γ :=
  (f x).inFirst >>= fun y => (g y).inSecond

theorem Fallible.result_bind_eq_ok {x : Fallible ε σ α} {k : α → Fallible ε σ β} {s s'' : σ}
    {b : β} : (x >>= k).result s = (.ok b, s'') ↔
      ∃ a s', x.result s = (.ok a, s') ∧ (k a).result s' = (.ok b, s'') := by
  rcases hx : x.result s with ⟨e | a, s₁⟩
  · rw [result_bind_error hx]
    simp
  · rw [result_bind_ok hx]
    simp

theorem Fallible.result_inFirst (x : Fallible ε σ α) (s : σ) (r : τ) :
    x.inFirst.result (s, r) = ((x.result s).1, ((x.result s).2, r)) := rfl

theorem Fallible.result_inSecond (x : Fallible ε τ α) (s : σ) (r : τ) :
    x.inSecond.result (s, r) = ((x.result r).1, (s, (x.result r).2)) := rfl

theorem result_andThen {g : β → Fallible ε τ γ} {x : α} {s s' : σ} {r r' : τ} {z : γ} :
    (andThen f g x).result (s, r) = (.ok z, (s', r')) ↔
      ∃ y, (f x).result s = (.ok y, s') ∧ (g y).result r = (.ok z, r') := by
  rw [andThen, Fallible.result_bind_eq_ok]
  constructor
  · rintro ⟨y, ⟨s₁, r₁⟩, hf, hg⟩
    rw [Fallible.result_inFirst, Prod.mk.injEq, Prod.mk.injEq] at hf
    obtain ⟨hy, rfl, rfl⟩ := hf
    rw [Fallible.result_inSecond, Prod.mk.injEq, Prod.mk.injEq] at hg
    obtain ⟨hz, rfl, rfl⟩ := hg
    exact ⟨y, Prod.ext hy rfl, Prod.ext hz rfl⟩
  · rintro ⟨y, hf, hg⟩
    refine ⟨y, (s', r), ?_, ?_⟩
    · rw [Fallible.result_inFirst, hf]
    · rw [Fallible.result_inSecond, hg]

theorem result_mapM_cons {x : α} {xs : List α} {s s'' : σ} {zs : List β} :
    ((x :: xs).mapM f).result s = (.ok zs, s'') ↔
      ∃ y ys s', zs = y :: ys ∧ (f x).result s = (.ok y, s') ∧
        (xs.mapM f).result s' = (.ok ys, s'') := by
  rw [List.mapM_cons, Fallible.result_bind_eq_ok]
  constructor
  · rintro ⟨y, s', hy, h⟩
    obtain ⟨ys, s₁, hys, h⟩ := Fallible.result_bind_eq_ok.mp h
    cases h
    exact ⟨y, ys, s', rfl, hy, hys⟩
  · rintro ⟨y, ys, s', rfl, hy, hys⟩
    exact ⟨y, s', hy, Fallible.result_bind_ok hys⟩

/-- The calls of one function after another are those of the one, and those of the other for the
values. -/
theorem mapM_andThen {g : β → Fallible ε τ γ} {xs : List α} {s s' : σ} {r r' : τ} {zs : List γ} :
    (xs.mapM (andThen f g)).result (s, r) = (.ok zs, (s', r')) ↔
      ∃ ys, (xs.mapM f).result s = (.ok ys, s') ∧ (ys.mapM g).result r = (.ok zs, r') := by
  induction xs generalizing s r zs with
  | nil =>
    constructor
    · intro h
      cases h
      exact ⟨[], rfl, rfl⟩
    · rintro ⟨ys, hys, hzs⟩
      cases hys
      cases hzs
      rfl
  | cons x xs ih =>
    rw [result_mapM_cons]
    constructor
    · rintro ⟨z, zs, ⟨s₁, r₁⟩, rfl, hz, hzs⟩
      obtain ⟨y, hy, hz⟩ := (result_andThen f).mp hz
      obtain ⟨ys, hys, hzs⟩ := ih.mp hzs
      exact ⟨y :: ys, (result_mapM_cons f).mpr ⟨y, ys, s₁, rfl, hy, hys⟩,
        (result_mapM_cons g).mpr ⟨z, zs, r₁, rfl, hz, hzs⟩⟩
    · rintro ⟨_, hys, hzs⟩
      obtain ⟨y, ys, s₁, rfl, hy, hys⟩ := (result_mapM_cons f).mp hys
      obtain ⟨z, zs, r₁, rfl, hz, hzs⟩ := (result_mapM_cons g).mp hzs
      exact ⟨z, zs, (s₁, r₁), rfl, (result_andThen f).mpr ⟨y, hy, hz⟩, ih.mpr ⟨ys, hys, hzs⟩⟩

end Functions

/-- Trees with the same leaves that are isomorphic to one tree are isomorphic to each other. -/
theorem isomorphic_of_leaves {R S : α → β → Prop} {t : OpTree α} {v w : OpTree β}
    (hv : v.WellShared) (hw : w.WellShared) (htv : Isomorphic R t v) (htw : Isomorphic S t w)
    (hleaves : v.leaves = w.leaves) : Isomorphic Eq v w := by
  refine (htv.flip.comp htw).of_leaves hv hw ?_
  rw [hleaves, List.forall₂_eq_eq_eq]

/-- Copying a well shared tree calls the function on the leaves in their order, up to the first
error, which is then the outcome. With values for all leaves it gives a well shared tree that has
these values for its leaves. The distinct nodes of the two trees are paired one to one, in their
order, and paired nodes have the same operation, and sources that are paired or related leaves.

So the copy without a change is isomorphic to the tree, and a copy of a copy is isomorphic to the
copy by both functions in one. -/
theorem copy_faithful {ε σ τ : Type} {t : OpTree α} (hw : t.WellShared) (f : α → Fallible ε σ β)
    (g : β → Fallible ε τ γ) (next : Nat) (s : σ) (r : τ) :
    (∀ e s', (t.leaves.mapM f).result s = (.error e, s') →
      ((t.copy f).run next).result s = (.error e, s')) ∧
    (∀ ys s', (t.leaves.mapM f).result s = (.ok ys, s') →
      ∃ u, ((t.copy f).run next).result s = (.ok (u, next + t.nodes.length), s') ∧
        u.WellShared ∧ u.leaves = ys ∧
        (t.nodes.map (·.id)).Nodup ∧ (u.nodes.map (·.id)).Nodup ∧
        ∃ E, Relator.BiUnique E ∧ ∀ R : α → β → Prop, List.Forall₂ R t.leaves ys →
          Matches E R t u ∧
          List.Forall₂ (fun n n' => E n.id n'.id ∧ n.op = n'.op ∧
            List.Forall₂ (Matches E R) n.sources n'.sources) t.nodes u.nodes) ∧
    (∃ u, ((t.copy fun x => (pure x : Fallible ε σ α)).run next).result s =
        (.ok (u, next + t.nodes.length), s) ∧ Isomorphic Eq t u) ∧
    ∀ s' r' k,
      (∀ w k', ((t.copy (andThen f g)).run k).result (s, r) = (.ok (w, k'), (s', r')) →
        ∃ u v n n', ((t.copy f).run next).result s = (.ok (u, n), s') ∧
          ((u.copy g).run n).result r = (.ok (v, n'), r') ∧ Isomorphic Eq v w) ∧
      ∀ u v n n', ((t.copy f).run next).result s = (.ok (u, n), s') →
        ((u.copy g).run n).result r = (.ok (v, n'), r') →
        ∃ w, ((t.copy (andThen f g)).run k).result (s, r) =
          (.ok (w, k + t.nodes.length), (s', r')) ∧ Isomorphic Eq v w := by
  have hcopy := copy_calls f hw next s
  refine ⟨hcopy.1, fun ys s' hys => ?values, ?identity,
    fun s' r' k => ⟨fun w k' hcopied => ?apart, fun u v n n' hu hv => ?together⟩⟩
  case values =>
    obtain ⟨⟨u, n⟩, hu, rfl, hshared, hleaves, E, hE, hmatch⟩ := hcopy.2 ys s' hys
    refine ⟨u, hu, hshared, hleaves, t.nodup_ids, u.nodup_ids, E, hE, fun R hR => ?_⟩
    have hmatch := hmatch.of_leaves hE hw hshared (hleaves ▸ hR)
    exact ⟨hmatch, (hmatch.nodes hE hw hshared).imp fun n n' h => matches_tree.mp h⟩
  case identity =>
    have hcalls : (t.leaves.mapM fun x => (pure x : Fallible ε σ α)).result s =
        (.ok t.leaves, s) := by
      rw [List.mapM_pure, List.map_id']
      rfl
    obtain ⟨⟨u, n⟩, hu, rfl, hshared, hleaves, hiso⟩ := (copy_calls _ hw next s).2 _ _ hcalls
    refine ⟨u, hu, hiso.of_leaves hw hshared ?_⟩
    rw [hleaves, List.forall₂_eq_eq_eq]
  case apart =>
    obtain ⟨zs, hzs, hnext, hshared, hleaves, hiso⟩ := (copy_calls _ hw k (s, r)).of_ok hcopied
    obtain ⟨ys, hys, hzs⟩ := (mapM_andThen f).mp hzs
    obtain ⟨⟨u, n⟩, hu, -, hushared, huleaves, huiso⟩ := hcopy.2 ys s' hys
    obtain ⟨⟨v, n'⟩, hv, -, hvshared, hvleaves, hviso⟩ :=
      (copy_calls g hushared n r).2 zs r' (huleaves ▸ hzs)
    refine ⟨u, v, n, n', hu, hv, ?_⟩
    exact isomorphic_of_leaves hvshared hshared (huiso.comp hviso) hiso
      (hvleaves.trans hleaves.symm)
  case together =>
    obtain ⟨ys, hys, -, hushared, huleaves, huiso⟩ := hcopy.of_ok hu
    obtain ⟨zs, hzs, -, hvshared, hvleaves, hviso⟩ := (copy_calls g hushared n r).of_ok hv
    have hboth := (mapM_andThen f).mpr ⟨ys, hys, huleaves ▸ hzs⟩
    obtain ⟨⟨w, k'⟩, hw', rfl, hwshared, hwleaves, hwiso⟩ := (copy_calls _ hw k (s, r)).2 _ _ hboth
    refine ⟨w, hw', ?_⟩
    exact isomorphic_of_leaves hvshared hwshared (huiso.comp hviso) hwiso
      (hvleaves.trans hwleaves.symm)

/-- Double a text, and keep a list of the texts. -/
def doubled (x : String) : Fallible Unit (List String) String := do
  modify (· ++ [x])
  return x ++ x

theorem copy_faithful_productTwice :
    productTwice.WellShared ∧
      ∃ u, ((productTwice.copy doubled).run 7).result [] = (.ok (u, 10), ["a", "b"]) ∧
        u.leaves = ["aa", "bb"] ∧ u.nodes.length = 3 := by
  have hleaves : productTwice.leaves = ["a", "b"] := by cbv
  have hlength : productTwice.nodes.length = 3 := by cbv
  have hcalls : (productTwice.leaves.mapM doubled).result [] =
      (.ok ["aa", "bb"], ["a", "b"]) := by
    rw [hleaves]
    rfl
  obtain ⟨u, hu, -, hvalues, -, -, E, -, hpaired⟩ :=
    (copy_faithful wellShared_productTwice doubled doubled 7 [] []).2.1 _ _ hcalls
  rw [hlength] at hu
  refine ⟨wellShared_productTwice, u, hu, hvalues, ?_⟩
  have hnodes := (hpaired (fun _ _ => True) (by rw [hleaves]; simp)).2
  rw [← hnodes.length_eq, hlength]

end TensorLoom.OpTree
