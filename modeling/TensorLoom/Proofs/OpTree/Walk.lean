import TensorLoom.OpTree.Basic
import Std.Data.HashSet.Lemmas

/-!
# What a walk meets

A walk meets subtrees of the tree that it starts from and nothing else
(`OpTree.subtree_of_mem_leaves`, `OpTree.subtree_of_mem_nodes`). If nodes of one identity are the
same node, it meets all of them (`OpTree.mem_nodes`, `OpTree.mem_leaves`): a node that is met has
its sources met, or still on the list.
-/

namespace TensorLoom.OpTree

variable {α : Type}

/-- Induction over a tree, of which all sources of a node are smaller trees. -/
@[elab_as_elim]
theorem induction {motive : OpTree α → Prop} (leaf : ∀ x, motive (leaf x))
    (node : ∀ id op sources, (∀ t ∈ sources, motive t) → motive (node id op sources))
    (t : OpTree α) : motive t := by
  refine OpTree.rec (motive_1 := motive) (motive_2 := fun ts => ∀ t ∈ ts, motive t) leaf node
    ?nil ?cons t
  case nil =>
    intro s hs
    cases hs
  case cons =>
    intro t ts ht hts s hs
    rcases List.mem_cons.mp hs with rfl | hs
    · exact ht
    · exact hts s hs

theorem Subtree.trans {s t u : OpTree α} (h : Subtree s t) (h' : Subtree t u) : Subtree s u := by
  induction h' with
  | refl => exact h
  | source _ hm ih => exact .source ih hm

theorem subtree_source {t : OpTree α} {id : Nat} {op : Op} {sources : List (OpTree α)}
    (h : t ∈ sources) : Subtree t (node id op sources) := .source (.refl t) h

theorem sizeOf_le_of_subtree {s t : OpTree α} (h : Subtree s t) : sizeOf s ≤ sizeOf t := by
  induction h with
  | refl => exact Nat.le_refl _
  | source _ hm ih =>
    have := List.sizeOf_lt_of_mem hm
    rw [node.sizeOf_spec]
    omega

/-- A node is not part of its own sources. -/
theorem not_subtree_source {id : Nat} {op : Op} {sources : List (OpTree α)} {t : OpTree α}
    (ht : t ∈ sources) : ¬ Subtree (node id op sources) t := by
  intro h
  have hle := sizeOf_le_of_subtree h
  have := List.sizeOf_lt_of_mem ht
  rw [node.sizeOf_spec] at hle
  omega

theorem WellShared.subtree {s t : OpTree α} (h : t.WellShared) (hs : Subtree s t) :
    s.WellShared :=
  fun id op sources op' sources' h₁ h₂ => h id op sources op' sources' (h₁.trans hs) (h₂.trans hs)

namespace Walk

/-- A walk has met the root of a tree. -/
def Met (w : Walk α) : OpTree α → Prop
  | leaf x => x ∈ w.leaves.toList
  | node id op sources => ⟨id, op, sources⟩ ∈ w.nodes.toList

theorem met_push_leaf {w : Walk α} {x : α} {t : OpTree α} :
    ({ w with leaves := w.leaves.push x } : Walk α).Met t ↔ w.Met t ∨ t = leaf x := by
  cases t with
  | leaf y => simp [Met]
  | node id op sources => simp [Met]

theorem met_push_node {w : Walk α} {seen : Std.HashSet Nat} {id : Nat} {op : Op}
    {sources : List (OpTree α)} {t : OpTree α} :
    ({ w with seen, nodes := w.nodes.push ⟨id, op, sources⟩ } : Walk α).Met t ↔
      w.Met t ∨ t = node id op sources := by
  cases t with
  | leaf y => simp [Met]
  | node id' op' sources' => simp [Met]

/-- A walk meets only what it is given to visit. -/
theorem visit_sound (w : Walk α) (pending : List (OpTree α)) {t : OpTree α}
    (h : (w.visit pending).Met t) : w.Met t ∨ ∃ p ∈ pending, Subtree t p := by
  induction w, pending using visit.induct with
  | case1 w =>
    rw [visit] at h
    exact .inl h
  | case2 w x rest ih =>
    rw [visit] at h
    rcases ih h with h | ⟨p, hp, hs⟩
    · rcases met_push_leaf.mp h with h | rfl
      · exact .inl h
      · exact .inr ⟨_, List.mem_cons_self, .refl _⟩
    · exact .inr ⟨p, List.mem_cons_of_mem _ hp, hs⟩
  | case3 w id op sources rest hseen ih =>
    rw [visit, if_pos hseen] at h
    rcases ih h with h | ⟨p, hp, hs⟩
    · exact .inl h
    · exact .inr ⟨p, List.mem_cons_of_mem _ hp, hs⟩
  | case4 w id op sources rest hseen ih =>
    rw [visit, if_neg hseen] at h
    rcases ih h with h | ⟨p, hp, hs⟩
    · rcases met_push_node.mp h with h | rfl
      · exact .inl h
      · exact .inr ⟨_, List.mem_cons_self, .refl _⟩
    · rcases List.mem_append.mp hp with hp | hp
      · exact .inr ⟨_, List.mem_cons_self, hs.trans (subtree_source hp)⟩
      · exact .inr ⟨p, List.mem_cons_of_mem _ hp, hs⟩

/-- What holds between two steps of the walk of a tree: what is met or still to be visited belongs
to the tree, the identities seen are those of the nodes met, and the sources of a node met are met
or still to be visited. -/
structure Under (root : OpTree α) (w : Walk α) (todo : List (OpTree α)) : Prop where
  met : ∀ t, w.Met t → Subtree t root
  pending : ∀ t ∈ todo, Subtree t root
  seen : ∀ id, w.seen.contains id = true → ∃ op sources, w.Met (node id op sources)
  closed : ∀ id op sources, w.Met (node id op sources) → ∀ s ∈ sources, w.Met s ∨ s ∈ todo

namespace Under

variable {root : OpTree α} {w : Walk α} {id : Nat} {op : Op} {sources rest : List (OpTree α)}

/-- A leaf is met. -/
theorem pushLeaf {x : α} (h : Under root w (leaf x :: rest)) :
    Under root { w with leaves := w.leaves.push x } rest where
  met t ht := by
    rcases met_push_leaf.mp ht with ht | rfl
    · exact h.met t ht
    · exact h.pending _ List.mem_cons_self
  pending t ht := h.pending t (List.mem_cons_of_mem _ ht)
  seen id hid := by
    obtain ⟨op, sources, ht⟩ := h.seen id hid
    exact ⟨op, sources, met_push_leaf.mpr (.inl ht)⟩
  closed id op sources ht s hs := by
    have ht := (met_push_leaf.mp ht).resolve_right (by simp)
    rcases h.closed id op sources ht s hs with hs | hs
    · exact .inl (met_push_leaf.mpr (.inl hs))
    · rcases List.mem_cons.mp hs with rfl | hs
      · exact .inl (met_push_leaf.mpr (.inr rfl))
      · exact .inr hs

/-- A node on the list is the one that was met under its identity. -/
theorem met_of_seen (hw : root.WellShared) (h : Under root w (node id op sources :: rest))
    (hseen : w.seen.contains id = true) : w.Met (node id op sources) := by
  obtain ⟨op', sources', ht⟩ := h.seen id hseen
  obtain ⟨rfl, rfl⟩ := hw _ _ _ _ _ (h.met _ ht) (h.pending _ List.mem_cons_self)
  exact ht

/-- What has been met need not be visited again. -/
theorem skip {t : OpTree α} (h : Under root w (t :: rest)) (ht : w.Met t) : Under root w rest where
  met := h.met
  pending t ht := h.pending t (List.mem_cons_of_mem _ ht)
  seen := h.seen
  closed id op sources hn s hs := by
    rcases h.closed id op sources hn s hs with hs | hs
    · exact .inl hs
    · rcases List.mem_cons.mp hs with rfl | hs
      · exact .inl ht
      · exact .inr hs

/-- A node is met, and its sources are to be visited. -/
theorem pushNode (h : Under root w (node id op sources :: rest)) :
    Under root { w with seen := w.seen.insert id, nodes := w.nodes.push ⟨id, op, sources⟩ }
      (sources ++ rest) where
  met t ht := by
    rcases met_push_node.mp ht with ht | rfl
    · exact h.met t ht
    · exact h.pending _ List.mem_cons_self
  pending t ht := by
    rcases List.mem_append.mp ht with ht | ht
    · exact (subtree_source ht).trans (h.pending _ List.mem_cons_self)
    · exact h.pending t (List.mem_cons_of_mem _ ht)
  seen id' hid := by
    rw [Std.HashSet.contains_insert, Bool.or_eq_true, beq_iff_eq] at hid
    rcases hid with rfl | hid
    · exact ⟨op, sources, met_push_node.mpr (.inr rfl)⟩
    · obtain ⟨op', sources', ht⟩ := h.seen id' hid
      exact ⟨op', sources', met_push_node.mpr (.inl ht)⟩
  closed id' op' sources' ht s hs := by
    rcases met_push_node.mp ht with ht | ht
    · rcases h.closed id' op' sources' ht s hs with hs | hs
      · exact .inl (met_push_node.mpr (.inl hs))
      · rcases List.mem_cons.mp hs with rfl | hs
        · exact .inl (met_push_node.mpr (.inr rfl))
        · exact .inr (List.mem_append_right _ hs)
    · cases ht
      exact .inr (List.mem_append_left _ hs)

end Under

/-- A walk keeps what it has met. -/
theorem met_visit (w : Walk α) (pending : List (OpTree α)) {t : OpTree α} (h : w.Met t) :
    (w.visit pending).Met t := by
  induction w, pending using visit.induct with
  | case1 w =>
    rw [visit]
    exact h
  | case2 w x rest ih =>
    rw [visit]
    exact ih (met_push_leaf.mpr (.inl h))
  | case3 w id op sources rest hseen ih =>
    rw [visit, if_pos hseen]
    exact ih h
  | case4 w id op sources rest hseen ih =>
    rw [visit, if_neg hseen]
    exact ih (met_push_node.mpr (.inl h))

theorem visit_under {root : OpTree α} (hw : root.WellShared) (w : Walk α)
    (pending : List (OpTree α)) (h : Under root w pending) :
    Under root (w.visit pending) [] ∧ ∀ t ∈ pending, (w.visit pending).Met t := by
  induction w, pending using visit.induct with
  | case1 w =>
    rw [visit]
    exact ⟨h, List.forall_mem_nil _⟩
  | case2 w x rest ih =>
    rw [visit]
    obtain ⟨hu, hrest⟩ := ih h.pushLeaf
    exact ⟨hu, List.forall_mem_cons.mpr ⟨met_visit _ _ (met_push_leaf.mpr (.inr rfl)), hrest⟩⟩
  | case3 w id op sources rest hseen ih =>
    rw [visit, if_pos hseen]
    have hmet := h.met_of_seen hw hseen
    obtain ⟨hu, hrest⟩ := ih (h.skip hmet)
    exact ⟨hu, List.forall_mem_cons.mpr ⟨met_visit _ _ hmet, hrest⟩⟩
  | case4 w id op sources rest hseen ih =>
    rw [visit, if_neg hseen]
    obtain ⟨hu, hrest⟩ := ih h.pushNode
    exact ⟨hu, List.forall_mem_cons.mpr ⟨met_visit _ _ (met_push_node.mpr (.inr rfl)),
      (List.forall_mem_append.mp hrest).2⟩⟩

end Walk

variable {t : OpTree α}

theorem met_walk_sound {s : OpTree α} (h : t.walk.Met s) : Subtree s t := by
  rcases Walk.visit_sound {} [t] h with h | ⟨p, hp, hs⟩
  · cases s <;> simp [Walk.Met] at h
  · obtain rfl := List.mem_singleton.mp hp
    exact hs

theorem subtree_of_mem_leaves {x : α} (h : x ∈ t.leaves) : Subtree (leaf x) t :=
  met_walk_sound h

theorem subtree_of_mem_nodes {n : OpNode α} (h : n ∈ t.nodes) :
    Subtree (node n.id n.op n.sources) t :=
  met_walk_sound (s := node n.id n.op n.sources) h

/-- A walk meets the root of every subtree. -/
theorem met_walk (hw : t.WellShared) {s : OpTree α} (h : Subtree s t) : t.walk.Met s := by
  have hstart : Walk.Under t {} [t] := {
    met := fun s hs => by cases s <;> simp [Walk.Met] at hs
    pending := fun s hs => by
      obtain rfl := List.mem_singleton.mp hs
      exact .refl s
    seen := fun id hid => by simp at hid
    closed := fun id op sources hm => by simp [Walk.Met] at hm }
  obtain ⟨hu, hmet⟩ := Walk.visit_under hw {} [t] hstart
  have hroot : t.walk.Met t := hmet t List.mem_cons_self
  suffices ∀ u, Subtree s u → t.walk.Met u → t.walk.Met s from this t h hroot
  intro u hs hm
  induction hs with
  | refl => exact hm
  | source _ hsource ih => exact ih ((hu.closed _ _ _ hm _ hsource).resolve_right (by simp))

theorem mem_nodes (hw : t.WellShared) {id : Nat} {op : Op} {sources : List (OpTree α)}
    (h : Subtree (node id op sources) t) : ⟨id, op, sources⟩ ∈ t.nodes :=
  met_walk hw h

theorem mem_leaves (hw : t.WellShared) {x : α} (h : Subtree (leaf x) t) : x ∈ t.leaves :=
  met_walk hw h

theorem subtree_of_find? {p : Op → Bool} {n : OpNode α} (h : t.find? p = some n) :
    Subtree (node n.id n.op n.sources) t ∧ p n.op = true := by
  unfold find? at h
  have hp := @List.find?_some _ (fun n : OpNode α => p n.op) n t.nodes h
  exact ⟨subtree_of_mem_nodes (List.mem_of_find?_eq_some h), hp⟩

/-- The walk of a node over one leaf. -/
theorem walk_single (id : Nat) (op : Op) (x : α) :
    (node id op [leaf x]).walk =
      { seen := ({} : Std.HashSet Nat).insert id, nodes := #[⟨id, op, [leaf x]⟩],
        leaves := #[x] } := by
  simp [walk, Walk.visit]

theorem node_of_subtree_single {id id' : Nat} {op op' : Op} {x : α} {sources : List (OpTree α)}
    (h : Subtree (node id' op' sources) (node id op [leaf x])) :
    id' = id ∧ op' = op ∧ sources = [leaf x] := by
  cases h with
  | refl => exact ⟨rfl, rfl, rfl⟩
  | source h hm =>
    obtain rfl := List.mem_singleton.mp hm
    cases h

theorem wellShared_single (id : Nat) (op : Op) (x : α) : (node id op [leaf x]).WellShared := by
  intro _ _ _ _ _ h h'
  obtain ⟨-, rfl, rfl⟩ := node_of_subtree_single h
  obtain ⟨-, rfl, rfl⟩ := node_of_subtree_single h'
  exact ⟨rfl, rfl⟩

theorem subtree_single {id : Nat} {op : Op} {x y : α} (h : Subtree (leaf y) (node id op [leaf x])) :
    y = x := by
  cases h with
  | source h hm =>
    obtain rfl := List.mem_singleton.mp hm
    cases h
    rfl

end TensorLoom.OpTree
