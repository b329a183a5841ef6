import TensorLoom.Session.Basic
import TensorLoom.Proofs.Distinct
import TensorLoom.Proofs.OpTree.Outline

/-!
# The order of a walk

The plain recursion over a tree goes down every path, a node before its sources and sources from the
left, and so it visits a node once for each path that leads to it (`OpNode.preorder`). The walk of a
well shared tree lists what the recursion visits, without what it has visited before
(`OpNode.firstVisits`): the nodes by their identities, and the leaves by the nodes that have them
and the places that they have there (`OpTree.walk_preorder`).

Of a tree that comes behind visits the walk lists what is new, provided that the visits hold all of
the tree below a node or nothing of the node (`OpTree.Behind`). This is so of the sources of a node
since no node is part of its own sources.
-/

namespace TensorLoom

namespace OpTree

/-- What the recursion over a tree visits. -/
inductive Visit (α : Type) where
  | node (n : OpNode α)
  /-- A leaf, by the node that it is a source of and its place among the sources. -/
  | leaf (owner place : Nat) (value : α)

namespace Visit

variable {α : Type}

/-- What tells visits apart: the identity of a node, and the place of a leaf in a node. -/
def key : Visit α → Nat × Option Nat
  | node n => (n.id, none)
  | leaf owner place _ => (owner, some place)

def node? : Visit α → Option (OpNode α)
  | node n => some n
  | leaf _ _ _ => none

def leaf? : Visit α → Option α
  | node _ => none
  | leaf _ _ x => some x

end Visit

variable {α : Type}

mutual

/-- The visits in the source of a node at a place. -/
def visits (owner place : Nat) : OpTree α → List (Visit α)
  | leaf x => [.leaf owner place x]
  | node id op sources => .node ⟨id, op, sources⟩ :: visitsAll id 0 sources

/-- The visits in the sources of a node from a place on. -/
def visitsAll (owner place : Nat) : List (OpTree α) → List (Visit α)
  | [] => []
  | t :: ts => visits owner place t ++ visitsAll owner (place + 1) ts

end

end OpTree

namespace OpNode

open OpTree (Visit)

variable {α : Type}

/-- The visits in a node, one for each path. -/
def preorder (n : OpNode α) : List (Visit α) := .node n :: OpTree.visitsAll n.id 0 n.sources

/-- The visits in a node that are the first of their kind. -/
def firstVisits (n : OpNode α) : List (Visit α) :=
  n.preorder.eraseDupsBy fun v w => decide (v.key = w.key)

end OpNode

namespace OpTree

variable {α : Type}

/-! ## What is visited -/

/-- A tree has the node that is visited, or the node whose leaf is. -/
def Has (t : OpTree α) : Visit α → Prop
  | .node n => Subtree n.tree t
  | .leaf owner place x =>
    ∃ n : OpNode α, Subtree n.tree t ∧ n.id = owner ∧ n.sources[place]? = some (leaf x)

theorem Has.mono {t u : OpTree α} {v : Visit α} (h : t.Has v) (htu : Subtree t u) : u.Has v := by
  cases v with
  | node n => exact Subtree.trans h htu
  | leaf owner place x =>
    obtain ⟨n, hn, hid, hx⟩ := h
    exact ⟨n, hn.trans htu, hid, hx⟩

theorem not_has_leaf (x : α) (v : Visit α) : ¬ (leaf x).Has v := by
  cases v with
  | node n => exact fun h => nomatch subtree_leaf.mp h
  | leaf owner place y =>
    rintro ⟨n, hn, -⟩
    exact nomatch subtree_leaf.mp hn

/-- A node has itself, its own leaves and what its sources have. -/
theorem has_node {id : Nat} {op : Op} {sources : List (OpTree α)} {v : Visit α} :
    (node id op sources).Has v ↔ v = .node ⟨id, op, sources⟩ ∨
      (∃ place x, sources[place]? = some (leaf x) ∧ v = .leaf id place x) ∨
      ∃ t ∈ sources, t.Has v := by
  constructor
  · intro h
    cases v with
    | node n =>
      rcases subtree_node.mp h with e | h
      · cases n
        cases e
        exact .inl rfl
      · exact .inr (.inr h)
    | leaf owner place x =>
      obtain ⟨n, hn, rfl, hx⟩ := h
      rcases subtree_node.mp hn with e | ⟨t, ht, hn⟩
      · cases n
        cases e
        exact .inr (.inl ⟨place, x, hx, rfl⟩)
      · exact .inr (.inr ⟨t, ht, n, hn, rfl, hx⟩)
  · rintro (rfl | ⟨place, x, hx, rfl⟩ | ⟨t, ht, h⟩)
    · exact Subtree.refl _
    · exact ⟨⟨id, op, sources⟩, .refl _, rfl, hx⟩
    · exact h.mono (subtree_source ht)

/-- The recursion visits what there is, and the tree itself if that is a leaf. -/
theorem mem_visits :
    (∀ (t : OpTree α) (owner place : Nat) (v : Visit α), v ∈ visits owner place t ↔
      t.Has v ∨ ∃ x, t = leaf x ∧ v = .leaf owner place x) ∧
    ∀ (ts : List (OpTree α)) (owner place : Nat) (v : Visit α), v ∈ visitsAll owner place ts ↔
      (∃ i x, ts[i]? = some (leaf x) ∧ v = .leaf owner (place + i) x) ∨ ∃ t ∈ ts, t.Has v := by
  refine induction_list ?leaf ?node ?nil ?cons
  case leaf =>
    intro x owner place v
    simp [visits, not_has_leaf]
  case node =>
    intro id op sources ih owner place v
    rw [visits, List.mem_cons, ih, has_node]
    simp
  case nil =>
    intro owner place v
    simp [visitsAll]
  case cons =>
    intro t ts iht ihts owner place v
    rw [visitsAll, List.mem_append, iht, ihts]
    constructor
    · rintro ((h | ⟨x, rfl, rfl⟩) | ⟨i, x, hx, rfl⟩ | ⟨s, hs, h⟩)
      · exact .inr ⟨t, List.mem_cons_self, h⟩
      · exact .inl ⟨0, x, rfl, rfl⟩
      · exact .inl ⟨i + 1, x, hx, by rw [Nat.add_assoc, Nat.add_comm 1]⟩
      · exact .inr ⟨s, List.mem_cons_of_mem _ hs, h⟩
    · rintro (⟨i, x, hx, rfl⟩ | ⟨s, hs, h⟩)
      · cases i with
        | zero => exact .inl (.inr ⟨x, Option.some.inj hx, rfl⟩)
        | succ i => exact .inr (.inl ⟨i, x, hx, by rw [Nat.add_assoc, Nat.add_comm 1]⟩)
      · rcases List.mem_cons.mp hs with rfl | hs
        · exact .inl (.inl h)
        · exact .inr (.inr ⟨s, hs, h⟩)

theorem mem_preorder {n : OpNode α} {v : Visit α} : v ∈ n.preorder ↔ n.tree.Has v := by
  rw [OpNode.preorder, List.mem_cons, mem_visits.2, OpNode.tree, has_node]
  simp

theorem WellShared.node_eq {t : OpTree α} (hw : t.WellShared) {n m : OpNode α}
    (hn : Subtree n.tree t) (hm : Subtree m.tree t) (h : n.id = m.id) : n = m := by
  cases n
  cases m
  obtain rfl : _ = _ := h
  obtain ⟨rfl, rfl⟩ := hw _ _ _ _ _ hn hm
  rfl

/-- Visits in a well shared tree are told apart by their keys. -/
theorem WellShared.visit_eq {t : OpTree α} (hw : t.WellShared) {v w : Visit α} (hv : t.Has v)
    (hw' : t.Has w) (h : v.key = w.key) : v = w := by
  cases v with
  | node n =>
    cases w with
    | node m => rw [hw.node_eq hv hw' (congrArg Prod.fst h)]
    | leaf owner place x => cases h
  | leaf owner place x =>
    cases w with
    | node m => cases h
    | leaf owner' place' y =>
      cases h
      obtain ⟨n, hn, hid, hx⟩ := hv
      obtain ⟨m, hm, hid', hy⟩ := hw'
      cases hw.node_eq hn hm (hid.trans hid'.symm)
      cases hx.symm.trans hy
      rfl

/-! ## What is visited first -/

/-- Visits that are listed as nodes and leaves. -/
structure Lists (vs : List (Visit α)) (nodes : List (OpNode α)) (leaves : List α) : Prop where
  nodes_eq : vs.filterMap Visit.node? = nodes
  leaves_eq : vs.filterMap Visit.leaf? = leaves

theorem Lists.append {vs ws : List (Visit α)} {nodes nodes' : List (OpNode α)}
    {leaves leaves' : List α} (h : Lists vs nodes leaves) (h' : Lists ws nodes' leaves') :
    Lists (vs ++ ws) (nodes ++ nodes') (leaves ++ leaves') := by
  obtain ⟨rfl, rfl⟩ := h
  obtain ⟨rfl, rfl⟩ := h'
  exact ⟨List.filterMap_append, List.filterMap_append⟩

/-- The nodes among some visits, by their keys. -/
theorem Lists.mem_ids {vs : List (Visit α)} {nodes : List (OpNode α)} {leaves : List α}
    (h : Lists vs nodes leaves) (id : Nat) :
    (id, none) ∈ vs.map Visit.key ↔ id ∈ nodes.map (·.id) := by
  obtain ⟨rfl, -⟩ := h
  simp only [List.mem_map, List.mem_filterMap]
  constructor
  · rintro ⟨v, hv, hkey⟩
    cases v with
    | node n => exact ⟨n, ⟨_, hv, rfl⟩, congrArg Prod.fst hkey⟩
    | leaf owner place x => cases hkey
  · rintro ⟨n, ⟨v, hv, hn⟩, rfl⟩
    cases v with
    | node m =>
      cases hn
      exact ⟨_, hv, rfl⟩
    | leaf owner place x => cases hn

/-- Visits made before a tree is met: they hold the nodes met and leaves of those alone, and all of
the tree that is below a node met. -/
structure Behind (keys : List (Nat × Option Nat)) (met : List Nat) (t : OpTree α) : Prop where
  nodes : ∀ id, (id, none) ∈ keys ↔ id ∈ met
  leaves : ∀ id place, (id, some place) ∈ keys → id ∈ met
  below : ∀ n : OpNode α, Subtree n.tree t → n.id ∈ met → ∀ v, n.tree.Has v → v.key ∈ keys

variable {root : OpTree α} {keys : List (Nat × Option Nat)} {met : List Nat}

/-- Behind the visit of a node come its sources, which it is no part of. -/
theorem Behind.source (hw : root.WellShared) {id : Nat} {op : Op} {sources : List (OpTree α)}
    (hroot : Subtree (node id op sources) root) (h : Behind keys met (node id op sources))
    {t : OpTree α} (ht : t ∈ sources) : Behind (keys ++ [(id, none)]) (met ++ [id]) t where
  nodes i := by simp [h.nodes i]
  leaves i place hi := by
    have hi : (i, some place) ∈ keys := by simpa using hi
    exact List.mem_append_left _ (h.leaves i place hi)
  below n hn hid v hv := by
    rcases List.mem_append.mp hid with hid | hid
    · exact List.mem_append_left _ (h.below n (hn.trans (subtree_source ht)) hid v hv)
    · have hn' : Subtree n.tree root := hn.trans ((subtree_source ht).trans hroot)
      obtain rfl := hw.node_eq hn' (m := ⟨id, op, sources⟩) hroot (List.mem_singleton.mp hid)
      exact absurd hn (not_subtree_source ht)

/-- Behind the visits of a tree come those next to it. -/
theorem Behind.next (hw : root.WellShared) {t s : OpTree α} (ht : Subtree t root)
    (hs : Subtree s root) (h : Behind keys met t) (h' : Behind keys met s) {owner place : Nat}
    (howner : owner ∈ met) {nodes : List (OpNode α)} {leaves : List α}
    (hlists : Lists (distinctFrom Visit.key keys (visits owner place t)) nodes leaves) :
    Behind (keys ++ (visits owner place t).map Visit.key) (met ++ nodes.map (·.id)) s := by
  have hnodes : ∀ id, (id, none) ∈ keys ++ (visits owner place t).map Visit.key ↔
      id ∈ met ++ nodes.map (·.id) := fun id => by
    rw [← mem_keys_distinctFrom, List.mem_append, List.mem_append, h.nodes, hlists.mem_ids]
  have hvisited : ∀ v : Visit α, t.Has v → v.key ∈ (visits owner place t).map Visit.key :=
    fun v hv => List.mem_map_of_mem ((mem_visits.1 t owner place v).mpr (.inl hv))
  refine ⟨hnodes, fun id i hi => ?_, fun n hn hid v hv => ?_⟩
  · rcases List.mem_append.mp hi with hi | hi
    · exact List.mem_append_left _ (h.leaves id i hi)
    · obtain ⟨v, hv, hkey⟩ := List.mem_map.mp hi
      rcases (mem_visits.1 t owner place v).mp hv with hv | ⟨x, -, rfl⟩
      · cases v with
        | node n => cases hkey
        | leaf id' i' x =>
          cases hkey
          obtain ⟨n, hn, rfl, -⟩ := hv
          exact (hnodes n.id).mp (List.mem_append_right _ (hvisited (.node n) hn))
      · cases hkey
        exact List.mem_append_left _ howner
  · rcases List.mem_append.mp hid with hid | hid
    · exact List.mem_append_left _ (h'.below n hn hid v hv)
    · -- a node that is met in the first tree is the same node there
      obtain ⟨w, hw', hkey⟩ := List.mem_map.mp ((hlists.mem_ids n.id).mpr hid)
      rcases (mem_visits.1 t owner place w).mp (mem_of_mem_distinctFrom hw').1 with
        hw' | ⟨x, -, rfl⟩
      · cases w with
        | node m =>
          obtain rfl := hw.node_eq (hw'.trans ht) (hn.trans hs) (congrArg Prod.fst hkey)
          exact List.mem_append_right _ (hvisited v (hv.mono hw'))
        | leaf owner' place' x => cases hkey
      · cases hkey

/-- The outline of a tree meets what is visited in it first. -/
theorem visits_outline (hw : root.WellShared) :
    (∀ (t : OpTree α) (owner place : Nat) keys met, Subtree t root → Behind keys met t →
      (owner, some place) ∉ keys →
      Lists (distinctFrom Visit.key keys (visits owner place t)) (outlineFrom met t).nodes
        (outlineFrom met t).leaves) ∧
    ∀ (ts : List (OpTree α)) (owner place : Nat) keys met, owner ∈ met →
      (∀ i, (owner, some (place + i)) ∉ keys) →
      (∀ t ∈ ts, Subtree t root ∧ Behind keys met t ∧
        ∀ n : OpNode α, Subtree n.tree t → n.id ≠ owner) →
      Lists (distinctFrom Visit.key keys (visitsAll owner place ts))
        ((outlinesFrom met ts).flatMap Outline.nodes)
        ((outlinesFrom met ts).flatMap Outline.leaves) := by
  refine induction_list ?leaf ?node ?nil ?cons
  case leaf =>
    intro x owner place keys met _ _ hplace
    have hkey : (Visit.leaf owner place x).key ∉ keys := hplace
    rw [visits, distinctFrom_new hkey, outlineFrom, Outline.nodes_leaf, Outline.leaves]
    exact ⟨rfl, rfl⟩
  case node =>
    intro id op sources ih owner place keys met hroot h _
    rcases idxOf?_cases met id with ⟨k, hk, -, hmem⟩ | hnew
    · have hknown : ∀ v ∈ visits owner place (node id op sources), v.key ∈ keys := fun v hv => by
        rcases (mem_visits.1 _ _ _ v).mp hv with hv | ⟨x, hx, -⟩
        · exact h.below ⟨id, op, sources⟩ (.refl _) hmem v hv
        · cases hx
      rw [distinctFrom_eq_nil hknown, outlineFrom_again hk, Outline.nodes_again, Outline.leaves]
      exact ⟨rfl, rfl⟩
    · have hkey : (Visit.node (⟨id, op, sources⟩ : OpNode α)).key ∉ keys :=
        mt (h.nodes id).mp hnew
      have hfirst : Lists [Visit.node ⟨id, op, sources⟩] [⟨id, op, sources⟩] [] := ⟨rfl, rfl⟩
      have hsources := ih id 0 (keys ++ [(id, none)]) (met ++ [id]) (by simp)
        (fun i hi => hnew (h.leaves id (0 + i) (by simpa using hi)))
        fun t ht => ⟨(subtree_source ht).trans hroot, h.source hw hroot ht, fun n hn hid => ?_⟩
      · rw [visits, distinctFrom_new hkey, outlineFrom_first hnew, Outline.nodes_first,
          Outline.leaves]
        exact hfirst.append hsources
      · have hn' : Subtree n.tree root := hn.trans ((subtree_source ht).trans hroot)
        obtain rfl := hw.node_eq hn' (m := ⟨id, op, sources⟩) hroot hid
        exact not_subtree_source ht hn
  case nil =>
    intro owner place keys met _ _ _
    exact ⟨rfl, rfl⟩
  case cons =>
    intro t ts iht ihts owner place keys met howner hplace hall
    obtain ⟨ht, hbehind, hother⟩ := hall t List.mem_cons_self
    have hfirst := iht owner place keys met ht hbehind (hplace 0)
    have hrest := ihts owner (place + 1) (keys ++ (visits owner place t).map Visit.key)
      (met ++ (outlineFrom met t).ids) (List.mem_append_left _ howner) (fun i hi => ?_)
      fun s hs => ?_
    · rw [visitsAll, distinctFrom_append, outlinesFrom, List.flatMap_cons, List.flatMap_cons]
      exact hfirst.append hrest
    · rcases List.mem_append.mp hi with hi | hi
      · exact hplace (1 + i) (by rwa [← Nat.add_assoc])
      · obtain ⟨v, hv, hkey⟩ := List.mem_map.mp hi
        rcases (mem_visits.1 t owner place v).mp hv with hv | ⟨x, -, rfl⟩
        · cases v with
          | node n => cases hkey
          | leaf owner' place' x =>
            cases hkey
            obtain ⟨n, hn, hid, -⟩ := hv
            exact hother n hn hid
        · have hne : place = place + 1 + i := Option.some.inj (congrArg Prod.snd hkey)
          omega
    · obtain ⟨hs', hbehind', hother'⟩ := hall s (List.mem_cons_of_mem _ hs)
      exact ⟨hs', hbehind.next hw ht hs' hbehind' howner hfirst, hother'⟩

variable {n : OpNode α}

theorem firstVisits_eq (n : OpNode α) : n.firstVisits = distinctFrom Visit.key [] n.preorder :=
  (distinctFrom_nil _).symm

/-- The walk lists the first visits. -/
theorem lists_firstVisits (hw : n.tree.WellShared) :
    Lists n.firstVisits n.tree.nodes n.tree.leaves := by
  have hstart : Behind [] [] n.tree := ⟨by simp, by simp, fun _ _ h => nomatch h⟩
  have h := (visits_outline hw).1 n.tree 0 0 [] [] (.refl _) hstart (by simp)
  rw [nodes_eq_outline, leaves_eq_outline, firstVisits_eq]
  rwa [OpNode.tree, visits] at h

/-- Whatever a well shared tree has is visited for the first time. -/
theorem mem_firstVisits (hw : n.tree.WellShared) {v : Visit α} :
    v ∈ n.firstVisits ↔ n.tree.Has v := by
  rw [firstVisits_eq]
  constructor
  · exact fun h => mem_preorder.mp (mem_of_mem_distinctFrom h).1
  · intro h
    have hkey : v.key ∈ [] ++ (distinctFrom Visit.key [] n.preorder).map Visit.key :=
      mem_keys_distinctFrom.mpr (List.mem_map_of_mem (mem_preorder.mpr h))
    obtain ⟨w, hw', e⟩ := List.mem_map.mp hkey
    obtain rfl := hw.visit_eq (mem_preorder.mp (mem_of_mem_distinctFrom hw').1) h e
    exact hw'

/-- The walk of a well shared tree is its preorder without repetitions. The nodes and the leaves are
listed in the order in which the plain recursion visits them for the first time. Every node that can
be reached is listed once, and so is every leaf for each place of a node that has it there. The
sources of a tensor are the leaves of its tree, each where it is listed first. -/
theorem walk_preorder :
    (∀ {α : Type} (n : OpNode α), n.tree.WellShared →
      n.tree.nodes = n.firstVisits.filterMap Visit.node? ∧
      n.tree.leaves = n.firstVisits.filterMap Visit.leaf? ∧
      (n.tree.nodes.map (·.id)).Nodup ∧
      (∀ m : OpNode α, m ∈ n.tree.nodes ↔ Subtree m.tree n.tree) ∧
      (n.firstVisits.map Visit.key).Nodup ∧
      ∀ owner place x, .leaf owner place x ∈ n.firstVisits ↔
        ∃ m ∈ n.tree.nodes, m.id = owner ∧ m.sources[place]? = some (leaf x)) ∧
    ∀ b : Tensor, FirstOccurrences b.tree.leaves b.sources := by
  refine ⟨fun {α} n hw => ?_, fun b => firstOccurrences_eraseDups b.tree.leaves⟩
  have hlists := lists_firstVisits hw
  have hnodes : ∀ m : OpNode α, m ∈ n.tree.nodes ↔ Subtree m.tree n.tree :=
    fun m => ⟨subtree_of_mem_nodes, mem_nodes hw⟩
  refine ⟨hlists.nodes_eq.symm, hlists.leaves_eq.symm, nodup_ids n.tree, hnodes, ?_,
    fun owner place x => ?_⟩
  · rw [firstVisits_eq]
    exact nodup_keys_distinctFrom n.preorder
  · rw [mem_firstVisits hw]
    simp only [hnodes]
    rfl

/-- The product is visited twice, and listed once. -/
theorem walk_preorder_productTwice :
    let sum : OpNode String := ⟨0, .binary .add, [product, .node 2 (.unary .relu) [product]]⟩
    let double : Tensor := ⟨[2], .deferred .elementwise (.node 0 (.binary .add) [.leaf 7, .leaf 7])⟩
    sum.tree.WellShared ∧ sum.preorder.filterMap Visit.leaf? = ["a", "b", "a", "b"] ∧
      sum.tree.leaves = ["a", "b"] ∧ sum.tree.nodes.map (·.id) = [0, 1, 2] ∧
      FirstOccurrences [7, 7] double.sources := by
  intro sum double
  obtain ⟨hnodes, hleaves, -⟩ := walk_preorder.1 sum wellShared_productTwice
  refine ⟨wellShared_productTwice, by cbv, ?_, ?_, ?_⟩
  · rw [hleaves]
    cbv
  · rw [hnodes]
    cbv
  · have hsources := walk_preorder.2 double
    rwa [show double.tree.leaves = [7, 7] by simp [double, Tensor.tree, leaves, walk, Walk.visit]]
      at hsources

end OpTree

end TensorLoom
