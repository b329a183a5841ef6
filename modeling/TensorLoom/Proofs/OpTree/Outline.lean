import TensorLoom.Proofs.OpTree.Correspondence
import Mathlib.Data.List.Nodup

/-!
# The outline of a shared tree

The outline of a tree is the tree as it is met from the left by the plain recursion over nodes and
sources, in which a node has its sources where it is met for the first time, and is only the
position of the first time where it is met again. Positions count the nodes met so far.

The walk of a tree, which keeps what it has still to visit on a list, meets the nodes and the leaves
of the outline (`OpTree.nodes_eq_outline`, `OpTree.leaves_eq_outline`). In the outline of a well
shared tree no identity is met twice for the first time (`OpTree.nodup_ids`), and each position is
that of the node in its place (`OpTree.renders_outline`).
-/

namespace TensorLoom

/-- A node as a tree. -/
def OpNode.tree {α : Type} (n : OpNode α) : OpTree α := .node n.id n.op n.sources

namespace OpTree

variable {α : Type}

/-- Induction over a tree and the list of the sources of a node together. -/
theorem induction_list {tree : OpTree α → Prop} {list : List (OpTree α) → Prop}
    (leaf : ∀ x, tree (leaf x))
    (node : ∀ id op sources, list sources → tree (node id op sources)) (nil : list [])
    (cons : ∀ t ts, tree t → list ts → list (t :: ts)) :
    (∀ t, tree t) ∧ ∀ ts, list ts :=
  ⟨fun t => OpTree.rec (motive_1 := tree) (motive_2 := list) leaf node nil cons t,
    fun ts => OpTree.rec_1 (motive_1 := tree) (motive_2 := list) leaf node nil cons ts⟩

/-- A tree as it is met from the left. -/
inductive Outline (α : Type) where
  | leaf (value : α)
  /-- A node that was not met before, and the outlines of its sources. -/
  | first (node : OpNode α) (sources : List (Outline α))
  /-- A node that was met before, by its position among the nodes met. -/
  | again (position : Nat)

namespace Outline

/-- Induction over an outline. -/
@[elab_as_elim]
theorem induction {motive : Outline α → Prop} (leaf : ∀ x, motive (leaf x))
    (first : ∀ n sources, (∀ o ∈ sources, motive o) → motive (first n sources))
    (again : ∀ k, motive (again k)) (o : Outline α) : motive o := by
  refine Outline.rec (motive_1 := motive) (motive_2 := fun os => ∀ o ∈ os, motive o) leaf first
    again ?nil ?cons o
  case nil =>
    intro o ho
    cases ho
  case cons =>
    intro o os ho hos o' ho'
    rcases List.mem_cons.mp ho' with rfl | ho'
    · exact ho
    · exact hos o' ho'

/-- The nodes that are met for the first time, each with the outlines of its sources, in the order
in which they are met. -/
def entries : Outline α → List (OpNode α × List (Outline α))
  | leaf _ => []
  | first n sources => (n, sources) :: sources.flatMap entries
  | again _ => []

/-- The nodes in the order in which they are first met. -/
def nodes (o : Outline α) : List (OpNode α) := o.entries.map (·.1)

/-- Their identities. -/
def ids (o : Outline α) : List Nat := o.nodes.map (·.id)

/-- The leaves in the order in which they are met. -/
def leaves : Outline α → List α
  | leaf x => [x]
  | first _ sources => sources.flatMap leaves
  | again _ => []

@[simp] theorem nodes_leaf (x : α) : (leaf x).nodes = [] := by simp [nodes, entries]

@[simp] theorem nodes_again (k : Nat) : (again k : Outline α).nodes = [] := by
  simp [nodes, entries]

@[simp] theorem nodes_first (n : OpNode α) (sources : List (Outline α)) :
    (first n sources).nodes = n :: sources.flatMap nodes := by
  simp only [nodes, entries, List.map_cons, List.map_flatMap]
  rfl

@[simp] theorem ids_leaf (x : α) : (leaf x).ids = [] := by simp [ids]

@[simp] theorem ids_again (k : Nat) : (again k : Outline α).ids = [] := by simp [ids]

@[simp] theorem ids_first (n : OpNode α) (sources : List (Outline α)) :
    (first n sources).ids = n.id :: sources.flatMap ids := by
  simp only [ids, nodes_first, List.map_cons, List.map_flatMap]
  rfl

end Outline

mutual

/-- The outline of a tree behind nodes whose identities were met already. -/
def outlineFrom (met : List Nat) : OpTree α → Outline α
  | leaf x => .leaf x
  | node id op sources =>
    match met.idxOf? id with
    | some k => .again k
    | none => .first ⟨id, op, sources⟩ (outlinesFrom (met ++ [id]) sources)

/-- The outlines of the trees of a list, one behind the other. -/
def outlinesFrom (met : List Nat) : List (OpTree α) → List (Outline α)
  | [] => []
  | t :: ts => outlineFrom met t :: outlinesFrom (met ++ (outlineFrom met t).ids) ts

end

/-- The outline of a whole tree. -/
def outline (t : OpTree α) : Outline α := outlineFrom [] t

theorem outlineFrom_again {met : List Nat} {id k : Nat} (h : met.idxOf? id = some k) (op : Op)
    (sources : List (OpTree α)) : outlineFrom met (node id op sources) = .again k := by
  rw [outlineFrom, h]

theorem outlineFrom_first {met : List Nat} {id : Nat} (h : id ∉ met) (op : Op)
    (sources : List (OpTree α)) :
    outlineFrom met (node id op sources) =
      .first ⟨id, op, sources⟩ (outlinesFrom (met ++ [id]) sources) := by
  rw [outlineFrom, List.idxOf?_eq_none_iff.mpr h]

/-- A node was met before, under a position, or is met for the first time. -/
theorem idxOf?_cases (met : List Nat) (id : Nat) :
    (∃ k, met.idxOf? id = some k ∧ met[k]? = some id ∧ id ∈ met) ∨ id ∉ met := by
  cases h : met.idxOf? id with
  | none => exact .inr (List.idxOf?_eq_none_iff.mp h)
  | some k =>
    obtain ⟨hk, hid, -⟩ := List.idxOf?_eq_some_iff.mp h
    refine .inl ⟨k, rfl, ?_, ?_⟩
    · rw [List.getElem?_eq_getElem hk, hid]
    · exact hid ▸ List.getElem_mem hk

/-! ## The walk -/

/-- A walk has met nodes and leaves, in an order. -/
structure Walk.Agrees (w : Walk α) (nodes : List (OpNode α)) (leaves : List α) : Prop where
  onNodes : w.nodes.toList = nodes
  onLeaves : w.leaves.toList = leaves
  onSeen : ∀ id, w.seen.contains id = true ↔ id ∈ nodes.map (·.id)

/-- Visiting a tree, or the sources of a node, adds the nodes and the leaves of the outline. -/
theorem visit_outline :
    (∀ (t : OpTree α) (w : Walk α) (nodes : List (OpNode α)) leaves, w.Agrees nodes leaves → ∀ rest,
      ∃ w' : Walk α, w.visit (t :: rest) = w'.visit rest ∧
        w'.Agrees (nodes ++ (outlineFrom (nodes.map (·.id)) t).nodes)
          (leaves ++ (outlineFrom (nodes.map (·.id)) t).leaves)) ∧
    ∀ (ts : List (OpTree α)) (w : Walk α) (nodes : List (OpNode α)) leaves,
      w.Agrees nodes leaves → ∀ rest, ∃ w' : Walk α, w.visit (ts ++ rest) = w'.visit rest ∧
        w'.Agrees (nodes ++ (outlinesFrom (nodes.map (·.id)) ts).flatMap Outline.nodes)
          (leaves ++ (outlinesFrom (nodes.map (·.id)) ts).flatMap Outline.leaves) := by
  refine induction_list ?leaf ?node ?nil ?cons
  case leaf =>
    intro x w nodes leaves h rest
    refine ⟨{ w with leaves := w.leaves.push x }, by rw [Walk.visit], ?_, ?_, ?_⟩
    · simpa [outlineFrom] using h.onNodes
    · simpa [outlineFrom, Outline.leaves] using h.onLeaves
    · simpa [outlineFrom] using h.onSeen
  case node =>
    intro id op sources ih w nodes leaves h rest
    rcases idxOf?_cases (nodes.map (·.id)) id with ⟨k, hk, -, hmem⟩ | hnew
    · refine ⟨w, by rw [Walk.visit, if_pos ((h.onSeen id).mpr hmem)], ?_⟩
      rw [outlineFrom_again hk]
      simpa [Outline.leaves] using h
    · have hseen : ¬ w.seen.contains id = true := fun hs => hnew ((h.onSeen id).mp hs)
      obtain ⟨w', hw', h'⟩ := ih
        { w with seen := w.seen.insert id, nodes := w.nodes.push ⟨id, op, sources⟩ }
        (nodes ++ [⟨id, op, sources⟩]) leaves
        ⟨by simpa using h.onNodes, h.onLeaves, fun i => by
          have := h.onSeen i
          simp only [List.map_append, List.map_cons, List.map_nil, List.mem_append,
            List.mem_singleton, Std.HashSet.contains_insert, Bool.or_eq_true, beq_iff_eq, this]
          rw [or_comm, eq_comm]⟩ rest
      refine ⟨w', by rw [Walk.visit, if_neg hseen, hw'], ?_⟩
      rw [outlineFrom_first hnew]
      simpa [Outline.leaves] using h'
  case nil =>
    intro w nodes leaves h rest
    exact ⟨w, rfl, by simpa [outlinesFrom] using h⟩
  case cons =>
    intro t ts iht ihts w nodes leaves h rest
    obtain ⟨w₁, hw₁, h₁⟩ := iht w nodes leaves h (ts ++ rest)
    obtain ⟨w₂, hw₂, h₂⟩ := ihts w₁ _ _ h₁ rest
    refine ⟨w₂, by rw [List.cons_append, hw₁, hw₂], ?_⟩
    simpa [outlinesFrom, Outline.ids] using h₂

theorem walk_outline (t : OpTree α) : t.walk.Agrees t.outline.nodes t.outline.leaves := by
  obtain ⟨w, hw, h⟩ := visit_outline.1 t {} [] [] ⟨rfl, rfl, by simp⟩ []
  rw [walk, hw, Walk.visit]
  exact h

/-- The nodes are listed as the outline meets them. -/
theorem nodes_eq_outline (t : OpTree α) : t.nodes = t.outline.nodes := t.walk_outline.onNodes

/-- So are the leaves. -/
theorem leaves_eq_outline (t : OpTree α) : t.leaves = t.outline.leaves := t.walk_outline.onLeaves

/-! ## Identities and positions -/

/-- No identity is met for the first time twice. -/
theorem nodup_outlineFrom :
    (∀ (t : OpTree α) (met : List Nat), met.Nodup → (met ++ (outlineFrom met t).ids).Nodup) ∧
    ∀ (ts : List (OpTree α)) (met : List Nat), met.Nodup →
      (met ++ (outlinesFrom met ts).flatMap Outline.ids).Nodup := by
  refine induction_list ?leaf ?node ?nil ?cons
  case leaf =>
    intro x met h
    simpa [outlineFrom] using h
  case node =>
    intro id op sources ih met h
    rcases idxOf?_cases met id with ⟨k, hk, -, -⟩ | hnew
    · rw [outlineFrom_again hk]
      simpa using h
    · rw [outlineFrom_first hnew]
      have hmet : (met ++ [id]).Nodup := List.concat_eq_append ▸ h.concat hnew
      simpa using ih (met ++ [id]) hmet
  case nil =>
    intro met h
    simpa [outlinesFrom] using h
  case cons =>
    intro t ts iht ihts met h
    simpa [outlinesFrom] using ihts _ (iht met h)

theorem nodup_ids (t : OpTree α) : (t.nodes.map (·.id)).Nodup := by
  rw [nodes_eq_outline]
  exact nodup_outlineFrom.1 t [] List.nodup_nil

/-- An outline shows a tree, given the nodes in the order of their positions: it has the sources of
a node where the node is in full, and a position of the node where it is not. -/
inductive Outline.Renders (nodes : List (OpNode α)) : OpTree α → Outline α → Prop
  | leaf (x : α) : Renders nodes (.leaf x) (.leaf x)
  | first {id : Nat} {op : Op} {sources : List (OpTree α)} {outlines : List (Outline α)} :
      List.Forall₂ (Renders nodes) sources outlines →
        Renders nodes (node id op sources) (.first ⟨id, op, sources⟩ outlines)
  | again {id : Nat} {op : Op} {sources : List (OpTree α)} {k : Nat} :
      nodes[k]? = some ⟨id, op, sources⟩ → Renders nodes (node id op sources) (.again k)

/-- The outline of a part of a well shared tree shows it, where `nodes` are nodes of the whole that
begin with the ones met. -/
theorem renders_outlineFrom {root : OpTree α} (hw : root.WellShared) {nodes : List (OpNode α)}
    (hnodes : ∀ n ∈ nodes, Subtree (node n.id n.op n.sources) root) :
    (∀ (t : OpTree α) (met : List Nat), Subtree t root →
      met ++ (outlineFrom met t).ids <+: nodes.map (·.id) →
      Outline.Renders nodes t (outlineFrom met t)) ∧
    ∀ (ts : List (OpTree α)) (met : List Nat), (∀ t ∈ ts, Subtree t root) →
      met ++ (outlinesFrom met ts).flatMap Outline.ids <+: nodes.map (·.id) →
      List.Forall₂ (Outline.Renders nodes) ts (outlinesFrom met ts) := by
  refine induction_list ?leaf ?node ?nil ?cons
  case leaf =>
    intro x met _ _
    rw [outlineFrom]
    exact .leaf x
  case node =>
    intro id op sources ih met ht hmet
    rcases idxOf?_cases met id with ⟨k, hk, hget, -⟩ | hnew
    · rw [outlineFrom_again hk] at hmet ⊢
      -- The node of that position has the identity of the tree, so it is the tree.
      have hid : (nodes.map (·.id))[k]? = some id := by
        obtain ⟨rest, hrest⟩ := hmet
        rw [← hrest, List.append_assoc,
          List.getElem?_append_left (List.getElem?_eq_some_iff.mp hget).1, hget]
      obtain ⟨n, hn, rfl⟩ := by simpa using hid
      obtain ⟨rfl, rfl⟩ := hw _ _ _ _ _ ht (hnodes n (List.mem_of_getElem? hn))
      exact .again hn
    · rw [outlineFrom_first hnew] at hmet ⊢
      refine .first (ih _ (fun t hs => (subtree_source hs).trans ht) ?_)
      simpa using hmet
  case nil =>
    intro met _ _
    rw [outlinesFrom]
    exact .nil
  case cons =>
    intro t ts iht ihts met hsub hmet
    rw [outlinesFrom] at hmet ⊢
    rw [List.flatMap_cons, ← List.append_assoc] at hmet
    exact .cons (iht met (hsub t List.mem_cons_self) ((List.prefix_append _ _).trans hmet))
      (ihts _ (fun t ht => hsub t (List.mem_cons_of_mem _ ht)) hmet)

/-- The outline of a well shared tree shows it. -/
theorem renders_outline {t : OpTree α} (hw : t.WellShared) :
    Outline.Renders t.nodes t t.outline := by
  refine (renders_outlineFrom hw fun n hn => subtree_of_mem_nodes hn).1 t [] (.refl t) ?_
  rw [nodes_eq_outline]
  exact List.prefix_refl _

/-- The entries of an outline that shows a tree show its nodes. -/
theorem Outline.Renders.entries {nodes : List (OpNode α)} {t : OpTree α} {o : Outline α}
    (h : o.Renders nodes t) {n : OpNode α} {os : List (Outline α)} (he : (n, os) ∈ o.entries) :
    List.Forall₂ (Outline.Renders nodes) n.sources os := by
  induction t using OpTree.induction generalizing o with
  | leaf x =>
    cases h
    simp [Outline.entries] at he
  | node id op sources ih =>
    cases h with
    | again hk => simp [Outline.entries] at he
    | first hsources =>
      rw [Outline.entries, List.mem_cons, List.mem_flatMap] at he
      rcases he with e | ⟨o, ho, he⟩
      · cases e
        exact hsources
      · obtain ⟨s, hs, hso⟩ := exists_of_forall₂_right hsources ho
        exact ih s hs hso he

/-! ## A node in two places -/

def product : OpTree String := .node 1 (.binary .mul) [.leaf "a", .leaf "b"]

/-- The sum of a product and of the same product rectified. -/
def productTwice : OpTree String :=
  .node 0 (.binary .add) [product, .node 2 (.unary .relu) [product]]

/-- The nodes of that tree. -/
def productTwiceRegister : Register String
  | 0 => some (.binary .add, [product, .node 2 (.unary .relu) [product]])
  | 1 => some (.binary .mul, [.leaf "a", .leaf "b"])
  | 2 => some (.unary .relu, [product])
  | _ => none

theorem wellShared_productTwice : productTwice.WellShared := by
  have hproduct : Registered productTwiceRegister product :=
    .node rfl (by simpa using ⟨.leaf "a", .leaf "b"⟩)
  have hrectified : Registered productTwiceRegister (.node 2 (.unary .relu) [product]) :=
    .node rfl (by simpa using hproduct)
  have hsum : Registered productTwiceRegister productTwice :=
    .node rfl (by simpa using ⟨hproduct, hrectified⟩)
  exact hsum.wellShared

end OpTree

end TensorLoom
