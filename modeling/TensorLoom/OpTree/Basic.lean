import TensorLoom.Op
import Std.Data.HashSet.Basic

/-!
# Operation trees with shared subtrees

An operation tree holds operations at its nodes and named data at its leaves. Every node carries an
identity, and a subtree that is used in several places is the same node in all of them, so a tree
stands for a graph without cycles. `OpTree.WellShared` says so: nodes of one identity are equal.

A walk meets each node once, however many paths lead to it. It keeps the subtrees still to be
visited on a list and remembers the identities of the nodes visited, and it ends because what is
left on the list gets smaller with each step.

* `OpTree.nodes` lists the distinct nodes, `OpTree.ops` their operations, and `OpTree.leaves` the
  leaves of all of them, each in the order of the first visit from the left.
-/

namespace TensorLoom

/-- An operation tree over leaves that name existing data. -/
inductive OpTree (α : Type) where
  | leaf (value : α)
  | node (id : Nat) (op : Op) (sources : List (OpTree α))

/-- A node of an operation tree. -/
structure OpNode (α : Type) where
  id : Nat
  op : Op
  sources : List (OpTree α)

namespace OpTree

variable {α : Type}

/-- The node at the root, if the tree is not a leaf. -/
def root? : OpTree α → Option (OpNode α)
  | leaf _ => none
  | node id op sources => some ⟨id, op, sources⟩

/-- The subtrees of a tree, itself among them. -/
inductive Subtree : OpTree α → OpTree α → Prop
  | refl (t : OpTree α) : Subtree t t
  | source {s t : OpTree α} {id : Nat} {op : Op} {sources : List (OpTree α)} :
      Subtree s t → t ∈ sources → Subtree s (node id op sources)

/-- Nodes of one identity are the same node. -/
def WellShared (t : OpTree α) : Prop :=
  ∀ id op sources op' sources', Subtree (node id op sources) t →
    Subtree (node id op' sources') t → op = op' ∧ sources = sources'

/-- The size of a joined list, in which one of the two ends is gone. -/
theorem sizeOf_append (xs ys : List (OpTree α)) :
    sizeOf (xs ++ ys) + 1 = sizeOf xs + sizeOf ys := by
  induction xs with
  | nil =>
    simp only [List.nil_append, List.nil.sizeOf_spec]
    omega
  | cons x xs ih =>
    simp only [List.cons_append, List.cons.sizeOf_spec]; omega

/-- What a walk has met so far. -/
structure Walk (α : Type) where
  seen : Std.HashSet Nat := {}
  nodes : Array (OpNode α) := #[]
  leaves : Array α := #[]

/-- Visit the trees of a list from the left, each node before its sources. -/
def Walk.visit (w : Walk α) : List (OpTree α) → Walk α
  | [] => w
  | leaf x :: rest => { w with leaves := w.leaves.push x }.visit rest
  | node id op sources :: rest =>
    if w.seen.contains id then w.visit rest
    else
      { w with seen := w.seen.insert id, nodes := w.nodes.push ⟨id, op, sources⟩ }.visit
        (sources ++ rest)
termination_by pending => sizeOf pending
decreasing_by
  · simp only [List.cons.sizeOf_spec]
    omega
  · simp only [List.cons.sizeOf_spec]
    omega
  · have := sizeOf_append sources rest
    simp only [List.cons.sizeOf_spec, node.sizeOf_spec]
    omega

/-- The walk of a whole tree. -/
def walk (t : OpTree α) : Walk α := Walk.visit {} [t]

/-- The distinct nodes, each before its sources and sources from the left. -/
def nodes (t : OpTree α) : List (OpNode α) := t.walk.nodes.toList

/-- The operations of the distinct nodes. -/
def ops (t : OpTree α) : List Op := t.nodes.map (·.op)

/-- The leaves of the distinct nodes. One that two nodes have is listed twice. -/
def leaves (t : OpTree α) : List α := t.walk.leaves.toList

/-- The first node whose operation satisfies a test. -/
def find? (t : OpTree α) (p : Op → Bool) : Option (OpNode α) :=
  t.nodes.find? fun n => p n.op

end OpTree

end TensorLoom
