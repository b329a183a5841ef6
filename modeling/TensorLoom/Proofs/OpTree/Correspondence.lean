import TensorLoom.Proofs.OpTree.Walk
import TensorLoom.Proofs.Checked

/-!
# Trees of one form, and trees of known nodes

Two trees correspond if they differ in their leaves and identities alone (`OpTree.Corresponds`):
they have the same operations in the same places, and the leaves in one place are related.

A register gives the one node of each identity. The nodes of a registered tree are those of the
register (`OpTree.Registered`), so it is well shared, and so is any tree that is put together from
registered ones.
-/

namespace TensorLoom.OpTree

variable {α β : Type}

theorem subtree_node {s : OpTree α} {id : Nat} {op : Op} {sources : List (OpTree α)} :
    Subtree s (node id op sources) ↔ s = node id op sources ∨ ∃ t ∈ sources, Subtree s t := by
  constructor
  · rintro (_ | ⟨h, hm⟩)
    · exact .inl rfl
    · exact .inr ⟨_, hm, h⟩
  · rintro (rfl | ⟨t, ht, h⟩)
    · exact .refl _
    · exact .source h ht

theorem subtree_leaf {s : OpTree α} {x : α} : Subtree s (leaf x) ↔ s = leaf x := by
  constructor
  · rintro ⟨⟩
    rfl
  · rintro rfl
    exact .refl _

/-! ## Operations of a tree -/

/-- Every node satisfies a condition on its operation and the number of its sources. -/
def EveryNode (p : Op → Nat → Prop) (t : OpTree α) : Prop :=
  ∀ id op sources, Subtree (node id op sources) t → p op sources.length

theorem everyNode_leaf {p : Op → Nat → Prop} (x : α) : (leaf x).EveryNode p := by
  intro id op sources h
  cases h

theorem everyNode_node {p : Op → Nat → Prop} {id : Nat} {op : Op} {sources : List (OpTree α)} :
    (node id op sources).EveryNode p ↔
      p op sources.length ∧ ∀ t ∈ sources, t.EveryNode p := by
  constructor
  · intro h
    exact ⟨h _ _ _ (.refl _), fun t ht id op sources hs =>
      h id op sources (hs.trans (subtree_source ht))⟩
  · rintro ⟨h, hsources⟩ id op sources hs
    rcases subtree_node.mp hs with e | ⟨t, ht, hs⟩
    · cases e
      exact h
    · exact hsources t ht _ _ _ hs

/-! ## Correspondence -/

/-- The same operations in the same places, over related leaves. -/
inductive Corresponds (R : α → β → Prop) : OpTree α → OpTree β → Prop
  | leaf {x : α} {y : β} : R x y → Corresponds R (leaf x) (leaf y)
  | node {id id' : Nat} {op : Op} {sources : List (OpTree α)} {sources' : List (OpTree β)} :
      List.Forall₂ (Corresponds R) sources sources' →
        Corresponds R (node id op sources) (node id' op sources')

namespace Corresponds

variable {R S : α → β → Prop}

/-- Correspondence over a relation of those leaves that occur. -/
theorem imp {t : OpTree α} (h : ∀ x y, Subtree (OpTree.leaf x) t → R x y → S x y) {u : OpTree β}
    (ht : Corresponds R t u) : Corresponds S t u := by
  induction t using OpTree.induction generalizing u with
  | leaf x =>
    obtain ⟨hxy⟩ := ht
    exact .leaf (h _ _ (.refl _) hxy)
  | node id op sources ih =>
    rcases ht with _ | ⟨hsources⟩
    have hall : ∀ t ∈ sources, ∀ u : OpTree β, Corresponds R t u → Corresponds S t u :=
      fun t ht u => ih t ht fun x y hx => h x y (hx.trans (subtree_source ht))
    exact .node (((List.forall₂_and_left _ _).mpr ⟨hall, hsources⟩).imp fun t u hu => hu.1 u hu.2)

/-- Every leaf of the second tree is related to one of the first. -/
theorem exists_leaf {t : OpTree α} {u : OpTree β} (h : Corresponds R t u) {y : β}
    (hy : Subtree (OpTree.leaf y) u) : ∃ x, Subtree (OpTree.leaf x) t ∧ R x y := by
  induction t using OpTree.induction generalizing u with
  | leaf x =>
    obtain ⟨hxy⟩ := h
    cases subtree_leaf.mp hy
    exact ⟨x, .refl _, hxy⟩
  | node id op sources ih =>
    rcases h with _ | ⟨hsources⟩
    rcases subtree_node.mp hy with e | ⟨u, hu, hy⟩
    · cases e
    · obtain ⟨t, ht, htu⟩ := exists_of_forall₂_right hsources hu
      obtain ⟨x, hx, hxy⟩ := ih t ht htu hy
      exact ⟨x, hx.trans (subtree_source ht), hxy⟩

theorem everyNode {p : Op → Nat → Prop} {t : OpTree α} {u : OpTree β} (h : Corresponds R t u)
    (ht : t.EveryNode p) : u.EveryNode p := by
  induction t using OpTree.induction generalizing u with
  | leaf x =>
    rcases h with ⟨_⟩
    exact everyNode_leaf _
  | node id op sources ih =>
    rcases h with _ | ⟨hsources⟩
    obtain ⟨hop, hall⟩ := everyNode_node.mp ht
    refine everyNode_node.mpr ⟨hsources.length_eq ▸ hop, fun u hu => ?_⟩
    obtain ⟨t, ht, htu⟩ := exists_of_forall₂_right hsources hu
    exact ih t ht htu (hall t ht)

end Corresponds

/-! ## Registers -/

/-- The operation and the sources of the node of each identity. -/
abbrev Register (α : Type) := Nat → Option (Op × List (OpTree α))

/-- The nodes of a tree are those of a register. -/
def Registered (r : Register α) (t : OpTree α) : Prop :=
  ∀ id op sources, Subtree (node id op sources) t → r id = some (op, sources)

namespace Registered

variable {r r' : Register α}

theorem wellShared {t : OpTree α} (h : Registered r t) : t.WellShared := by
  intro id op sources op' sources' hs hs'
  have e := (h id op sources hs).symm.trans (h id op' sources' hs')
  cases e
  exact ⟨rfl, rfl⟩

theorem leaf (x : α) : Registered r (leaf x) := by
  intro id op sources h
  cases h

theorem node {id : Nat} {op : Op} {sources : List (OpTree α)} (hr : r id = some (op, sources))
    (h : ∀ t ∈ sources, Registered r t) : Registered r (node id op sources) := by
  intro id' op' sources' hs
  rcases subtree_node.mp hs with e | ⟨t, ht, hs⟩
  · cases e
    exact hr
  · exact h t ht _ _ _ hs

theorem mono (hr : ∀ id n, r id = some n → r' id = some n) {t : OpTree α} (h : Registered r t) :
    Registered r' t :=
  fun id op sources hs => hr id _ (h id op sources hs)

end Registered

end TensorLoom.OpTree
