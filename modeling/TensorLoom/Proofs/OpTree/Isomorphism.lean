import TensorLoom.Proofs.OpTree.Outline
import Mathlib.Logic.Relation

/-!
# Isomorphic graphs

Two trees match under a pairing of identities if they have the same operations in the same places,
over leaves that are related, and the identities in one place are paired (`OpTree.Matches`). If the
pairing is one to one, nodes that are the same in one tree are the same in the other, so the graphs
that the trees stand for are isomorphic (`OpTree.Isomorphic`).

Well shared trees are isomorphic if their outlines match (`OpTree.Outline.Matches.resolve`), and the
outlines of isomorphic trees do (`OpTree.Matches.outline`). So of trees that match it is enough to
compare the leaves in their order (`OpTree.Isomorphic.of_leaves`).
-/

namespace TensorLoom.OpTree

variable {α β γ : Type} {E : Nat → Nat → Prop} {R S : α → β → Prop}

/-- The same operations in the same places, over paired identities and related leaves. -/
inductive Matches (E : Nat → Nat → Prop) (R : α → β → Prop) : OpTree α → OpTree β → Prop
  | leaf {x : α} {y : β} : R x y → Matches E R (leaf x) (leaf y)
  | node {id id' : Nat} {op : Op} {sources : List (OpTree α)} {sources' : List (OpTree β)} :
      E id id' → List.Forall₂ (Matches E R) sources sources' →
        Matches E R (node id op sources) (node id' op sources')

theorem matches_tree {n : OpNode α} {n' : OpNode β} : Matches E R n.tree n'.tree ↔
    E n.id n'.id ∧ n.op = n'.op ∧ List.Forall₂ (Matches E R) n.sources n'.sources := by
  obtain ⟨id, op, sources⟩ := n
  obtain ⟨id', op', sources'⟩ := n'
  constructor
  · rintro (_ | ⟨hid, hsources⟩)
    exact ⟨hid, rfl, hsources⟩
  · rintro ⟨hid, rfl, hsources⟩
    exact .node hid hsources

/-- The graphs of two trees are isomorphic, over leaves that are related. -/
def Isomorphic (R : α → β → Prop) (t : OpTree α) (u : OpTree β) : Prop :=
  ∃ E, Relator.BiUnique E ∧ Matches E R t u

theorem Matches.flip {t : OpTree α} {u : OpTree β} (h : Matches E R t u) :
    Matches (fun i j => E j i) (fun y x => R x y) u t := by
  induction t using OpTree.induction generalizing u with
  | leaf x =>
    obtain ⟨hxy⟩ := h
    exact .leaf hxy
  | node id op sources ih =>
    rcases h with _ | ⟨hid, hsources⟩
    exact .node hid (forall₂_imp_mem hsources fun t ht u hu => ih t ht hu).flip

theorem Matches.comp {F : Nat → Nat → Prop} {Q : β → γ → Prop} {t : OpTree α} {u : OpTree β}
    {v : OpTree γ} (h : Matches E R t u) (h' : Matches F Q u v) :
    Matches (Relation.Comp E F) (Relation.Comp R Q) t v := by
  induction t using OpTree.induction generalizing u v with
  | leaf x =>
    obtain ⟨hxy⟩ := h
    obtain ⟨hyz⟩ := h'
    exact .leaf ⟨_, hxy, hyz⟩
  | node id op sources ih =>
    rcases h with _ | ⟨hid, hsources⟩
    rcases h' with _ | ⟨hid', hsources'⟩
    have hih := forall₂_imp_mem hsources (S := fun t u => ∀ v, Matches F Q u v →
      Matches (Relation.Comp E F) (Relation.Comp R Q) t v) fun t ht u hu v hv => ih t ht hu hv
    exact .node ⟨_, hid, hid'⟩ (forall₂_trans (fun hu hv => hu _ hv) hih hsources')

namespace Isomorphic

variable {t : OpTree α} {u : OpTree β}

theorem flip (h : Isomorphic R t u) : Isomorphic (fun y x => R x y) u t := by
  obtain ⟨E, ⟨hleft, hright⟩, h⟩ := h
  exact ⟨fun i j => E j i, ⟨fun _ _ _ h₁ h₂ => hright h₁ h₂, fun _ _ _ h₁ h₂ => hleft h₁ h₂⟩,
    h.flip⟩

theorem comp {Q : β → γ → Prop} {v : OpTree γ} (h : Isomorphic R t u) (h' : Isomorphic Q u v) :
    Isomorphic (Relation.Comp R Q) t v := by
  obtain ⟨E, ⟨hleft, hright⟩, h⟩ := h
  obtain ⟨F, ⟨hleft', hright'⟩, h'⟩ := h'
  refine ⟨_, ⟨?_, ?_⟩, h.comp h'⟩
  · rintro i i' k ⟨j, hij, hjk⟩ ⟨j', hij', hjk'⟩
    obtain rfl := hleft' hjk hjk'
    exact hleft hij hij'
  · rintro i k k' ⟨j, hij, hjk⟩ ⟨j', hij', hjk'⟩
    obtain rfl := hright hij hij'
    exact hright' hjk hjk'

end Isomorphic

/-! ## Outlines that match -/

/-- The same operations and positions in the same places of two outlines. -/
inductive Outline.Matches (E : Nat → Nat → Prop) (R : α → β → Prop) :
    Outline α → Outline β → Prop
  | leaf {x : α} {y : β} : R x y → Matches E R (.leaf x) (.leaf y)
  | first {n : OpNode α} {n' : OpNode β} {sources : List (Outline α)}
      {sources' : List (Outline β)} : E n.id n'.id → n.op = n'.op →
      List.Forall₂ (Matches E R) sources sources' →
        Matches E R (.first n sources) (.first n' sources')
  | again (k : Nat) : Matches E R (.again k) (.again k)

namespace Outline.Matches

/-- The nodes in one place of two outlines, and the outlines of their sources. -/
def Beside (E : Nat → Nat → Prop) (R : α → β → Prop) (e : OpNode α × List (Outline α))
    (e' : OpNode β × List (Outline β)) : Prop :=
  E e.1.id e'.1.id ∧ e.1.op = e'.1.op ∧ List.Forall₂ (Outline.Matches E R) e.2 e'.2

theorem entries {o : Outline α} {o' : Outline β} (h : Outline.Matches E R o o') :
    List.Forall₂ (Beside E R) o.entries o'.entries := by
  induction o using Outline.induction generalizing o' with
  | leaf x =>
    rcases h with _ | _ | _
    simp [Outline.entries]
  | again k =>
    rcases h with _ | _ | _
    simp [Outline.entries]
  | first n sources ih =>
    rcases h with _ | ⟨hid, hop, hsources⟩ | _
    rw [Outline.entries, Outline.entries]
    exact .cons ⟨hid, hop, hsources⟩ (forall₂_flatMap hsources fun o ho o' h => ih o ho h)

theorem leaves {o : Outline α} {o' : Outline β} (h : Outline.Matches E R o o') :
    List.Forall₂ R o.leaves o'.leaves := by
  induction o using Outline.induction generalizing o' with
  | leaf x =>
    obtain hxy | _ | _ := h
    simpa [Outline.leaves] using hxy
  | again k =>
    rcases h with _ | _ | _
    simp [Outline.leaves]
  | first n sources ih =>
    rcases h with _ | ⟨hid, hop, hsources⟩ | _
    rw [Outline.leaves, Outline.leaves]
    exact forall₂_flatMap hsources fun o ho o' h => ih o ho h

theorem ids {o : Outline α} {o' : Outline β} (h : Outline.Matches E R o o') :
    List.Forall₂ E o.ids o'.ids := by
  simp only [Outline.ids, Outline.nodes, List.map_map, List.forall₂_map_left_iff,
    List.forall₂_map_right_iff]
  exact h.entries.imp fun _ _ he => he.1

/-- Only the leaves in their order tell whether leaves in the same places are related. -/
theorem of_leaves {o : Outline α} {o' : Outline β} (h : Outline.Matches E R o o')
    (hleaves : List.Forall₂ S o.leaves o'.leaves) : Outline.Matches E S o o' := by
  induction o using Outline.induction generalizing o' with
  | leaf x =>
    rcases h with _ | _ | _
    rw [Outline.leaves, Outline.leaves] at hleaves
    obtain ⟨hxy, -⟩ := List.forall₂_cons.mp hleaves
    exact .leaf hxy
  | again k =>
    rcases h with _ | _ | _
    exact .again k
  | first n sources ih =>
    rcases h with _ | ⟨hid, hop, hsources⟩ | _
    rw [Outline.leaves, Outline.leaves] at hleaves
    refine .first hid hop ?_
    clear hid hop
    induction hsources with
    | nil => exact .nil
    | cons ho _ ihs =>
      rw [List.flatMap_cons, List.flatMap_cons] at hleaves
      obtain ⟨h₁, h₂⟩ := forall₂_of_append ho.leaves.length_eq hleaves
      exact .cons (ih _ List.mem_cons_self ho h₁)
        (ihs (fun o ho => ih o (List.mem_cons_of_mem _ ho)) h₂)

end Outline.Matches

/-- The position of an identity is that of the identity it is paired with. -/
theorem idxOf?_paired (hE : Relator.BiUnique E) {met met' : List Nat}
    (hmet : List.Forall₂ E met met') {id id' : Nat} (hid : E id id') :
    met.idxOf? id = met'.idxOf? id' := by
  induction hmet with
  | nil => rfl
  | @cons i i' met met' hi _ ih =>
    have heq : i = id ↔ i' = id' := by
      constructor
      · rintro rfl
        exact hE.2 hi hid
      · rintro rfl
        exact hE.1 hi hid
    rw [List.idxOf?_cons, List.idxOf?_cons, ih]
    simp only [beq_iff_eq, heq]

/-- Trees that match have outlines that match, behind nodes that are paired. -/
theorem matches_outlineFrom (hE : Relator.BiUnique E) :
    (∀ (t : OpTree α) (u : OpTree β) met met', List.Forall₂ E met met' → Matches E R t u →
      Outline.Matches E R (outlineFrom met t) (outlineFrom met' u)) ∧
    ∀ (ts : List (OpTree α)) (us : List (OpTree β)) met met', List.Forall₂ E met met' →
      List.Forall₂ (Matches E R) ts us →
      List.Forall₂ (Outline.Matches E R) (outlinesFrom met ts) (outlinesFrom met' us) := by
  refine induction_list ?leaf ?node ?nil ?cons
  case leaf =>
    rintro x _ met met' _ ⟨hxy⟩
    rw [outlineFrom, outlineFrom]
    exact .leaf hxy
  case node =>
    rintro id op sources ih _ met met' hmet (_ | ⟨hid, hsources⟩)
    have hidx := idxOf?_paired hE hmet hid
    rcases idxOf?_cases met id with ⟨k, hk, -, -⟩ | hnew
    · rw [outlineFrom_again hk, outlineFrom_again (hidx ▸ hk)]
      exact .again k
    · have hnew' := List.idxOf?_eq_none_iff.mp (hidx ▸ List.idxOf?_eq_none_iff.mpr hnew)
      rw [outlineFrom_first hnew, outlineFrom_first hnew']
      exact .first hid rfl (ih _ _ _ (List.rel_append hmet (.cons hid .nil)) hsources)
  case nil =>
    rintro _ met met' _ ⟨⟩
    rw [outlinesFrom, outlinesFrom]
    exact .nil
  case cons =>
    rintro t ts iht ihts _ met met' hmet (_ | ⟨hu, hus⟩)
    rw [outlinesFrom, outlinesFrom]
    have h := iht _ met met' hmet hu
    exact .cons h (ihts _ _ _ (List.rel_append hmet h.ids) hus)

theorem Matches.outline (hE : Relator.BiUnique E) {t : OpTree α} {u : OpTree β}
    (h : Matches E R t u) : Outline.Matches E R t.outline u.outline :=
  (matches_outlineFrom hE).1 t u [] [] .nil h

/-- Nodes match if their sources do, which are shown in matching outlines. -/
theorem matches_of_sources {nodes : List (OpNode α)} {nodes' : List (OpNode β)} {id id' : Nat}
    {op op' : Op} {sources : List (OpTree α)} {sources' : List (OpTree β)}
    {os : List (Outline α)} {os' : List (Outline β)}
    (hs : List.Forall₂ (Outline.Renders nodes) sources os)
    (hs' : List.Forall₂ (Outline.Renders nodes') sources' os') (hid : E id id') (hop : op = op')
    (ho : List.Forall₂ (Outline.Matches E R) os os')
    (ih : ∀ s ∈ sources, ∀ o o' w, Outline.Renders nodes s o → Outline.Renders nodes' w o' →
      Outline.Matches E R o o' → Matches E R s w) :
    Matches E R (node id op sources) (node id' op' sources') := by
  have h₁ := forall₂_imp_mem hs (S := fun s o => ∀ o' w, Outline.Renders nodes' w o' →
    Outline.Matches E R o o' → Matches E R s w) fun s hsource o hso o' w => ih s hsource o o' w hso
  have h₂ : List.Forall₂ (fun s o' => ∀ w, Outline.Renders nodes' w o' → Matches E R s w)
      sources os' := forall₂_trans (fun h hoo w hw => h _ w hw hoo) h₁ ho
  subst hop
  exact .node hid (forall₂_trans (fun h hw => h _ hw) h₂ hs'.flip)

/-- What is shown in matching places of matching outlines matches. -/
theorem Outline.Matches.resolve {t : OpTree α} {u : OpTree β} (ht : t.WellShared)
    (hu : u.WellShared) (h : Outline.Matches E R t.outline u.outline) (s : OpTree α)
    (o : Outline α) (o' : Outline β) (w : OpTree β) (hs : o.Renders t.nodes s)
    (hw : o'.Renders u.nodes w) (ho : Outline.Matches E R o o') : OpTree.Matches E R s w := by
  -- By induction on the tree and not on the outline: a position is that of a node further up in it.
  induction s using OpTree.induction generalizing o o' w with
  | leaf x =>
    cases hs
    obtain hxy | _ | _ := ho
    cases hw
    exact .leaf hxy
  | node id op sources ih =>
    cases hs with
    | first hsources =>
      rcases ho with _ | ⟨hid, hop, hos⟩ | _
      cases hw with
      | first hsources' => exact matches_of_sources hsources hsources' hid hop hos ih
    | again hk =>
      rcases ho with _ | _ | k
      cases hw with
      | again hk' =>
        rw [nodes_eq_outline, Outline.nodes, List.getElem?_map, Option.map_eq_some_iff] at hk hk'
        obtain ⟨⟨n, os⟩, hentry, rfl⟩ := hk
        obtain ⟨⟨n', os'⟩, hentry', rfl⟩ := hk'
        have hsources := (renders_outline ht).entries (List.mem_of_getElem? hentry)
        have hsources' := (renders_outline hu).entries (List.mem_of_getElem? hentry')
        obtain ⟨hid, hop, hos⟩ := forall₂_getElem? h.entries hentry hentry'
        exact matches_of_sources hsources hsources' hid hop hos ih

/-! ## Trees that match -/

section Matching

variable {t : OpTree α} {u : OpTree β}

theorem Matches.leaves (hE : Relator.BiUnique E) (h : Matches E R t u) :
    List.Forall₂ R t.leaves u.leaves := by
  rw [leaves_eq_outline, leaves_eq_outline]
  exact (h.outline hE).leaves

/-- The distinct nodes match in their order. -/
theorem Matches.nodes (hE : Relator.BiUnique E) (ht : t.WellShared) (hu : u.WellShared)
    (h : Matches E R t u) :
    List.Forall₂ (fun n n' => Matches E R n.tree n'.tree) t.nodes u.nodes := by
  have ho := h.outline hE
  refine List.forall₂_iff_get.mpr ⟨?_, fun k hk hk' => ?_⟩
  · rw [nodes_eq_outline, nodes_eq_outline]
    simpa [Outline.nodes] using ho.entries.length_eq
  · exact ho.resolve ht hu _ (.again k) (.again k) _ (.again (List.getElem?_eq_getElem hk))
      (.again (List.getElem?_eq_getElem hk')) (.again k)

/-- To compare the leaves of trees that match it is enough to compare them in their order. -/
theorem Matches.of_leaves (hE : Relator.BiUnique E) (ht : t.WellShared) (hu : u.WellShared)
    (h : Matches E R t u) (hleaves : List.Forall₂ S t.leaves u.leaves) : Matches E S t u := by
  rw [leaves_eq_outline, leaves_eq_outline] at hleaves
  have ho := (h.outline hE).of_leaves hleaves
  exact ho.resolve ht hu _ _ _ _ (renders_outline ht) (renders_outline hu) ho

theorem Isomorphic.of_leaves (ht : t.WellShared) (hu : u.WellShared) (h : Isomorphic R t u)
    (hleaves : List.Forall₂ S t.leaves u.leaves) : Isomorphic S t u := by
  obtain ⟨E, hE, h⟩ := h
  exact ⟨E, hE, h.of_leaves hE ht hu hleaves⟩

end Matching

end TensorLoom.OpTree
