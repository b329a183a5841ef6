import TensorLoom.OpTree.Text
import TensorLoom.Proofs.OpTree.Outline

/-!
# References in the text of a tree

The text of a tree is that of its outline, in which a position is written as a reference
(`OpTree.text_eq_outline`). Written out it is a list of marks (`OpTree.Outline.marks`): each node
is opened once, and a reference stands behind the opening of the node that it refers to
(`OpTree.backward_outlineFrom`).

A way to expand the references, which writes for each the text of the node in full with the
references in it expanded in the same way, gives the text of the tree without sharing
(`OpTree.expands_iff`).
-/

namespace TensorLoom

theorem intercalate_cons (divider x : String) (xs : List String) :
    divider.intercalate (x :: xs) = x ++ String.join (xs.map (divider ++ ·)) := by
  induction xs generalizing x with
  | nil => simp
  | cons y ys ih =>
    rw [String.intercalate_cons_cons, ih]
    simp [String.append_assoc]

theorem intercalate_cons_list {β : Type} (divider : β) (xs : List β) (xss : List (List β)) :
    [divider].intercalate (xs :: xss) = xs ++ xss.flatMap (divider :: ·) := by
  induction xss generalizing xs with
  | nil => simp
  | cons ys yss ih =>
    rw [List.intercalate_cons_cons, ih]
    simp

namespace OpTree

variable {α : Type}

/-- The text of a tree without references. -/
def plainText (leafText : α → String) : OpTree α → String
  | leaf x => leafText x
  | node _ op sources =>
    op.text ++ "(" ++ ", ".intercalate (sources.map (plainText leafText)) ++ ")"

/-- The reference to the node of a position. -/
def reference (k : Nat) : String := "#" ++ toString k

namespace Outline

/-- The text of an outline, given that of the leaves and of the references. -/
def text (leafText : α → String) (refer : Nat → String) : Outline α → String
  | leaf x => leafText x
  | first n sources =>
    n.op.text ++ "(" ++ ", ".intercalate (sources.map (text leafText refer)) ++ ")"
  | again k => refer k

end Outline

/-! ## What is written -/

section Writing

variable {leafText : α → String}

/-- The positions of the nodes that were met. -/
structure Positions (positions : Std.HashMap Nat Nat) (met : List Nat) : Prop where
  get : ∀ id : Nat, positions[id]? = met.idxOf? id
  size : positions.size = met.length

theorem Positions.insert {positions : Std.HashMap Nat Nat} {met : List Nat}
    (h : Positions positions met) {id : Nat} (hid : id ∉ met) :
    Positions (positions.insert id positions.size) (met ++ [id]) where
  get i := by
    rw [Std.HashMap.getElem?_insert, h.size, List.idxOf?, List.findIdx?_append, ← List.idxOf?,
      ← h.get i]
    by_cases hi : id = i
    · subst hi
      simp [h.get, List.idxOf?_eq_none_iff.mpr hid]
    · simp [hi]
  size := by
    have hnew : id ∉ positions := by
      rw [← Std.HashMap.contains_iff_mem, Std.HashMap.contains_eq_isSome_getElem?, h.get,
        List.idxOf?_eq_none_iff.mpr hid]
      exact Bool.false_ne_true
    rw [Std.HashMap.size_insert, if_neg hnew, h.size, List.length_append, List.length_singleton]

/-- A tree is written as its outline, the trees of a list behind their dividers, and the sources of
a node between dividers. -/
theorem writeTokens_outline :
    (∀ (t : OpTree α) (positions : Std.HashMap Nat Nat) met, Positions positions met →
      ∀ divider written rest, ∃ positions', Positions positions' (met ++ (outlineFrom met t).ids) ∧
        writeTokens leafText positions written (.tree divider t :: rest) =
          writeTokens leafText positions'
            (written ++ divider ++ (outlineFrom met t).text leafText reference) rest) ∧
    ∀ (ts : List (OpTree α)) (positions : Std.HashMap Nat Nat) met, Positions positions met →
      (∀ divider written rest, ∃ positions',
        Positions positions' (met ++ (outlinesFrom met ts).flatMap Outline.ids) ∧
        writeTokens leafText positions written (ts.map (.tree divider) ++ rest) =
          writeTokens leafText positions' (written ++ String.join
            ((outlinesFrom met ts).map fun o => divider ++ o.text leafText reference)) rest) ∧
      ∀ written rest, ∃ positions',
        Positions positions' (met ++ (outlinesFrom met ts).flatMap Outline.ids) ∧
        writeTokens leafText positions written (sourceTokens ts ++ rest) =
          writeTokens leafText positions' (written ++ ", ".intercalate
            ((outlinesFrom met ts).map (Outline.text leafText reference))) rest := by
  refine induction_list ?leaf ?node ?nil ?cons
  case leaf =>
    intro x positions met h divider written rest
    rw [outlineFrom]
    exact ⟨positions, by simpa using h, by rw [writeTokens, Outline.text]⟩
  case node =>
    intro id op sources ih positions met h divider written rest
    rcases idxOf?_cases met id with ⟨k, hk, -, -⟩ | hnew
    · rw [outlineFrom_again hk]
      refine ⟨positions, by simpa using h, ?_⟩
      rw [writeTokens, h.get, hk]
      simp [Outline.text, reference, String.append_assoc]
    · obtain ⟨positions', h', e⟩ := (ih _ _ (h.insert hnew)).2
        (written ++ divider ++ op.text ++ "(") (.close :: rest)
      rw [outlineFrom_first hnew]
      refine ⟨positions', by simpa using h', ?_⟩
      rw [writeTokens, h.get, List.idxOf?_eq_none_iff.mpr hnew, e, writeTokens, Outline.text]
      simp [String.append_assoc]
  case nil =>
    intro positions met h
    refine ⟨fun divider written rest => ⟨positions, by simpa [outlinesFrom] using h, ?_⟩,
      fun written rest => ⟨positions, by simpa [outlinesFrom] using h, ?_⟩⟩
    · simp [outlinesFrom]
    · simp [outlinesFrom, sourceTokens]
  case cons =>
    intro t ts iht ihts positions met h
    constructor
    · intro divider written rest
      obtain ⟨positions₁, h₁, e₁⟩ := iht positions met h divider written
        (ts.map (.tree divider) ++ rest)
      obtain ⟨positions₂, h₂, e₂⟩ := (ihts positions₁ _ h₁).1 divider
        (written ++ divider ++ (outlineFrom met t).text leafText reference) rest
      refine ⟨positions₂, by simpa [outlinesFrom] using h₂, ?_⟩
      rw [List.map_cons, List.cons_append, e₁, e₂]
      simp [outlinesFrom, String.append_assoc]
    · intro written rest
      obtain ⟨positions₁, h₁, e₁⟩ := iht positions met h "" written
        (ts.map (.tree ", ") ++ rest)
      obtain ⟨positions₂, h₂, e₂⟩ := (ihts positions₁ _ h₁).1 ", "
        (written ++ "" ++ (outlineFrom met t).text leafText reference) rest
      refine ⟨positions₂, by simpa [outlinesFrom] using h₂, ?_⟩
      rw [sourceTokens, List.cons_append, e₁, e₂, outlinesFrom, List.map_cons, intercalate_cons]
      simp [String.append_assoc, Function.comp_def]

/-- The text of a tree is that of its outline. -/
theorem text_eq_outline (leafText : α → String) (t : OpTree α) :
    t.text leafText = t.outline.text leafText reference := by
  obtain ⟨positions, -, e⟩ := writeTokens_outline.1 t {} [] ⟨fun _ => by simp, rfl⟩ "" "" []
  rw [text, e, writeTokens, outline]
  simp

end Writing

/-! ## Marks -/

/-- A piece of the text of an outline. -/
inductive Mark (α : Type) where
  /-- The operation of a node in full, and the bracket before its first source. -/
  | opening (node : OpNode α)
  | leaf (value : α)
  /-- A reference to a node. -/
  | again (position : Nat)
  /-- What stands between two sources. -/
  | divider
  /-- The bracket behind the last source. -/
  | closing

namespace Mark

/-- What is written for a mark. -/
def text (leafText : α → String) (refer : Nat → String) : Mark α → String
  | opening n => n.op.text ++ "("
  | leaf x => leafText x
  | again k => refer k
  | divider => ", "
  | closing => ")"

/-- The node that is opened. -/
def opening? : Mark α → Option (OpNode α)
  | opening n => some n
  | _ => none

/-- The nodes opened by some marks. -/
def openings (marks : List (Mark α)) : List (OpNode α) := marks.filterMap opening?

@[simp] theorem openings_nil : openings ([] : List (Mark α)) = [] := rfl

@[simp] theorem openings_append (ms ms' : List (Mark α)) :
    openings (ms ++ ms') = openings ms ++ openings ms' := List.filterMap_append

@[simp] theorem openings_opening (n : OpNode α) (ms : List (Mark α)) :
    openings (opening n :: ms) = n :: openings ms := rfl

@[simp] theorem openings_leaf (x : α) (ms : List (Mark α)) :
    openings (leaf x :: ms) = openings ms := rfl

@[simp] theorem openings_again (k : Nat) (ms : List (Mark α)) :
    openings (again k :: ms) = openings ms := rfl

@[simp] theorem openings_divider (ms : List (Mark α)) :
    openings (divider :: ms) = openings ms := rfl

@[simp] theorem openings_closing (ms : List (Mark α)) :
    openings (closing :: ms) = openings ms := rfl

theorem openings_intercalate (mss : List (List (Mark α))) :
    openings ([divider].intercalate mss) = mss.flatMap openings := by
  induction mss with
  | nil => rfl
  | cons ms mss ih =>
    cases mss with
    | nil => simp
    | cons ms' mss =>
      rw [List.intercalate_cons_cons, openings_append, openings_append, ih, List.flatMap_cons]
      simp

/-- Behind `n` openings each reference is to a node that was opened before it. -/
def Backward : Nat → List (Mark α) → Prop
  | _, [] => True
  | n, opening _ :: ms => Backward (n + 1) ms
  | n, again k :: ms => k < n ∧ Backward n ms
  | n, leaf _ :: ms => Backward n ms
  | n, divider :: ms => Backward n ms
  | n, closing :: ms => Backward n ms

theorem backward_append {n : Nat} {ms ms' : List (Mark α)} :
    Backward n (ms ++ ms') ↔ Backward n ms ∧ Backward (n + (openings ms).length) ms' := by
  induction ms generalizing n with
  | nil => simp [Backward]
  | cons m ms ih =>
    cases m with
    | opening n' =>
      rw [List.cons_append, Backward, Backward, ih, openings_opening, List.length_cons,
        Nat.add_right_comm, Nat.add_assoc]
    | again k => rw [List.cons_append, Backward, Backward, ih, openings_again, and_assoc]
    | leaf x => rw [List.cons_append, Backward, Backward, ih, openings_leaf]
    | divider => rw [List.cons_append, Backward, Backward, ih, openings_divider]
    | closing => rw [List.cons_append, Backward, Backward, ih, openings_closing]

end Mark

namespace Outline

/-- The marks of which the text of an outline consists. -/
def marks : Outline α → List (Mark α)
  | leaf x => [.leaf x]
  | first n sources => .opening n :: [.divider].intercalate (sources.map marks) ++ [.closing]
  | again k => [.again k]

theorem join_intercalate (f : Mark α → String) (mss : List (List (Mark α))) :
    String.join (([.divider].intercalate mss).map f) =
      (f .divider).intercalate (mss.map fun ms => String.join (ms.map f)) := by
  induction mss with
  | nil => simp
  | cons ms mss ih =>
    cases mss with
    | nil => simp
    | cons ms' mss =>
      rw [List.intercalate_cons_cons, List.map_append, List.map_append, String.join_append,
        String.join_append, ih]
      simp [String.intercalate_cons_cons, String.append_assoc]

/-- The text of an outline is that of its marks. -/
theorem text_eq_join (leafText : α → String) (refer : Nat → String) (o : Outline α) :
    o.text leafText refer = String.join (o.marks.map (Mark.text leafText refer)) := by
  induction o using induction with
  | leaf x => simp [text, marks, Mark.text]
  | again k => simp [text, marks, Mark.text]
  | first n sources ih =>
    rw [text, marks, List.map_congr_left ih]
    simp [join_intercalate, Mark.text, String.append_assoc, Function.comp_def]

/-- The nodes are opened in the order in which they are first met. -/
theorem openings_marks (o : Outline α) : Mark.openings o.marks = o.nodes := by
  induction o using induction with
  | leaf x => simp [marks]
  | again k => simp [marks]
  | first n sources ih =>
    have h : (sources.map marks).flatMap Mark.openings = sources.flatMap nodes := by
      rw [List.flatMap_map]
      exact List.flatMap_congr ih
    simp [marks, Mark.openings_intercalate, h]

end Outline

/-- In an outline behind some nodes each position is that of a node met before. -/
theorem backward_outlineFrom :
    (∀ (t : OpTree α) (met : List Nat), Mark.Backward met.length (outlineFrom met t).marks) ∧
    ∀ (ts : List (OpTree α)) (met : List Nat),
      Mark.Backward met.length
        (((outlinesFrom met ts).map Outline.marks).flatMap (.divider :: ·)) ∧
      Mark.Backward met.length
        ([.divider].intercalate ((outlinesFrom met ts).map Outline.marks)) := by
  refine induction_list ?leaf ?node ?nil ?cons
  case leaf =>
    intro x met
    simp [outlineFrom, Outline.marks, Mark.Backward]
  case node =>
    intro id op sources ih met
    rcases idxOf?_cases met id with ⟨k, hk, hget, -⟩ | hnew
    · rw [outlineFrom_again hk, Outline.marks]
      exact ⟨(List.getElem?_eq_some_iff.mp hget).1, trivial⟩
    · rw [outlineFrom_first hnew, Outline.marks]
      have h := (ih (met ++ [id])).2
      rw [List.length_append, List.length_singleton] at h
      exact Mark.backward_append.mpr ⟨h, trivial⟩
  case nil =>
    intro met
    simp [outlinesFrom, Mark.Backward]
  case cons =>
    intro t ts iht ihts met
    have hrest := (ihts (met ++ (outlineFrom met t).ids)).1
    have hlength : (met ++ (outlineFrom met t).ids).length =
        met.length + (Mark.openings (outlineFrom met t).marks).length := by
      simp [Outline.ids, Outline.openings_marks]
    rw [hlength] at hrest
    have h := Mark.backward_append.mpr ⟨iht met, hrest⟩
    rw [outlinesFrom, List.map_cons, intercalate_cons_list]
    exact ⟨h, h⟩

/-- A node is opened before each reference to it. -/
theorem opened_of_again (t : OpTree α) {before after : List (Mark α)} {k : Nat}
    (h : t.outline.marks = before ++ .again k :: after) :
    ∃ n, t.nodes[k]? = some n ∧ .opening n ∈ before := by
  have hback : Mark.Backward 0 (before ++ .again k :: after) := h ▸ backward_outlineFrom.1 t []
  obtain ⟨-, hk, -⟩ := Mark.backward_append.mp hback
  rw [Nat.zero_add] at hk
  refine ⟨(Mark.openings before)[k], ?_, ?_⟩
  · rw [nodes_eq_outline, ← Outline.openings_marks, h, Mark.openings_append,
      List.getElem?_append_left hk, List.getElem?_eq_getElem hk]
  · obtain ⟨m, hm, e⟩ := List.mem_filterMap.mp (List.getElem_mem hk)
    cases m with
    | opening n =>
      obtain rfl := Option.some.inj e
      exact hm
    | leaf x => cases e
    | again k => cases e
    | divider => cases e
    | closing => cases e

/-! ## Expanding the references -/

section Expanding

variable {leafText : α → String} {expand : Nat → String}

/-- The text of a node in full is plain if those of its sources are. -/
theorem Outline.text_first {nodes : List (OpNode α)} {id : Nat} {op : Op}
    {sources : List (OpTree α)} {os : List (Outline α)}
    (h : List.Forall₂ (Outline.Renders nodes) sources os)
    (ih : ∀ s ∈ sources, ∀ o, Outline.Renders nodes s o →
      o.text leafText expand = s.plainText leafText) :
    (first ⟨id, op, sources⟩ os).text leafText expand =
      (node id op sources).plainText leafText := by
  have heq : List.Forall₂ (fun s o => o.text leafText expand = s.plainText leafText) sources os :=
    ((List.forall₂_and_left _ _).mpr ⟨ih, h⟩).imp fun s o hs => hs.1 o hs.2
  have hmap : os.map (Outline.text leafText expand) = sources.map (plainText leafText) := by
    clear h ih
    induction heq with
    | nil => rfl
    | cons he _ ih => rw [List.map_cons, List.map_cons, he, ih]
  rw [Outline.text, plainText, hmap]

/-- With the plain texts of the nodes for the references the text is plain. -/
theorem Outline.Renders.text_eq_plain {nodes : List (OpNode α)}
    (hexpand : ∀ (k : Nat) n, nodes[k]? = some n → expand k = n.tree.plainText leafText)
    {t : OpTree α} {o : Outline α} (h : o.Renders nodes t) :
    o.text leafText expand = t.plainText leafText := by
  induction t using OpTree.induction generalizing o with
  | leaf x =>
    cases h
    rw [Outline.text, plainText]
  | node id op sources ih =>
    cases h with
    | again hk =>
      rw [Outline.text]
      exact hexpand _ _ hk
    | first hsources => exact text_first hsources fun s hs o ho => ih s hs ho

/-- A way to expand the references in the text of a tree: a reference to a node becomes the text of
the node in full, in which the references are expanded in the same way. -/
def Expands (leafText : α → String) (t : OpTree α) (expand : Nat → String) : Prop :=
  ∀ (k : Nat) n os, t.outline.entries[k]? = some (n, os) →
    expand k = (Outline.first n os).text leafText expand

/-- That is to expand them to the plain texts of the nodes. -/
theorem expands_iff {t : OpTree α} (hw : t.WellShared) :
    Expands leafText t expand ↔
      ∀ (k : Nat) n, t.nodes[k]? = some n → expand k = n.tree.plainText leafText := by
  have hshown := renders_outline hw
  have hnodes : t.nodes = t.outline.entries.map (·.1) := nodes_eq_outline t
  constructor
  · intro hexpand
    -- By induction on the tree and not on the outline: a reference is to a node further up in it.
    have hplain : ∀ (s : OpTree α) o, Outline.Renders t.nodes s o →
        o.text leafText expand = s.plainText leafText := by
      intro s
      induction s using OpTree.induction with
      | leaf x =>
        rintro _ ⟨⟩
        rw [Outline.text, plainText]
      | node id op sources ih =>
        rintro _ (_ | hsources | hk)
        · exact Outline.text_first hsources ih
        · rw [hnodes, List.getElem?_map, Option.map_eq_some_iff] at hk
          obtain ⟨⟨n, os⟩, hentry, rfl⟩ := hk
          rw [Outline.text, hexpand _ _ _ hentry]
          exact Outline.text_first (hshown.entries (List.mem_of_getElem? hentry)) ih
    intro k n hn
    have h := hplain n.tree (.again k) (.again hn)
    rwa [Outline.text] at h
  · intro hexpand k n os hentry
    have hn : t.nodes[k]? = some n := by
      rw [hnodes, List.getElem?_map, hentry]
      rfl
    have hentries := hshown.entries (List.mem_of_getElem? hentry)
    rw [hexpand k n hn]
    exact (Outline.Renders.text_eq_plain hexpand (t := n.tree) (.first hentries)).symm

end Expanding

/-- There is a way to expand the references. -/
theorem exists_expands {t : OpTree α} (hw : t.WellShared) (leafText : α → String) :
    ∃ expand, Expands leafText t expand := by
  refine ⟨fun k => match t.nodes[k]? with
    | some n => n.tree.plainText leafText
    | none => "", (expands_iff hw).mpr fun k n hn => ?_⟩
  rw [hn]

/-- The text of a well shared tree holds each distinct node in full, once and in the order of
`OpTree.nodes`, and in its other places a reference to it, which stands behind the beginning of the
node in full. With the references expanded the text of each node is that of the tree without
sharing, and so is the text of the whole. -/
theorem text_back_references {t : OpTree α} (hw : t.WellShared) (leafText : α → String) :
    t.text leafText = t.outline.text leafText reference ∧
    t.text leafText = String.join (t.outline.marks.map (Mark.text leafText reference)) ∧
    t.outline.Renders t.nodes t ∧
    Mark.openings t.outline.marks = t.nodes ∧
    (t.nodes.map (·.id)).Nodup ∧ (∀ n : OpNode α, n ∈ t.nodes ↔ Subtree n.tree t) ∧
    (∀ before k after, t.outline.marks = before ++ .again k :: after →
      ∃ n, t.nodes[k]? = some n ∧ .opening n ∈ before) ∧
    (∃ expand, Expands leafText t expand) ∧
    ∀ expand, Expands leafText t expand →
      (∀ (k : Nat) n, t.nodes[k]? = some n → expand k = n.tree.plainText leafText) ∧
        t.outline.text leafText expand = t.plainText leafText := by
  refine ⟨text_eq_outline leafText t, ?_, renders_outline hw, ?_, nodup_ids t, fun n => ?_,
    fun before k after h => opened_of_again t h, exists_expands hw leafText, fun expand h => ?_⟩
  · rw [text_eq_outline, Outline.text_eq_join]
  · rw [Outline.openings_marks, nodes_eq_outline]
  · exact ⟨fun h => subtree_of_mem_nodes h, fun h => mem_nodes hw h⟩
  · have hplain := (expands_iff hw).mp h
    exact ⟨hplain, (renders_outline hw).text_eq_plain hplain⟩

theorem text_back_references_productTwice :
    productTwice.WellShared ∧ productTwice.text id = "Add(Mul(a, b), Relu(#1))" ∧
      ∃ expand, Expands id productTwice expand ∧ expand 1 = "Mul(a, b)" ∧
        productTwice.outline.text id expand = "Add(Mul(a, b), Relu(Mul(a, b)))" := by
  obtain ⟨htext, -, -, -, -, -, -, ⟨expand, h⟩, hexpand⟩ :=
    text_back_references wellShared_productTwice id
  refine ⟨wellShared_productTwice, ?_, expand, h, ?_, ?_⟩
  · rw [htext]
    change productTwice.outline.text (fun x => x) reference = _
    cbv
  · rw [(hexpand expand h).1 1 ⟨1, .binary .mul, [.leaf "a", .leaf "b"]⟩ (by cbv)]
    change plainText (fun x => x) _ = _
    cbv
  · rw [(hexpand expand h).2]
    change plainText (fun x => x) _ = _
    cbv

end OpTree

end TensorLoom
