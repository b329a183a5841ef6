import TensorLoom.Proofs.Kernel.Arrangement

/-!
# What a tree says that its kernel computes

A tree is evaluated as it stands, in the axes of its leaves and without any kernel (`Ast.value`). A
leaf is read through its own tracker, and a reduction folds over the reduced axes in row-major
order. The kernel of the tree computes this as long as its layout is that of the leaves
(`Kernel.evaluated_initial`), and the layout that lowering gives it keeps the order of every fold,
so the lowered kernel computes it as well (`Kernel.evaluate_ofAst`).
-/

namespace TensorLoom

open Shape (InRange indices)

namespace Shape

/-- The indices of a space that a reduction to a shape folds for an index of the shape: the entries
on the reduced axes run through all of their values, in row-major order. -/
def reducedFrom (full shape idx : List Nat) : List (List Nat) :=
  (indices (List.zipWith (fun f d => if d = 1 then f else 1) full shape)).map
    (List.zipWith (· + ·) idx)

theorem flatMap_range_ite {β : Type} {n i : Nat} (h : i < n) (g : Nat → List β) :
    ((List.range n).flatMap fun j => if j = i then g j else []) = g i := by
  induction n with
  | zero => exact absurd h (Nat.not_lt_zero _)
  | succ n ih =>
    rw [List.range_succ, List.flatMap_append, List.flatMap_singleton]
    rcases Nat.lt_succ_iff_lt_or_eq.mp h with h | rfl
    · rw [ih h, if_neg (by omega), List.append_nil]
    · rw [if_pos rfl, List.flatMap_eq_nil_iff.mpr, List.nil_append]
      intro j hj
      rw [if_neg (Nat.ne_of_lt (List.mem_range.mp hj))]

/-- These are the indices that are sent to the one of the shape, in the order in which the space has
them. -/
theorem reducedFrom_eq_filter {full shape idx : List Nat}
    (h : List.Forall₂ (fun d f => d = 1 ∨ d = f) shape full) (hi : InRange idx shape) :
    reducedFrom full shape idx = (indices full).filter (broadcastIndex · shape = idx) := by
  induction h generalizing idx with
  | nil =>
    cases hi
    rfl
  | @cons d f shape full hd _ ih =>
    cases hi with
    | @cons i _ is _ hi his =>
      have ih := ih his
      have htail : ∀ j, ((indices full).map (j :: ·)).filter
          (broadcastIndex · (d :: shape) = i :: is) =
            if (if d = 1 then 0 else j) = i then (reducedFrom full shape is).map (j :: ·)
            else [] := by
        intro j
        have hhead : ∀ t, broadcastIndex (j :: t) (d :: shape) =
            (if d = 1 then 0 else j) :: broadcastIndex t shape := fun _ => rfl
        rw [List.filter_map, ih]
        by_cases hj : (if d = 1 then 0 else j) = i
        · rw [if_pos hj]
          refine congrArg _ (List.filter_congr fun t _ => ?_)
          rw [Function.comp_apply, hhead, hj, decide_eq_decide, List.cons.injEq, eq_self,
            true_and]
        · rw [if_neg hj, List.filter_eq_nil_iff.mpr fun t _ => ?_, List.map_nil]
          rw [Function.comp_apply, hhead, decide_eq_true_iff, List.cons.injEq]
          exact fun hand => hj hand.1
      rw [indices, List.filter_flatMap, List.flatMap_congr fun j _ => htail j, reducedFrom,
        List.zipWith_cons_cons, indices, List.map_flatMap]
      by_cases h1 : d = 1
      · subst h1
        refine List.flatMap_congr fun j _ => ?_
        rw [if_pos rfl, if_pos (show 0 = i by omega), reducedFrom, List.map_map, List.map_map]
        refine List.map_congr_left fun t _ => ?_
        simp [show i = 0 by omega]
      · obtain rfl := hd.resolve_left h1
        simp only [if_neg h1]
        rw [flatMap_range_ite hi fun j => (reducedFrom full shape is).map (j :: ·), reducedFrom,
          show List.range 1 = [0] from rfl, List.flatMap_singleton, List.map_map, List.map_map]
        rfl

end Shape

namespace OpTree

variable {α : Type}

/-- A test that one node alone passes finds that node. -/
theorem find?_eq_some_of_unique {t : OpTree α} (hw : t.WellShared) {p : Op → Bool} {id : Nat}
    {op : Op} {sources : List (OpTree α)} (hs : Subtree (node id op sources) t) (hp : p op = true)
    (hunique : ∀ id' op' sources', Subtree (node id' op' sources') t → p op' = true →
      id' = id ∧ op' = op ∧ sources' = sources) : t.find? p = some ⟨id, op, sources⟩ := by
  cases hfind : t.find? p with
  | none => exact absurd hp (List.find?_eq_none.mp hfind _ (mem_nodes hw hs))
  | some n =>
    obtain ⟨hn, hpn⟩ := subtree_of_find? hfind
    obtain ⟨hid, hop, hsources⟩ := hunique _ _ _ hn hpn
    rw [← hid, ← hop, ← hsources]

/-- A node of a mapped tree comes from one with the same identity and operation. -/
theorem exists_node_of_subtree_map {β : Type} {f : α → β} {t : OpTree α} {id : Nat} {op : Op}
    {sources : List (OpTree β)} (h : Subtree (node id op sources) (t.map f)) :
    ∃ sources', Subtree (node id op sources') t ∧ sources = sources'.map (map f) := by
  obtain ⟨s, hs, hu⟩ := exists_of_subtree_map h
  obtain ⟨sources', rfl, hsources⟩ := exists_node_of_map hu
  exact ⟨sources', hs, hsources⟩

end OpTree

namespace Ast

section Value

variable (contents : Operand → Array Float32) (full : List Nat)

/-- The element of a leaf at an index of the space. Unit axes are broadcast, and it is 0 outside a
mask. -/
def element (o : Operand) (idx : List Nat) : Float32 :=
  (o.tracker.read (broadcastIndex idx o.shape)).elim 0 fun i => (contents o).getD i 0

/-- The value of a tree at an index. -/
def value : Ast → List Nat → Float32
  | .leaf o, idx => element contents o idx
  | .node _ (.unary op) [x], idx => op.apply (value x idx)
  | .node _ (.binary op) [a, b], idx => op.apply (value a idx) (value b idx)
  | .node _ (.reduce op shape) [x], idx =>
    ((Shape.reducedFrom full shape idx).map (value x)).foldl op.combine op.identity
  | _, _ => 0

/-- The elements that a tree computes, in row-major order of the shape of its result. -/
def elements (root : Ast) : Array Float32 :=
  ((indices (resultShape root full)).map (value contents full root)).toArray

end Value

/-- The leaves that the kernel of a tree reads, each once. -/
def inputs (ast : Ast) : List Operand := (belowReshape ast).1.leaves.eraseDups

theorem eq_of_countP_le_one {α : Type} {p : α → Bool} {xs : List α} (h : xs.countP p ≤ 1) {a b : α}
    (ha : a ∈ xs) (hpa : p a = true) (hb : b ∈ xs) (hpb : p b = true) : a = b := by
  rw [List.countP_eq_length_filter] at h
  have ha := List.mem_filter.mpr ⟨ha, hpa⟩
  have hb := List.mem_filter.mpr ⟨hb, hpb⟩
  generalize xs.filter p = found at h ha hb
  match found with
  | [] => cases ha
  | [c] => rw [List.mem_singleton.mp ha, List.mem_singleton.mp hb]
  | _ :: _ :: _ => exact absurd h (by simp)

/-- A tree that is lowered has one reduction at most. -/
theorem reduction_unique {root : Ast} (hw : root.WellShared) (h : checkOps root = .ok ())
    {id id' : Nat} {op op' : Op} {sources sources' : List Ast}
    (hs : OpTree.Subtree (.node id op sources) root) (hop : op.isReduce = true)
    (hs' : OpTree.Subtree (.node id' op' sources') root) (hop' : op'.isReduce = true) :
    id = id' ∧ op = op' ∧ sources = sources' := by
  unfold checkOps at h
  split at h
  · cases h
  dsimp only at h
  split at h
  · rename_i hcount
    rw [OpTree.ops, List.countP_map] at hcount
    cases eq_of_countP_le_one hcount (OpTree.mem_nodes hw hs) hop (OpTree.mem_nodes hw hs') hop'
    exact ⟨rfl, rfl, rfl⟩
  · cases h

end Ast

namespace Kernel

variable {contents : Operand → Array Float32} {full : List Nat} {root : Ast} {output : Buffer}

/-- The value function of a numbered tree is the value of the tree, at the indices at which the
reduction stands for its value. -/
theorem valueFn_map {t : Ast} {load : Nat → Checked (List Nat → Float32)} {number : Operand → Nat}
    {reduced : List Nat → Float32} {P : List Nat → Prop} (harity : t.Saturated)
    (hops : ∀ id op sources, OpTree.Subtree (.node id op sources) t → Ast.isLowered op = true)
    (hload : ∀ o, OpTree.Subtree (.leaf o) t → load (number o) = .ok (Ast.element contents o))
    (hreduced : ∀ id op sources, OpTree.Subtree (.node id op sources) t → op.isReduce = true →
      ∀ idx, P idx → reduced idx = Ast.value contents full (.node id op sources) idx) :
    ∃ g, valueFn load reduced (t.map number) = .ok g ∧
      ∀ idx, P idx → g idx = Ast.value contents full t idx := by
  induction t using OpTree.induction with
  | leaf o =>
    rw [OpTree.map, valueFn, hload o (.refl _)]
    exact ⟨_, rfl, fun idx _ => by rw [Ast.value]⟩
  | node id op sources ih =>
    have hlength := harity id op sources (.refl _)
    have hlowered := hops id op sources (.refl _)
    have hsource : ∀ s ∈ sources, ∃ g, valueFn load reduced (s.map number) = .ok g ∧
        ∀ idx, P idx → g idx = Ast.value contents full s idx := fun s hs =>
      ih s hs (harity.subtree (OpTree.subtree_source hs))
        (fun id op sources hn => hops id op sources (hn.trans (OpTree.subtree_source hs)))
        (fun o ho => hload o (ho.trans (OpTree.subtree_source hs)))
        fun id op sources hn => hreduced id op sources (hn.trans (OpTree.subtree_source hs))
    rw [OpTree.map]
    cases op with
    | unary op =>
      obtain ⟨x, rfl⟩ := List.length_eq_one_iff.mp hlength
      obtain ⟨g, hg, hvalue⟩ := hsource x (by simp)
      rw [List.map_singleton, valueFn, hg]
      exact ⟨_, rfl, fun idx hi => by rw [Ast.value, hvalue idx hi]⟩
    | binary op =>
      obtain ⟨a, b, rfl⟩ := List.length_eq_two.mp hlength
      obtain ⟨f, hf, hvalue⟩ := hsource a (by simp)
      obtain ⟨g, hg, hvalue'⟩ := hsource b (by simp)
      rw [List.map_cons, List.map_singleton, valueFn, hf, hg]
      exact ⟨_, rfl, fun idx hi => by rw [Ast.value, hvalue idx hi, hvalue' idx hi]⟩
    | reduce op shape =>
      refine ⟨reduced, ?_, hreduced id _ sources (.refl _) rfl⟩
      rw [valueFn]
      · rfl
      all_goals
        intros
        rename_i h
        cases h
    | load => cases hlowered
    | movement m => cases hlowered
    | convolution args => cases hlowered

/-- The number of a leaf among the operands of the kernel. -/
theorem loadFn_initial {o : Operand} (ho : o ∈ root.leaves) :
    (initial root full output).loadFn (root.leaves.eraseDups.map contents)
        (1 + root.leaves.eraseDups.findIdx (· = o)) = .ok (Ast.element contents o) := by
  have hmem : o ∈ root.leaves.eraseDups := List.mem_eraseDups.mpr ho
  have hlt := List.findIdx_lt_length_of_exists (p := (decide <| · = o)) ⟨o, hmem, by simp⟩
  have hget := List.findIdx_getElem (w := hlt)
  generalize root.leaves.eraseDups.findIdx (· = o) = i at hlt hget
  have hget : root.leaves.eraseDups[i] = o := of_decide_eq_true hget
  have hoperand : entry (initial root full output).operands (1 + i) = .ok o := by
    rw [entry_eq_ok, Nat.add_comm]
    show root.leaves.eraseDups[i]? = some o
    rw [List.getElem?_eq_getElem hlt, hget]
  have hdata : entry (root.leaves.eraseDups.map contents) i = .ok (contents o) := by
    rw [entry_eq_ok, List.getElem?_map, List.getElem?_eq_getElem hlt, hget]
    rfl
  have hnumber : Word.sub (1 + i) 1 = .ok i :=
    Word.sub_eq_ok.mpr ⟨Nat.le_add_right 1 i, Nat.add_sub_cancel_left 1 i⟩
  refine bind_eq_ok.mpr ⟨o, hoperand, bind_eq_ok.mpr ⟨i, hnumber, bind_eq_ok.mpr
    ⟨contents o, hdata, congrArg Except.ok (funext fun idx => ?_)⟩⟩⟩
  rw [Ast.element]
  cases o.tracker.read (broadcastIndex idx o.shape) <;> rfl

theorem checkData_initial (hcontents : ∀ o ∈ root.leaves, (contents o).size = o.buffer.len) :
    (initial root full output).checkData (root.leaves.eraseDups.map contents) = .ok () := by
  have hsizes : List.Forall₂ (fun o xs => o.buffer.len = xs.size) root.leaves.eraseDups
      (root.leaves.eraseDups.map contents) := by
    rw [List.forall₂_map_right_iff, List.forall₂_same]
    exact fun o ho => (hcontents o (List.mem_eraseDups.mp ho)).symm
  rw [checkData, if_neg (by simp [initial]), List.find?_eq_none.mpr]
  rintro ⟨o, xs⟩ hmem
  simpa using List.forall₂_zip hsizes hmem

theorem shape_output_initial :
    (initial root full output).output.shape = Ast.resultShape root full := View.shape_row _

/-- The position of an index in the output. -/
theorem outCell_initial {idx : List Nat} (hi : InRange idx (Ast.resultShape root full)) :
    (initial root full output).outCell idx = Shape.position (Ast.resultShape root full) idx := by
  rw [outCell, shape_output_initial, Broadcasts.index_of_inRange hi]
  show ((Tracker.mk (.row (Ast.resultShape root full)) []).read idx).getD 0 = _
  rw [Tracker.read_row hi]
  rfl

/-- The iterations of an index of the output are the indices that are reduced to it. -/
theorem filter_outCell_initial (hk : (initial root full output).Sound)
    (hspace : (initial root full output).space = full) {idx : List Nat}
    (hi : InRange idx (Ast.resultShape root full)) :
    (indices full).filter
        ((initial root full output).outCell · = (initial root full output).outCell idx) =
      Shape.reducedFrom full (Ast.resultShape root full) idx := by
  have hb := hk.broadcasts _ (mem_output _)
  rw [hspace, shape_output_initial] at hb
  have hfull : InRange idx (initial root full output).space :=
    hk.placed.inRange_space (by rwa [shape_output_initial])
  have hself := Broadcasts.index_of_inRange hi
  rw [Shape.reducedFrom_eq_filter (Broadcasts.iff_forall₂.mp hb) hi]
  refine List.filter_congr fun j hj => ?_
  have hj : InRange j (initial root full output).space := by
    rw [hspace]
    exact Shape.mem_indices.mp hj
  rw [decide_eq_decide]
  constructor
  · intro e
    have := hk.broadcastIndex_eq hj hfull e
    rwa [shape_output_initial, hself] at this
  · intro e
    rw [outCell, outCell, shape_output_initial, e, hself]

/-- What is known of a tree that is lowered, and of the kernel with the layout of its leaves. -/
structure Lowers (root : Ast) (full : List Nat) (output : Buffer) : Prop where
  wellShared : root.WellShared
  saturated : root.Saturated
  checked : Ast.checkOps root = .ok ()
  sound : (initial root full output).Sound
  space : (initial root full output).space = full
  len : output.len = (Ast.resultShape root full).prod

namespace Lowers

variable (h : Lowers root full output)

include h

theorem ast_eq : (initial root full output).ast =
    root.map fun leaf => 1 + root.leaves.eraseDups.findIdx (· = leaf) :=
  OpTree.mapLeaves_eq_map h.wellShared _

theorem isLowered {id : Nat} {op : Op} {sources : List Ast}
    (hs : OpTree.Subtree (.node id op sources) root) : Ast.isLowered op = true :=
  Ast.isLowered_of_checkOps h.wellShared h.checked hs

/-- The value function of a part of the tree. -/
theorem valueFn_eq {t : Ast} (ht : OpTree.Subtree t root) {reduced : List Nat → Float32}
    {P : List Nat → Prop}
    (hreduced : ∀ id op sources, OpTree.Subtree (.node id op sources) t → op.isReduce = true →
      ∀ idx, P idx → reduced idx = Ast.value contents full (.node id op sources) idx) :
    ∃ g, valueFn ((initial root full output).loadFn (root.leaves.eraseDups.map contents)) reduced
        (t.map fun leaf => 1 + root.leaves.eraseDups.findIdx (· = leaf)) = .ok g ∧
      ∀ idx, P idx → g idx = Ast.value contents full t idx :=
  valueFn_map (h.saturated.subtree ht) (fun _ _ _ hs => h.isLowered (hs.trans ht))
    (fun _ ho => loadFn_initial (OpTree.mem_leaves h.wellShared (ho.trans ht))) hreduced

/-- The output lists the values at the indices of its shape. -/
theorem written_eq {g : List Nat → Float32}
    (hg : ∀ idx, InRange idx (Ast.resultShape root full) →
      g idx = Ast.value contents full root idx) :
    (initial root full output).written g = Ast.elements contents full root := by
  refine Array.ext_getElem? fun i => ?_
  have hget : (Ast.elements contents full root)[i]? =
      (indices (Ast.resultShape root full))[i]?.map (Ast.value contents full root) :=
    List.getElem?_toArray.trans List.getElem?_map
  rw [hget]
  by_cases hi : i < (Ast.resultShape root full).prod
  · have hin : InRange (Shape.indexAt i (Ast.resultShape root full)) (Ast.resultShape root full) :=
      Shape.mem_indices.mp (List.mem_of_getElem? (Shape.getElem?_indices hi))
    have hwritten := getElem?_written h.sound g (by rwa [shape_output_initial])
    rw [outCell_initial hin, Shape.position_indexAt hi] at hwritten
    rw [hwritten, Shape.getElem?_indices hi, hg _ hin]
    rfl
  · rw [Array.getElem?_eq_none (by rw [size_written]; exact h.len ▸ Nat.le_of_not_lt hi),
      List.getElem?_eq_none (by rw [Shape.length_indices]; omega)]
    rfl

/-- The reduction of the numbered tree, if the tree has one. -/
theorem reduced?_eq {id : Nat} {op : Reduction} {shape : List Nat} {x : Ast}
    (hs : OpTree.Subtree (.node id (.reduce op shape) [x]) root) :
    (initial root full output).reduced? =
        some (op, x.map fun leaf => 1 + root.leaves.eraseDups.findIdx (· = leaf)) ∧
      Ast.resultShape root full = shape := by
  constructor
  · have hmapped := OpTree.subtree_map
      (f := fun leaf => 1 + root.leaves.eraseDups.findIdx (· = leaf)) hs
    rw [OpTree.map, List.map_singleton] at hmapped
    rw [reduced?, h.ast_eq, OpTree.find?_eq_some_of_unique (h.wellShared.map _) hmapped rfl]
    intro id' op' sources' hs' hop'
    obtain ⟨below, hbelow, rfl⟩ := OpTree.exists_node_of_subtree_map hs'
    obtain ⟨rfl, rfl, rfl⟩ := Ast.reduction_unique h.wellShared h.checked hs rfl hbelow hop'
    exact ⟨rfl, rfl, rfl⟩
  · rw [Ast.resultShape, OpTree.find?_eq_some_of_unique h.wellShared hs rfl]
    intro id' op' sources' hs' hop'
    obtain ⟨rfl, rfl, rfl⟩ := Ast.reduction_unique h.wellShared h.checked hs rfl hs' hop'
    exact ⟨rfl, rfl, rfl⟩

/-- Without a reduction in the tree there is none in the numbered one. -/
theorem reduced?_eq_none (hnone : ∀ id op sources, OpTree.Subtree (.node id op sources) root →
    op.isReduce = false) : (initial root full output).reduced? = none := by
  have hfind : (initial root full output).ast.find? Op.isReduce = none := by
    rw [h.ast_eq]
    refine List.find?_eq_none.mpr fun n hn hop => ?_
    obtain ⟨below, hbelow, -⟩ := OpTree.exists_node_of_subtree_map (OpTree.subtree_of_mem_nodes hn)
    rw [hnone _ _ _ hbelow] at hop
    cases hop
  rw [reduced?, hfind]

/-- The accumulators hold the values of the reduction, if its operand has the values of its
source. -/
theorem reducedFn_eq {id : Nat} {op : Reduction} {x : Ast}
    {idx : List Nat} (hi : InRange idx (Ast.resultShape root full)) :
    (initial root full output).reducedFn
        (some ((initial root full output).accumulated op (Ast.value contents full x))) idx =
      Ast.value contents full (.node id (.reduce op (Ast.resultShape root full)) [x]) idx := by
  have hspace := h.sound.placed.inRange_space (by rwa [shape_output_initial])
  have hlt := (h.sound.placed.read_output hspace).2
  rw [reducedFn, Array.getD_eq_getD_getElem?, getElem?_accumulated _ _ hlt, Option.getD_some,
    Ast.value, ← filter_outCell_initial h.sound h.space hi, h.space]

/-- In the layout of its leaves the kernel of a tree computes what the tree says. -/
theorem evaluated_eq (hcontents : ∀ o ∈ root.leaves, (contents o).size = o.buffer.len) :
    (initial root full output).evaluated (root.leaves.eraseDups.map contents) =
      .ok (Ast.elements contents full root) := by
  -- the value function of the whole tree, with its reduction standing for `reduced`
  have hwrite : ∀ acc, (∀ id op sources, OpTree.Subtree (.node id op sources) root →
      op.isReduce = true → ∀ idx, InRange idx (Ast.resultShape root full) →
        (initial root full output).reducedFn acc idx =
          Ast.value contents full (.node id op sources) idx) →
      ∃ g, valueFn ((initial root full output).loadFn (root.leaves.eraseDups.map contents))
          ((initial root full output).reducedFn acc) (initial root full output).ast = .ok g ∧
        (initial root full output).written g = Ast.elements contents full root := by
    intro acc hacc
    obtain ⟨g, hg, hvalue⟩ := h.valueFn_eq (.refl _) hacc
    exact ⟨g, by rw [h.ast_eq, hg], h.written_eq hvalue⟩
  rw [evaluated, checkData_initial hcontents]
  by_cases hred : ∃ id op sources, OpTree.Subtree (.node id op sources) root ∧ op.isReduce = true
  · obtain ⟨id, op, sources, hs, hop⟩ := hred
    obtain ⟨op, shape, rfl⟩ := isReduce_iff.mp hop
    obtain ⟨x, rfl⟩ := List.length_eq_one_iff.mp (h.saturated _ _ _ hs)
    obtain ⟨hreduced, rfl⟩ := h.reduced?_eq hs
    have hx : OpTree.Subtree x root := (OpTree.subtree_source List.mem_cons_self).trans hs
    obtain ⟨f, hf, hvalue⟩ : ∃ f, valueFn
        ((initial root full output).loadFn (root.leaves.eraseDups.map contents)) (fun _ => 0)
        (x.map fun leaf => 1 + root.leaves.eraseDups.findIdx (· = leaf)) = .ok f ∧
          ∀ idx, True → f idx = Ast.value contents full x idx := by
      refine h.valueFn_eq hx fun id' op' sources' hs' hop' => ?_
      obtain ⟨rfl, rfl, rfl⟩ :=
        Ast.reduction_unique h.wellShared h.checked hs rfl (hs'.trans hx) hop'
      exact absurd hs' (OpTree.not_subtree_source List.mem_cons_self)
    obtain rfl : f = Ast.value contents full x := funext fun idx => hvalue idx trivial
    obtain ⟨g, hg, hwritten⟩ := hwrite
      (some ((initial root full output).accumulated op (Ast.value contents full x))) <| by
        intro id' op' sources' hs' hop' idx hi
        obtain ⟨rfl, rfl, rfl⟩ := Ast.reduction_unique h.wellShared h.checked hs rfl hs' hop'
        exact h.reducedFn_eq hi
    rw [hreduced]
    refine bind_eq_ok.mpr ⟨_, liftM_eq_ok.mpr hf, ?_⟩
    exact bind_eq_ok.mpr ⟨_, rfl,
      bind_eq_ok.mpr ⟨g, liftM_eq_ok.mpr hg, congrArg Except.ok hwritten⟩⟩
  · obtain ⟨g, hg, hwritten⟩ := hwrite none fun id op sources hs hop =>
      absurd ⟨id, op, sources, hs, hop⟩ hred
    rw [h.reduced?_eq_none fun id op sources hs =>
      Bool.eq_false_iff.mpr fun hop => hred ⟨id, op, sources, hs, hop⟩]
    exact bind_eq_ok.mpr ⟨_, rfl,
      bind_eq_ok.mpr ⟨g, liftM_eq_ok.mpr hg, congrArg Except.ok hwritten⟩⟩

end Lowers

/-- Lowering is faithful to the tree. On the contents of the leaves that it reads the kernel of a
tree computes what the tree says in the axes of its leaves, unless its index arithmetic
overflows. -/
theorem evaluate_ofAst {ast : Ast} {k : Kernel} (hw : ast.WellShared) (hs : ast.Saturated)
    (hleaves : ∀ o, OpTree.Subtree (.leaf o) ast → ∃ size, o.tracker.BuiltOver size)
    (hk : ofAst ast output = .ok k) (contents : Operand → Array Float32)
    (hcontents : ∀ o, OpTree.Subtree (.leaf o) ast → (contents o).size = o.buffer.len) :
    ∃ full, Ast.spaceOf (Ast.belowReshape ast).1.leaves = .ok full ∧
      (k.evaluate (ast.inputs.map contents) =
          .ok (Ast.elements contents full (Ast.belowReshape ast).1) ∨
        k.evaluate (ast.inputs.map contents) = .error (.fault .overflow)) := by
  obtain ⟨full, hops, hspace, hlen, hfull, hsound, hsound', hordered⟩ :=
    keepsOrder_ofAst (within_of_builtOver hleaves) hk
  have hlowers : Lowers (Ast.belowReshape ast).1 full output :=
    ⟨Ast.wellShared_belowReshape hw, Ast.saturated_belowReshape hs, hops, hsound, hfull, hlen⟩
  have hsizes : ∀ o ∈ (Ast.belowReshape ast).1.leaves, (contents o).size = o.buffer.len :=
    fun o ho => hcontents o (Ast.subtree_of_belowReshape (OpTree.subtree_of_mem_leaves ho))
  have hupTo := evaluate_upTo hsound' (ast.inputs.map contents)
  rw [hordered.evaluated_eq hsound hsound', Ast.inputs, hlowers.evaluated_eq hsizes] at hupTo
  exact ⟨full, hspace, hupTo⟩

/-- The columns of a matrix, with a unit axis in between. -/
def columns : Operand := ⟨⟨0, 6⟩, ⟨⟨0, [⟨2, 1, 0, 2⟩, ⟨1, 0, 0, 1⟩, ⟨3, 2, 0, 3⟩]⟩, []⟩⟩

/-- The kernel that sums each column, with the unit axis dropped and the reduced axis put last. -/
def columnSums : Kernel :=
  ⟨.node 0 (.reduce .sum [1, 1, 3]) [.leaf 1], ⟨⟨1, 3⟩, ⟨(View.row [1, 3]).permute [1, 0], []⟩⟩,
    [⟨⟨0, 6⟩, ⟨⟨0, [⟨3, 2, 0, 3⟩, ⟨2, 1, 0, 2⟩]⟩, []⟩⟩], 0⟩

/-- The sums of the columns are the elements that the tree says. -/
theorem evaluate_columnSums :
    ofAst (.node 0 (.reduce .sum [1, 1, 3]) [.leaf columns]) ⟨1, 3⟩ = .ok columnSums ∧
      columnSums.evaluate [#[1, 2, 3, 4, 5, 6]] =
        .ok (Ast.elements (fun _ => #[1, 2, 3, 4, 5, 6]) [2, 1, 3]
          (.node 0 (.reduce .sum [1, 1, 3]) [.leaf columns])) := by
  have hk : ofAst (.node 0 (.reduce .sum [1, 1, 3]) [.leaf columns]) ⟨1, 3⟩ = .ok columnSums :=
    (ofAst_single rfl _ _ _).trans rfl
  obtain ⟨full, hfull, hevaluate⟩ := evaluate_ofAst (OpTree.wellShared_single 0 _ columns)
    (OpTree.saturated_single rfl) (fun o ho => by
      obtain rfl := OpTree.subtree_single ho
      exact ⟨6, [3, 2], [.permute [1, 0], .reshape [2, 1, 3]], rfl, by decide, rfl⟩) hk
    (fun _ => #[1, 2, 3, 4, 5, 6]) (fun o ho => by
      obtain rfl := OpTree.subtree_single ho
      rfl)
  simp only [Ast.inputs, Ast.belowReshape, OpTree.leaves, OpTree.walk_single] at hfull hevaluate
  obtain rfl : [2, 1, 3] = full := Except.ok.inj hfull
  refine ⟨hk, hevaluate.resolve_right fun hover => ?_⟩
  have hok : (columnSums.evaluate [#[1, 2, 3, 4, 5, 6]]).isOk = true := by
    have hreduced : columnSums.reduced? = some (.sum, .leaf 1) := by
      simp only [reduced?, columnSums, OpTree.find?, OpTree.nodes, OpTree.walk_single]
      rfl
    simp only [evaluate, hreduced]
    decide +kernel
  rw [show columnSums.evaluate [#[1, 2, 3, 4, 5, 6]] = .error (.fault .overflow) from hover] at hok
  cases hok

/-- A tensor with three padded axes, the middle one of which is read backwards. -/
def backwards : Operand :=
  ⟨⟨0, 1⟩, ⟨⟨-4035225266123964416, [⟨4, 2305843009213693952, 2, 4⟩,
    ⟨3, -1152921504606846976, 1, 3⟩, ⟨5, 576460752303423488, 3, 5⟩, ⟨1, 0, 0, 1⟩]⟩, []⟩⟩

theorem builtOver_backwards : backwards.tracker.BuiltOver 4611686018427387904 :=
  ⟨[2, 2, 2, 576460752303423488], [.shrink [(0, 2), (0, 2), (0, 2), (0, 1)],
    .stride [1, -1, 1, 1], .pad [(2, 0), (1, 0), (3, 0), (0, 0)]], rfl, by decide, rfl⟩

/-- The kernel that sums over the middle axis, which is put last. -/
def backwardsSum : Kernel :=
  ⟨.node 0 (.reduce .sum [4, 1, 5, 1]) [.leaf 1],
    ⟨⟨1, 20⟩, ⟨(View.row [4, 1, 5]).permute [0, 2, 1], []⟩⟩,
    [⟨⟨0, 1⟩, ⟨(View.mk (-4035225266123964416)
      (backwards.tracker.top.axes.take 3)).permute [0, 2, 1], []⟩⟩], 0⟩

/-- Evaluation can overflow although no offset of a leaf does: the terms of an offset are added in
the order of the axes, and lowering changes this order. -/
theorem evaluate_backwardsSum_ne :
    (OpTree.node 0 (.reduce .sum [4, 1, 5, 1]) [.leaf backwards]).WellShared ∧
      (OpTree.node 0 (.reduce .sum [4, 1, 5, 1]) [.leaf backwards]).Saturated ∧
      (∃ size, backwards.tracker.BuiltOver size) ∧
      (∀ idx, InRange idx backwards.shape →
        backwards.tracker.index idx = .ok (backwards.tracker.read idx)) ∧
      ofAst (.node 0 (.reduce .sum [4, 1, 5, 1]) [.leaf backwards]) ⟨1, 20⟩ = .ok backwardsSum ∧
      Ast.spaceOf [backwards] = .ok [4, 3, 5, 1] ∧
      backwardsSum.evaluate [#[1]] ≠ .ok (Ast.elements (fun _ => #[1]) [4, 3, 5, 1]
        (.node 0 (.reduce .sum [4, 1, 5, 1]) [.leaf backwards])) := by
  refine ⟨OpTree.wellShared_single 0 _ _, OpTree.saturated_single rfl, ⟨_, builtOver_backwards⟩,
    fun idx hi => ?_, ?_, rfl, fun h => ?_⟩
  · have hok : ∀ idx ∈ indices backwards.shape, (backwards.tracker.index idx).isOk = true := by
      decide +kernel
    have hok := hok idx (Shape.mem_indices.mpr hi)
    rcases Tracker.index_yields builtOver_backwards.within hi with h | h
    · exact h
    · rw [h] at hok
      cases hok
  · exact (ofAst_single rfl _ _ _).trans rfl
  · have hok : (backwardsSum.evaluate [#[1]]).isOk = false := by
      have hreduced : backwardsSum.reduced? = some (.sum, .leaf 1) := by
        simp only [reduced?, backwardsSum, OpTree.find?, OpTree.nodes, OpTree.walk_single]
        rfl
      simp only [evaluate, hreduced]
      decide +kernel
    rw [h] at hok
    cases hok

end Kernel

end TensorLoom
