import TensorLoom.Proofs.Session.Additions

/-!
# One convolution in a tree

When two tensors that are computed from convolutions are put into one tree, only the first
convolutions of the two are compared. That is enough, since all convolutions of a tree are the same
one: they agree in everything but their identity (`OpTree.OneConvolution`).

A pointwise operation over trees that hold one convolution each keeps this if the convolutions of
any two of them agree (`OpTree.OneConvolution.pointwise`), and this is what the comparison of the
first ones makes sure of (`Session.agree_of_isSameConvolution`). So it holds of every tensor of a
reachable session, and the comparison of the first convolutions is one of all of them
(`Session.Reachable.convolutions_agree`).
-/

namespace TensorLoom

/-- Two nodes apply the same operation to the same operands. Their identities may differ. -/
def OpNode.Agrees {α : Type} (m n : OpNode α) : Prop := m.op = n.op ∧ m.sources = n.sources

namespace OpNode.Agrees

variable {α : Type} {m n k : OpNode α}

theorem symm (h : m.Agrees n) : n.Agrees m := ⟨h.1.symm, h.2.symm⟩

theorem trans (h : m.Agrees n) (h' : n.Agrees k) : m.Agrees k :=
  ⟨h.1.trans h'.1, h.2.trans h'.2⟩

end OpNode.Agrees

namespace OpTree

section Convolutions

variable {α : Type} {t u v : OpTree α} {n : OpNode α}

/-- A tree has a convolution at one of its nodes. -/
def HasConvolution (t : OpTree α) (n : OpNode α) : Prop :=
  Subtree (.node n.id n.op n.sources) t ∧ n.op.category = some .processing

/-- The convolutions of two trees are all the same one. -/
def ConvolutionsAgree (t u : OpTree α) : Prop :=
  ∀ m n, t.HasConvolution m → u.HasConvolution n → m.Agrees n

theorem ConvolutionsAgree.symm (h : t.ConvolutionsAgree u) : u.ConvolutionsAgree t :=
  fun m n hm hn => (h n m hn hm).symm

/-- Trees that agree with the same tree agree with each other, if that tree has a convolution. -/
theorem ConvolutionsAgree.trans (h : t.ConvolutionsAgree u) (h' : u.ConvolutionsAgree v)
    (hu : ∃ n, u.HasConvolution n) : t.ConvolutionsAgree v := by
  obtain ⟨k, hk⟩ := hu
  exact fun m n hm hn => (h m k hm hk).trans (h' k n hk hn)

theorem not_hasConvolution_leaf (x : α) : ¬ (leaf x).HasConvolution n := fun h => by
  cases subtree_leaf.mp h.1

theorem HasConvolution.source {t : OpTree α} {id : Nat} {op : Op} {sources : List (OpTree α)}
    (ht : t ∈ sources) (h : t.HasConvolution n) : (node id op sources).HasConvolution n :=
  ⟨h.1.trans (subtree_source ht), h.2⟩

/-- The convolutions below a pointwise operation are those of its sources. -/
theorem HasConvolution.of_pointwise {id : Nat} {op : Op} {sources : List (OpTree α)}
    (hop : op.category ≠ some .processing) (h : (node id op sources).HasConvolution n) :
    ∃ t ∈ sources, t.HasConvolution n := by
  obtain ⟨hs, hn⟩ := h
  rcases subtree_node.mp hs with e | ⟨t, ht, hs⟩
  · cases e
    exact absurd hn hop
  · exact ⟨t, ht, hs, hn⟩

/-- The first convolution in a tree. -/
theorem hasConvolution_of_find? (h : t.find? (fun op => op.category = some .processing) = some n) :
    t.HasConvolution n :=
  ⟨(subtree_of_find? h).1, of_decide_eq_true (subtree_of_find? h).2⟩

theorem exists_find?_convolution (hw : t.WellShared) (h : t.HasConvolution n) :
    ∃ m, t.find? (fun op => op.category = some .processing) = some m := by
  refine Option.isSome_iff_exists.mp (List.find?_isSome.mpr ⟨n, mem_nodes hw h.1, ?_⟩)
  exact decide_eq_true h.2

/-- A tree has a convolution, and all its convolutions are the same one. -/
structure OneConvolution (t : OpTree α) : Prop where
  exists_node : ∃ n, t.HasConvolution n
  agree : t.ConvolutionsAgree t
  operands : ∀ n, t.HasConvolution n →
    ∃ args x w, n.op = .convolution args ∧ n.sources = [.leaf x, .leaf w]

namespace OneConvolution

theorem convolution (id : Nat) (args : Convolution) (x w : α) :
    OneConvolution (.node id (.convolution args) [.leaf x, .leaf w]) := by
  have only : ∀ n, HasConvolution (.node id (.convolution args) [.leaf x, .leaf w]) n →
      n.op = .convolution args ∧ n.sources = [.leaf x, .leaf w] := by
    rintro ⟨id', op, sources⟩ ⟨hs, -⟩
    rcases subtree_node.mp hs with e | ⟨t, ht, hs⟩
    · cases e
      exact ⟨rfl, rfl⟩
    · rcases List.mem_pair.mp ht with rfl | rfl <;> cases subtree_leaf.mp hs
  refine ⟨⟨⟨id, _, _⟩, .refl _, rfl⟩, fun m n hm hn => ?_, fun n hn => ⟨args, x, w, only n hn⟩⟩
  exact ⟨(only m hm).1.trans (only n hn).1.symm, (only m hm).2.trans (only n hn).2.symm⟩

/-- A pointwise operation over trees that have one convolution or none, if the convolutions of any
two of them agree. -/
theorem pointwise {id : Nat} {op : Op} {sources : List (OpTree α)}
    (hop : op.category ≠ some .processing) (hsome : ∃ t ∈ sources, t.OneConvolution)
    (hone : ∀ t ∈ sources, ∀ n, t.HasConvolution n → t.OneConvolution)
    (hagree : ∀ t ∈ sources, ∀ u ∈ sources, t.ConvolutionsAgree u) :
    OneConvolution (.node id op sources) where
  exists_node := by
    obtain ⟨t, ht, h⟩ := hsome
    obtain ⟨n, hn⟩ := h.exists_node
    exact ⟨n, hn.source ht⟩
  agree m n hm hn := by
    obtain ⟨t, ht, hm⟩ := hm.of_pointwise hop
    obtain ⟨u, hu, hn⟩ := hn.of_pointwise hop
    exact hagree t ht u hu m n hm hn
  operands n hn := by
    obtain ⟨t, ht, hn⟩ := hn.of_pointwise hop
    exact (hone t ht n hn).operands n hn

end OneConvolution

end Convolutions

end OpTree

namespace Session

open OpTree (Subtree HasConvolution ConvolutionsAgree OneConvolution)

variable {rules : FusionRules} {s : Session} {a b : Tensor}

/-- Two tensors are compared by their first convolutions. -/
theorem isSameConvolution_iff_agrees {p q : OpNode TensorId} (hp : a.convolution? = some p)
    (hq : b.convolution? = some q) (ha : a.tree.OneConvolution) (hb : b.tree.OneConvolution) :
    isSameConvolution a b = true ↔ p.Agrees q := by
  obtain ⟨args, x, w, hop, hsources⟩ := ha.operands p (OpTree.hasConvolution_of_find? hp)
  obtain ⟨args', x', w', hop', hsources'⟩ := hb.operands q (OpTree.hasConvolution_of_find? hq)
  simp only [isSameConvolution, hp, hq, OpNode.Agrees, hop, hsources, hop', hsources']
  simp [isSameOperand]

/-- If the first convolutions of two trees are the same, all are. -/
theorem agree_of_isSameConvolution (ha : a.tree.OneConvolution) (hb : b.tree.OneConvolution)
    (h : isSameConvolution a b = true) : a.tree.ConvolutionsAgree b.tree := by
  have hsame := h
  unfold isSameConvolution at h
  split at h
  · rename_i p q hp hq
    have hpq := (isSameConvolution_iff_agrees hp hq ha hb).mp hsame
    intro m n hm hn
    exact ((ha.agree m p hm (OpTree.hasConvolution_of_find? hp)).trans hpq).trans
      (hb.agree q n (OpTree.hasConvolution_of_find? hq) hn)
  · cases h

theorem isSameConvolution_iff (ha : a.tree.OneConvolution) (hb : b.tree.OneConvolution)
    (hwa : a.tree.WellShared) (hwb : b.tree.WellShared) :
    isSameConvolution a b = true ↔ a.tree.ConvolutionsAgree b.tree := by
  refine ⟨agree_of_isSameConvolution ha hb, fun h => ?_⟩
  obtain ⟨m, hm⟩ := ha.exists_node
  obtain ⟨n, hn⟩ := hb.exists_node
  obtain ⟨p, hp⟩ := OpTree.exists_find?_convolution hwa hm
  obtain ⟨q, hq⟩ := OpTree.exists_find?_convolution hwb hn
  exact (isSameConvolution_iff_agrees hp hq ha hb).mpr
    (h p q (OpTree.hasConvolution_of_find? hp) (OpTree.hasConvolution_of_find? hq))

/-! ## Folding -/

theorem isOpen_of_hasConvolution {x : TensorId} {category : Category} {n : OpNode TensorId}
    (h : (s.operand category x).HasConvolution n) : s.isOpen x category = true := by
  by_contra ho
  exact OpTree.not_hasConvolution_leaf x (operand_of_not_isOpen ho ▸ h)

/-- Every tensor that is a convolution, or is computed from one in its tree, has one convolution. -/
def SingleConvolutions (s : Session) : Prop :=
  ∀ (x : TensorId) t, s.tensors[x]? = some t → t.category = some .processing →
    t.tree.OneConvolution

namespace SingleConvolutions

theorem operand {x : TensorId} (hs : s.SingleConvolutions) (h : s.isOpen x .processing = true) :
    (s.operand .processing x).OneConvolution := by
  obtain ⟨t, ht⟩ := exists_of_isOpen h
  rw [operand_of_isOpen ht h]
  exact hs x t ht (category_of_isOpen ht h)

/-- Two open convolutions that have been compared. -/
theorem agree_of_same {x y : TensorId} (hs : s.SingleConvolutions)
    (hx : s.isOpen x .processing = true) (hy : s.isOpen y .processing = true)
    (ha : s.tensors[x]? = some a) (hb : s.tensors[y]? = some b)
    (h : isSameConvolution a b = true) :
    (s.operand .processing x).ConvolutionsAgree (s.operand .processing y) := by
  rw [operand_of_isOpen ha hx, operand_of_isOpen hb hy]
  exact agree_of_isSameConvolution (hs x a ha (category_of_isOpen ha hx))
    (hs y b hb (category_of_isOpen hb hy)) h

/-- The open convolutions among the operands of an operation that is folded all agree. -/
theorem of_folds {xs : List TensorId} (hs : s.SingleConvolutions)
    (h : s.foldsIntoProcessing xs = true) :
    (∃ x ∈ xs, s.isOpen x .processing = true) ∧
      ∀ x ∈ xs, ∀ y ∈ xs, s.isOpen x .processing = true → s.isOpen y .processing = true →
        (s.operand .processing x).ConvolutionsAgree (s.operand .processing y) := by
  have hmem : ∀ {x}, x ∈ xs.filter (s.isOpen · .processing) ↔
      x ∈ xs ∧ s.isOpen x .processing = true := List.mem_filter
  have hself : ∀ {x}, s.isOpen x .processing = true →
      (s.operand .processing x).ConvolutionsAgree (s.operand .processing x) :=
    fun hx => (hs.operand hx).agree
  unfold foldsIntoProcessing at h
  split at h
  · -- a single operand is open, and agrees with itself
    rename_i a hfilter
    rw [hfilter] at hmem
    refine ⟨⟨a, hmem.mp List.mem_cons_self⟩, fun x hx y hy hxo hyo => ?_⟩
    obtain rfl := List.mem_singleton.mp (hmem.mpr ⟨hx, hxo⟩)
    obtain rfl := List.mem_singleton.mp (hmem.mpr ⟨hy, hyo⟩)
    exact hself hxo
  · -- two operands are open, and have been compared
    rename_i a b hfilter
    rw [hfilter] at hmem
    split at h
    · rename_i ta tb hta htb
      have hao := (hmem.mp (List.mem_cons_self (a := a))).2
      have hbo := (hmem.mp (List.mem_cons_of_mem a (List.mem_cons_self (a := b)))).2
      have hab := hs.agree_of_same hao hbo hta htb h
      refine ⟨⟨a, hmem.mp List.mem_cons_self⟩, fun x hx y hy hxo hyo => ?_⟩
      rcases List.mem_pair.mp (hmem.mpr ⟨hx, hxo⟩) with rfl | rfl <;>
        rcases List.mem_pair.mp (hmem.mpr ⟨hy, hyo⟩) with rfl | rfl
      · exact hself hxo
      · exact hab
      · exact hab.symm
      · exact hself hxo
    · cases h
  · cases h

end SingleConvolutions

/-- The tensors of a session that are convolutions, or are computed from one in their tree. -/
def ConvolutionTensor (s : Session) : Type :=
  { t : Tensor // ∃ x : TensorId, s.tensors[x]? = some t ∧ t.category = some .processing }

namespace Reachable

/-- Steps keep the convolutions of every tree the same. -/
theorem singleConvolutions (h : Reachable rules s) : s.SingleConvolutions := by
  refine h.forall_tensor (Q := fun t => t.category = some .processing → t.tree.OneConvolution) ?_
  intro s c t hs added
  cases added with
  | host _ => nofun
  | pointwise _ _ => nofun
  | @folded op xs shape id pointwise _ folds =>
    intro _
    have hs : s.SingleConvolutions := hs
    obtain ⟨⟨x, hx, hxo⟩, hagree⟩ := hs.of_folds folds
    have hop : op.category ≠ some .processing := fun e => by
      cases (of_decide_eq_true pointwise.isElementwise).symm.trans e
    refine .pointwise hop ⟨_, List.mem_map_of_mem hx, hs.operand hxo⟩ ?_ ?_
    · intro t ht n hn
      obtain ⟨z, -, rfl⟩ := List.mem_map.mp ht
      exact hs.operand (isOpen_of_hasConvolution hn)
    · intro t ht u hu m n hm hn
      obtain ⟨y, hy, rfl⟩ := List.mem_map.mp ht
      obtain ⟨z, hz, rfl⟩ := List.mem_map.mp hu
      exact hagree y hy z hz (isOpen_of_hasConvolution hm) (isOpen_of_hasConvolution hn) m n hm hn
  | moved moved =>
    intro hc
    rcases moved.kind with e | e <;> cases hc.symm.trans e
  | reduced _ _ => nofun
  | convolved _ => exact fun _ => .convolution _ _ _ _

/-- Trees that are found in the tree of a pointwise result have convolutions that agree. -/
theorem agree_in_elementwise (h : Reachable rules s) {op : Op} {xs : List TensorId}
    (hxs : ∀ x ∈ xs, x < s.tensors.size) {y : TensorId} {s' : Session}
    (hrun : exec (elementwise op xs) s = (.ok y, s')) {t : Tensor} (ht : s'.tensors[y]? = some t)
    {u v : OpTree TensorId} (hu : Subtree u t.tree) (hv : Subtree v t.tree) :
    u.ConvolutionsAgree v := by
  intro m n hm hn
  have hm : t.tree.HasConvolution m := ⟨hm.1.trans hu, hm.2⟩
  have hn : t.tree.HasConvolution n := ⟨hn.1.trans hv, hn.2⟩
  have hconstruct : exec (Construct.step (.elementwise op xs)) s = (.ok y, s') := hrun
  have h' : Reachable rules s' := by
    have hnext := h.construct (c := .elementwise op xs) hxs
    rwa [hconstruct] at hnext
  obtain ⟨r, hs⟩ := h.coherent
  obtain ⟨c', hc⟩ := Construct.exists_shapes (c := .elementwise op xs) hxs
  rcases hs.exec_construct hc fun _ _ _ => trivial with
    ⟨e, -, hrun'⟩ | ⟨_, _, _, r', -, hrun', advances, -, made⟩
  · cases hconstruct.symm.trans hrun'
  cases hconstruct.symm.trans hrun'
  cases made with
  | elementwise of =>
    obtain ⟨made, kind, -⟩ := of
    obtain rfl := Option.some.inj (ht.symm.trans made)
    rcases kind with rfl | rfl
    · obtain ⟨pointwise, -⟩ := (advances.coherent.pointwise_tree made).nodes _ _ _ hm.1
      cases (of_decide_eq_true pointwise.isElementwise).symm.trans hm.2
    · exact (h'.singleConvolutions y _ made rfl).agree m n hm hn

/-- All convolutions in the tree of a tensor are the same one, so the first of them stands for the
tree: comparing the first convolutions of two tensors is comparing all of them, and tells which
tensors are computed from the same convolution. A pointwise operation puts the trees of two such
tensors into one only if all convolutions of both agree. -/
theorem convolutions_agree (h : Reachable rules s) :
    (∀ (x : TensorId) t, s.tensors[x]? = some t → t.category = some .processing →
      ∃ n args z w, t.convolution? = some n ∧ n.op = .convolution args ∧
        n.sources = [.leaf z, .leaf w] ∧ ∀ n', t.tree.HasConvolution n' → n'.Agrees n) ∧
    (∀ a b : s.ConvolutionTensor,
      isSameConvolution a.1 b.1 = true ↔ a.1.tree.ConvolutionsAgree b.1.tree) ∧
    (Equivalence fun a b : s.ConvolutionTensor => isSameConvolution a.1 b.1 = true) ∧
    ∀ (op : Op) (x x' y : TensorId) (s' : Session),
      exec (elementwise op [x, x']) s = (.ok y, s') →
      ∀ a b : s.ConvolutionTensor, s.tensors[x]? = some a.1 → s.tensors[x']? = some b.1 →
      ∀ t id, s'.tensors[y]? = some t → t.tree = .node id op [a.1.tree, b.1.tree] →
        a.1.tree.ConvolutionsAgree b.1.tree := by
  obtain ⟨r, hs⟩ := h.coherent
  have hsingle := h.singleConvolutions
  have hshared : ∀ {x : TensorId} {t}, s.tensors[x]? = some t → t.category = some .processing →
      t.tree.WellShared := by
    rintro x ⟨shape, _ | ⟨category, tree⟩⟩ ht hc
    · cases hc
    · exact (hs.registered x shape category tree ht).wellShared
  have hiff : ∀ a b : s.ConvolutionTensor,
      isSameConvolution a.1 b.1 = true ↔ a.1.tree.ConvolutionsAgree b.1.tree := by
    rintro ⟨a, x, hx, ha⟩ ⟨b, y, hy, hb⟩
    exact isSameConvolution_iff (hsingle x a hx ha) (hsingle y b hy hb) (hshared hx ha)
      (hshared hy hb)
  refine ⟨fun x t ht hc => ?_, hiff, ⟨fun a => ?_, fun {a b} hab => ?_, fun {a b c} hab hbc => ?_⟩,
    ?_⟩
  · obtain ⟨exists_node, agree, operands⟩ := hsingle x t ht hc
    obtain ⟨m, hm⟩ := exists_node
    obtain ⟨n, hn⟩ := OpTree.exists_find?_convolution (hshared ht hc) hm
    have hfirst := OpTree.hasConvolution_of_find? hn
    obtain ⟨args, z, w, hop, hsources⟩ := operands n hfirst
    exact ⟨n, args, z, w, hn, hop, hsources, fun n' hn' => agree n' n hn' hfirst⟩
  · obtain ⟨x, hx, ha⟩ := a.2
    exact (hiff a a).mpr (hsingle x a.1 hx ha).agree
  · exact (hiff b a).mpr ((hiff a b).mp hab).symm
  · obtain ⟨x, hx, hb⟩ := b.2
    exact (hiff a c).mpr (((hiff a b).mp hab).trans ((hiff b c).mp hbc)
      (hsingle x b.1 hx hb).exists_node)
  · intro op x x' y s' hrun a b ha hb t id ht htree
    refine h.agree_in_elementwise (fun z hz => ?_) hrun ht ?_ ?_
    · rcases List.mem_pair.mp hz with rfl | rfl
      · exact lt_of_tensor ha
      · exact lt_of_tensor hb
    · exact htree ▸ OpTree.subtree_source List.mem_cons_self
    · exact htree ▸ OpTree.subtree_source (List.mem_cons_of_mem _ List.mem_cons_self)

/-- The convolution of the first tensor with the second, with the given identity. -/
def convolutionTensor (id : Nat) : Tensor :=
  ⟨[2], .deferred .processing (.node id (.convolution (.plain [2])) [.leaf 0, .leaf 1])⟩

/-- Data of the host, convolved twice with the same weights. -/
def convolvedTwice : Session :=
  let given := (exec (Construct.step (.host [2] #[1, 2])) (.new .standard)).2
  let weighted := (exec (Construct.step (.host [1] #[3])) given).2
  let once := (exec (Construct.step (.convolve 0 1 (.plain [2]))) weighted).2
  (exec (Construct.step (.convolve 0 1 (.plain [2]))) once).2

theorem convolvedTwice_eq : convolvedTwice = ((((((new .standard).withTensor [2]
    (.host #[1, 2])).withTensor [1] (.host #[3])).withNode.withTensor [2]
      (convolutionTensor 0).content).withNode.withTensor [2] (convolutionTensor 1).content)) := rfl

theorem convolution?_convolutionTensor (id : Nat) : (convolutionTensor id).convolution? =
    some ⟨id, .convolution (.plain [2]), [.leaf 0, .leaf 1]⟩ := by
  have hnodes : (convolutionTensor id).tree.nodes =
      [⟨id, .convolution (.plain [2]), [.leaf 0, .leaf 1]⟩] := by
    simp [convolutionTensor, Tensor.tree, OpTree.nodes, OpTree.walk, OpTree.Walk.visit]
  rw [Tensor.convolution?, OpTree.find?, hnodes]
  rfl

theorem exec_add_convolvedTwice :
    let (result, s') := exec (elementwise (.binary .add) [2, 3]) convolvedTwice
    result = .ok 4 ∧ s'.tensors[4]? = some ⟨[2], .deferred .processing (.node 2 (.binary .add)
      [(convolutionTensor 0).tree, (convolutionTensor 1).tree])⟩ := by
  have hrealized : ∀ x, convolvedTwice.isRealized x = false := fun x => by
    rw [convolvedTwice_eq]
    exact Std.HashSet.contains_empty
  have htensors : List.Forall₂ (fun x t => convolvedTwice.tensors[x]? = some t) [2, 3]
      [convolutionTensor 0, convolutionTensor 1] := .cons rfl (.cons rfl .nil)
  have hopen : ∀ x ∈ [2, 3], convolvedTwice.isOpen x .processing = true := by
    simp only [isOpen, hrealized]
    decide
  have hfolds : convolvedTwice.foldsIntoProcessing [2, 3] = true := by
    have hall : [2, 3].filter (convolvedTwice.isOpen · .processing) = [2, 3] :=
      List.filter_eq_self.mpr hopen
    rw [foldsIntoProcessing, hall]
    change isSameConvolution (convolutionTensor 0) (convolutionTensor 1) = true
    rw [isSameConvolution, convolution?_convolutionTensor, convolution?_convolutionTensor]
    rfl
  have hoperands : [2, 3].map (convolvedTwice.operand .processing) =
      [(convolutionTensor 0).tree, (convolutionTensor 1).tree] := by
    rw [List.forall_mem_cons, List.forall_mem_singleton] at hopen
    rw [List.map_cons, operand_of_isOpen rfl hopen.1, List.map_singleton,
      operand_of_isOpen rfl hopen.2]
    rfl
  have hmake : exec (makeElementwise (.binary .add) [2, 3] [2]) convolvedTwice = (.ok 4,
      convolvedTwice.withNode.withTensor [2] (.deferred .processing (.node 2 (.binary .add)
        [(convolutionTensor 0).tree, (convolutionTensor 1).tree]))) := by
    have hmerge : convolvedTwice.rules.mergeIntoProcessing = true := rfl
    simp only [makeElementwise, exec_bind, exec_get, hfolds, hmerge, Bool.and_self, if_true,
      exec_splices, hoperands, exec_addNode]
    rfl
  have hnew : convolvedTwice.elementwiseMemo[(Op.binary .add, [2, 3])]? = none := by
    rw [convolvedTwice_eq]
    exact Std.HashMap.getElem?_empty
  rw [exec_elementwise_new htensors rfl hnew hmake]
  exact ⟨rfl, rfl⟩

/-- Two convolutions that were made one after the other are added up in one tree. -/
theorem convolutions_agree_convolvedTwice :
    let (result, s') := exec (elementwise (.binary .add) [2, 3]) convolvedTwice
    let sum := OpTree.node 2 (.binary .add) [(convolutionTensor 0).tree, (convolutionTensor 1).tree]
    result = .ok 4 ∧ s'.tensors[4]? = some ⟨[2], .deferred .processing sum⟩ ∧
      (convolutionTensor 0).tree.ConvolutionsAgree (convolutionTensor 1).tree := by
  have h : Reachable .standard convolvedTwice :=
    (((start.construct (List.forall_mem_nil _)).construct (List.forall_mem_nil _)).construct
      (by decide)).construct (by decide)
  obtain ⟨hresult, hsum⟩ := exec_add_convolvedTwice
  refine ⟨hresult, hsum, ?_⟩
  obtain ⟨-, -, -, merged⟩ := convolutions_agree h
  exact merged (.binary .add) 2 3 4 _ (Prod.ext hresult rfl)
    ⟨convolutionTensor 0, 2, rfl, rfl⟩ ⟨convolutionTensor 1, 3, rfl, rfl⟩ rfl rfl _ 2 hsum rfl

end Reachable

end Session

end TensorLoom
