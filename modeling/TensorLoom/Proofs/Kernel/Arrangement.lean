import TensorLoom.Proofs.Kernel.Axes
import TensorLoom.Proofs.OpTree.MapLeaves

/-!
# What the generated source relies on

The generated source relies on the tree of a kernel, on where its inputs read, and on the order of
its axes. `Kernel.Ready` puts this together. It holds of the kernel of a tree
(`Kernel.ready_ofAst`) and of every kernel that offered interventions lead to
(`Kernel.Offered.ready`).
-/

namespace TensorLoom

/-! ## Lowered trees -/

/-- A tree built of pointwise operations and reductions, each with the sources that it takes, whose
leaves are numbered from 1 up to `count`. -/
inductive OpTree.Lowered (count : Nat) : OpTree Nat → Prop
  | leaf {number : Nat} : 1 ≤ number → number ≤ count → Lowered count (.leaf number)
  | unary {id : Nat} {op : Unary} {x : OpTree Nat} :
      Lowered count x → Lowered count (.node id (.unary op) [x])
  | binary {id : Nat} {op : Binary} {a b : OpTree Nat} :
      Lowered count a → Lowered count b → Lowered count (.node id (.binary op) [a, b])
  | reduce {id : Nat} {op : Reduction} {shape : List Nat} {x : OpTree Nat} :
      Lowered count x → Lowered count (.node id (.reduce op shape) [x])

namespace OpTree

/-- Every node of a tree has the sources that its operation takes. -/
def Saturated {α : Type} (t : OpTree α) : Prop :=
  ∀ id op sources, Subtree (node id op sources) t → sources.length = op.arity

theorem Saturated.subtree {α : Type} {s t : OpTree α} (h : t.Saturated) (hs : Subtree s t) :
    s.Saturated :=
  fun id op sources hn => h id op sources (hn.trans hs)

/-- A node over one leaf. -/
theorem saturated_single {α : Type} {id : Nat} {op : Op} {x : α} (h : op.arity = 1) :
    (node id op [leaf x]).Saturated := by
  intro _ _ _ hs
  obtain ⟨-, rfl, rfl⟩ := node_of_subtree_single hs
  exact h.symm

theorem Lowered.subtree {count : Nat} {s t : OpTree Nat} (h : t.Lowered count)
    (hs : Subtree s t) : s.Lowered count := by
  induction hs with
  | refl => exact h
  | source _ hm ih =>
    refine ih ?_
    cases h with
    | unary hx =>
      obtain rfl := List.mem_singleton.mp hm
      exact hx
    | binary ha hb =>
      rcases List.mem_cons.mp hm with rfl | hm
      · exact ha
      · obtain rfl := List.mem_singleton.mp hm
        exact hb
    | reduce hx =>
      obtain rfl := List.mem_singleton.mp hm
      exact hx

/-- A tree of operations that are lowered, with its leaves numbered. -/
theorem lowered_map {α : Type} {t : OpTree α} {count : Nat} {number : α → Nat}
    (harity : t.Saturated)
    (hops : ∀ id op sources, Subtree (node id op sources) t → Ast.isLowered op = true)
    (hnumber : ∀ x, Subtree (leaf x) t → 1 ≤ number x ∧ number x ≤ count) :
    (t.map number).Lowered count := by
  induction t using OpTree.induction with
  | leaf x =>
    rw [map]
    exact .leaf (hnumber x (.refl _)).1 (hnumber x (.refl _)).2
  | node id op sources ih =>
    have hlength := harity id op sources (.refl _)
    have hlowered := hops id op sources (.refl _)
    have hsource : ∀ s ∈ sources, (s.map number).Lowered count := fun s hs =>
      ih s hs (harity.subtree (subtree_source hs))
        (fun id op sources hn => hops id op sources (hn.trans (subtree_source hs)))
        fun x hx => hnumber x (hx.trans (subtree_source hs))
    rw [map]
    cases op with
    | unary op =>
      obtain ⟨x, rfl⟩ := List.length_eq_one_iff.mp hlength
      exact .unary (hsource x (by simp))
    | binary op =>
      obtain ⟨a, b, rfl⟩ := List.length_eq_two.mp hlength
      exact .binary (hsource a (by simp)) (hsource b (by simp))
    | reduce op shape =>
      obtain ⟨x, rfl⟩ := List.length_eq_one_iff.mp hlength
      exact .reduce (hsource x (by simp))
    | load => cases hlowered
    | movement m => cases hlowered
    | convolution args => cases hlowered

end OpTree

namespace Ast

theorem isLowered_of_checkOps {root : Ast} (hw : root.WellShared) (h : checkOps root = .ok ())
    {id : Nat} {op : Op} {sources : List Ast} (hs : OpTree.Subtree (.node id op sources) root) :
    isLowered op = true := by
  unfold checkOps at h
  split at h
  · cases h
  · rename_i hnone
    have hmem : op ∈ root.ops := List.mem_map.mpr ⟨_, OpTree.mem_nodes hw hs, rfl⟩
    simpa using List.find?_eq_none.mp hnone op hmem

/-- The tree below a reshape at the root is a subtree, or one node in the place of the reshape. -/
theorem belowReshape_cases (ast : Ast) :
    OpTree.Subtree (belowReshape ast).1 ast ∨
      ∃ id x, (belowReshape ast).1 = .node id (.unary .noop) [.leaf x] := by
  unfold belowReshape
  split
  · rename_i id shape source
    cases source with
    | leaf x => exact .inr ⟨id, x, rfl⟩
    | node id' op sources => exact .inl (OpTree.subtree_source List.mem_cons_self)
  · exact .inl (.refl _)

theorem wellShared_belowReshape {ast : Ast} (h : ast.WellShared) :
    (belowReshape ast).1.WellShared := by
  rcases belowReshape_cases ast with hs | ⟨id, x, hx⟩
  · exact h.subtree hs
  · rw [hx]
    exact OpTree.wellShared_single id _ x

theorem saturated_belowReshape {ast : Ast} (h : ast.Saturated) :
    (belowReshape ast).1.Saturated := by
  rcases belowReshape_cases ast with hs | ⟨id, x, hx⟩
  · exact h.subtree hs
  · rw [hx]
    intro id' op sources hs
    obtain ⟨-, rfl, rfl⟩ := OpTree.node_of_subtree_single hs
    rfl

end Ast

namespace Kernel

variable {k k' : Kernel}

theorem isReduce_iff {op : Op} : op.isReduce = true ↔ ∃ r shape, op = .reduce r shape := by
  cases op <;> simp [Op.isReduce]

/-- A lowered tree without a reduction that could be folded has none at all. -/
theorem find?_eq_none_of_reduced? {count : Nat} (hl : k.ast.Lowered count)
    (h : k.reduced? = none) : k.ast.find? Op.isReduce = none := by
  unfold reduced? at h
  cases hfind : k.ast.find? Op.isReduce with
  | none => rfl
  | some n =>
    obtain ⟨id, op, sources⟩ := n
    obtain ⟨hs, hop⟩ := OpTree.subtree_of_find? hfind
    obtain ⟨r, shape, hr⟩ := isReduce_iff.mp hop
    dsimp only at hr hs
    subst hr
    rw [hfind] at h
    cases hl.subtree hs with
    | reduce hx => cases h

/-- The operand of the reduction is part of the tree. -/
theorem subtree_of_reduced? {op : Reduction} {operand : OpTree Nat}
    (h : k.reduced? = some (op, operand)) : OpTree.Subtree operand k.ast := by
  unfold reduced? at h
  split at h
  · rename_i hfind
    cases h
    exact .trans (OpTree.subtree_source List.mem_cons_self) (OpTree.subtree_of_find? hfind).1
  · cases h

/-! ## What the generated source relies on -/

/-- A sound kernel with a tree that can be evaluated, inputs that are read inside their buffers, and
an output that spans the whole space unless there is a reduction. -/
structure Grounded (k : Kernel) : Prop where
  sound : k.Sound
  lowered : k.ast.Lowered k.inputs.length
  staysIn : ∀ o ∈ k.inputs, o.tracker.StaysIn o.buffer.len
  whole : k.reduced? = none → k.output.shape = k.space

/-- A grounded kernel with its axes arranged. -/
structure Ready (k : Kernel) : Prop extends Grounded k where
  ordered : k.Ordered

/-- Another layout of a kernel has the same tree and reads the same positions. -/
theorem Grounded.relaid {f : List Nat → List Nat} (hk : k.Grounded) (h : k.Relaid k' f) :
    k'.Grounded where
  sound := h.sound
  lowered := by
    rw [h.ast, ← (List.forall₂_cons.mp h.operands).2.length_eq]
    exact hk.lowered
  staysIn := by
    intro o' ho'
    obtain ⟨o, ho, hb, -, hr⟩ :=
      exists_of_forall₂_right (List.forall₂_cons.mp h.operands).2 ho'
    rw [hb]
    exact (hk.staysIn o ho).perm hr
  whole hr := by
    rw [(List.forall₂_cons.mp h.operands).1.2.1, h.space, hk.whole]
    rw [← hr, reduced?, reduced?, h.ast]

theorem staysIn_of_builtOver {t : Tracker} {size len : Nat} (h : t.BuiltOver size)
    (hle : size ≤ len) : t.StaysIn len := by
  intro n hn
  obtain ⟨idx, hidx, hread⟩ := List.mem_map.mp hn
  exact Nat.lt_of_lt_of_le (Tracker.read_lt h.within (Shape.mem_indices.mp hidx) hread) hle

/-- Without a reduction in the numbered tree there is none in the tree itself. -/
theorem resultShape_of_find? {root : Ast} (hw : root.WellShared) {number : Operand → Nat}
    (h : (root.map number).find? Op.isReduce = none) (full : List Nat) :
    Ast.resultShape root full = full := by
  unfold Ast.resultShape
  split
  · rename_i hfind
    obtain ⟨hs, -⟩ := OpTree.subtree_of_find? hfind
    have hs := OpTree.subtree_map (f := number) hs
    rw [OpTree.map] at hs
    have := List.find?_eq_none.mp h _ (OpTree.mem_nodes (hw.map number) hs)
    exact absurd rfl this
  · rfl

theorem ast_initial {root : Ast} (hw : root.WellShared) (full : List Nat) (output : Buffer) :
    (initial root full output).ast =
      root.map fun leaf => 1 + root.leaves.eraseDups.findIdx (· = leaf) :=
  OpTree.mapLeaves_eq_map hw _

/-- Leaves are counted from 1 in the order of the inputs. -/
theorem number_le {root : Ast} {o : Operand} (h : o ∈ root.leaves) :
    1 + root.leaves.eraseDups.findIdx (· = o) ≤ root.leaves.eraseDups.length := by
  have hmem : o ∈ root.leaves.eraseDups := List.mem_eraseDups.mpr h
  have := List.findIdx_lt_length_of_exists (p := (decide <| · = o)) ⟨o, hmem, by simp⟩
  omega

theorem lowered_initial {root : Ast} (hw : root.WellShared) (hs : root.Saturated)
    (hops : Ast.checkOps root = .ok ()) (full : List Nat) (output : Buffer) :
    (initial root full output).ast.Lowered root.leaves.eraseDups.length := by
  rw [ast_initial hw]
  refine OpTree.lowered_map hs (fun _ _ _ hn => Ast.isLowered_of_checkOps hw hops hn)
    fun o ho => ⟨by omega, number_le (OpTree.mem_leaves hw ho)⟩

/-- Without a reduction the output has the shape of the space. -/
theorem resultShape_of_reduced? {root : Ast} {full : List Nat} {output : Buffer}
    (hw : root.WellShared) (hs : root.Saturated) (hops : Ast.checkOps root = .ok ())
    (hr : (initial root full output).reduced? = none) : Ast.resultShape root full = full := by
  have hfind := find?_eq_none_of_reduced? (lowered_initial hw hs hops full output) hr
  rw [ast_initial hw] at hfind
  exact resultShape_of_find? hw hfind full

theorem grounded_initial {root : Ast} {full : List Nat} {output : Buffer}
    (hsound : (initial root full output).Sound) (hfull : (initial root full output).space = full)
    (hw : root.WellShared) (hs : root.Saturated) (hops : Ast.checkOps root = .ok ())
    (hleaves : ∀ o ∈ root.leaves, ∃ size ≤ o.buffer.len, o.tracker.BuiltOver size) :
    (initial root full output).Grounded := by
  refine ⟨hsound, lowered_initial hw hs hops full output, fun o ho => ?_, fun hr => ?_⟩
  · obtain ⟨size, hle, hsize⟩ := hleaves o (List.mem_eraseDups.mp ho)
    exact staysIn_of_builtOver hsize hle
  · rw [hfull, show (initial root full output).output.shape = Ast.resultShape root full from
      View.shape_row _, resultShape_of_reduced? hw hs hops hr]

/-- The kernel of a tree is ready. -/
theorem ready_ofAst {ast : Ast} {output : Buffer} (hw : ast.WellShared) (hs : ast.Saturated)
    (hleaves : ∀ o, OpTree.Subtree (.leaf o) ast →
      ∃ size ≤ o.buffer.len, o.tracker.BuiltOver size)
    (h : ofAst ast output = .ok k) : k.Ready := by
  have hleaf : ∀ o ∈ (Ast.belowReshape ast).1.leaves,
      ∃ size ≤ o.buffer.len, o.tracker.BuiltOver size := fun o ho =>
    hleaves o (Ast.subtree_of_belowReshape (OpTree.subtree_of_mem_leaves ho))
  have hwithin : ∀ o ∈ (Ast.belowReshape ast).1.leaves, ∃ bound, o.tracker.Within bound :=
    fun o ho => let ⟨size, _, hsize⟩ := hleaf o ho; ⟨size, hsize.within⟩
  obtain ⟨full, k₁, hops, -, -, hsound, hfull, hk₁, hk⟩ := ofAst_eq_ok hwithin h
  have hgrounded := grounded_initial hsound hfull (Ast.wellShared_belowReshape hw)
    (Ast.saturated_belowReshape hs) hops hleaf
  obtain ⟨f, hrelaid, -⟩ := hsound.dropUnitAxes rfl hk₁
  obtain ⟨g, hrelaid', -⟩ := hrelaid.sound.putReducedLast hk
  exact ⟨(hgrounded.relaid hrelaid).relaid hrelaid', hrelaid.sound.shaped.ordered_putReducedLast hk⟩

/-- The kernels that offered interventions lead to. -/
inductive Offered (start : Kernel) : Kernel → Prop
  | start : Offered start start
  | step {k k' : Kernel} {is : List Intervention} {i : Intervention} :
      Offered start k → k.interventions = .ok is → i ∈ is → k.after (intervene i) = .ok k' →
        Offered start k'

theorem mem_swapsBetween {first stop : Nat} {i : Intervention} :
    i ∈ Intervention.swapsBetween first stop ↔
      ∃ a b, i = .swap a b ∧ first ≤ a ∧ a < b ∧ b < stop := by
  simp only [Intervention.swapsBetween, List.mem_flatMap, List.mem_map, List.mem_range'_1]
  constructor
  · rintro ⟨a, ha, b, hb, rfl⟩
    exact ⟨a, b, rfl, by omega⟩
  · rintro ⟨a, b, rfl, hab⟩
    exact ⟨a, by omega, b, by omega, rfl⟩

/-- An exchange is offered between two spanned axes, or two that are not. -/
theorem keepsKinds_of_mem {is : List Intervention} {i : Intervention}
    (h : k.interventions = .ok is) (hmem : i ∈ is) : k.KeepsKinds i := by
  cases i with
  | unroll axis amount => trivial
  | swap a b =>
    obtain ⟨spanned, hspanned, h⟩ := bind_eq_ok.mp h
    obtain ⟨loops, hloops, h⟩ := bind_eq_ok.mp h
    obtain ⟨rfl, -⟩ := loops_eq_ok hloops
    obtain ⟨splits, hsplits, h⟩ := bind_eq_ok.mp h
    obtain rfl := pure_eq_ok.mp h
    refine ⟨spanned, hspanned, ?_⟩
    rcases List.mem_append.mp hmem with hmem | hmem
    · rcases List.mem_append.mp hmem with hmem | hmem
      · obtain ⟨_, _, hswap, _⟩ := mem_swapsBetween.mp hmem
        cases hswap
        omega
      · obtain ⟨_, _, hswap, _⟩ := mem_swapsBetween.mp hmem
        cases hswap
        omega
    · -- the other interventions are no exchanges
      obtain ⟨row, hrow, hmem⟩ := List.mem_flatten.mp hmem
      obtain ⟨_, -, hrow⟩ := exists_of_forall₂_right (mapM_eq_ok hsplits) hrow
      obtain ⟨sizes, -, hrow⟩ := bind_eq_ok.mp hrow
      rw [← pure_eq_ok.mp hrow] at hmem
      obtain ⟨_, -, h⟩ := List.mem_map.mp hmem
      cases h

/-- A ready kernel stays ready under an intervention that leaves each axis among those of its
kind. -/
theorem Ready.intervene {i : Intervention} (hk : k.Ready) (hi : k.KeepsKinds i)
    (h : k.after (Kernel.intervene i) = .ok k') : k'.Ready := by
  refine ⟨?_, hk.ordered.intervene hk.sound.shaped hi h⟩
  cases i with
  | swap a b =>
    obtain ⟨-, hrelaid, -⟩ := hk.sound.swap h
    exact hk.toGrounded.relaid hrelaid
  | unroll axis amount =>
    obtain ⟨-, -, hrelaid, -⟩ := hk.sound.unroll h
    exact hk.toGrounded.relaid hrelaid

/-- Every kernel that offered interventions lead to is ready. -/
theorem Offered.ready {start : Kernel} (h : start.Offered k) (hstart : start.Ready) :
    k.Ready := by
  induction h with
  | start => exact hstart
  | step _ his hi hk ih => exact ih.intervene (keepsKinds_of_mem his hi) hk

end Kernel

end TensorLoom
