import TensorLoom.Proofs.Kernel.Evaluate
import TensorLoom.Proofs.Kernel.Order

/-!
# Evaluation in another layout

A kernel that goes through the same iterations as another one computes the same, provided that the
values for each position of the output fold to the same (`Kernel.RelabelsBy.evaluated_eq`). They do
if the iterations for one position come in the same order (`Kernel.KeepsOrder`), as they do when the
axes are permuted and the reduced ones among them keep their order
(`Kernel.Sound.permuted_keepsOrder`).
-/

namespace TensorLoom

open Shape (InRange indices)

namespace Kernel

/-- What some indices that satisfy a condition give, in two numberings of them. -/
theorem perm_map_filter {α β γ : Type} {xs : List α} {ys : List β} {φ : β → α} {p : α → Bool}
    {q : β → Bool} {f : α → γ} {g : β → γ} (h : (ys.map φ).Perm xs)
    (hpq : ∀ y ∈ ys, q y = p (φ y)) (hfg : ∀ y ∈ ys, g y = f (φ y)) :
    ((ys.filter q).map g).Perm ((xs.filter p).map f) := by
  rw [List.filter_congr hpq,
    List.map_congr_left fun y hy => hfg y (List.mem_of_mem_filter hy), ← Function.comp_def f φ,
    ← List.map_map, ← Function.comp_def p φ, ← List.filter_map]
  exact (h.filter p).map f

/-- Data is checked against the buffers of the inputs. -/
theorem checkData_eq_buffers (k : Kernel) (data : List (Array Float32)) :
    k.checkData data =
      if data.length ≠ (k.inputs.map (·.buffer)).length then
        .error (.sizeMismatch (k.inputs.map (·.buffer)).length data.length)
      else match ((k.inputs.map (·.buffer)).zip data).find? (fun (b, xs) => b.len ≠ xs.size) with
        | some (b, xs) => .error (.sizeMismatch b.len xs.size)
        | none => .ok () := by
  rw [checkData, List.length_map, List.zip_map_left, List.find?_map]
  simp only [Function.comp_def, Prod.map_fst, Prod.map_snd, id_eq]
  congr 1
  generalize (k.inputs.zip data).find? _ = found
  cases found <;> rfl

theorem entry_alike {α β : Type} {R : α → β → Prop} {xs : List α} {ys : List β}
    (h : List.Forall₂ R xs ys) (i : Nat) : Alike R (entry xs i) (entry ys i) := by
  unfold entry
  by_cases hi : i < xs.length
  · have hi' : i < ys.length := h.length_eq ▸ hi
    rw [List.getElem?_eq_getElem hi, List.getElem?_eq_getElem hi']
    exact .ok ((List.forall₂_iff_get.mp h).2 i hi hi')
  · have hi' : ¬ i < ys.length := h.length_eq ▸ hi
    rw [List.getElem?_eq_none (Nat.le_of_not_lt hi), List.getElem?_eq_none (Nat.le_of_not_lt hi')]
    exact .error _

variable {k k₁ k' : Kernel}

namespace RelabelsBy

variable {φ : List Nat → List Nat}

theorem output (h : k.RelabelsBy k' φ) : k'.output.buffer = k.output.buffer ∧
    ∀ idx, InRange idx k'.space → k'.outCell idx = k.outCell (φ idx) := by
  obtain ⟨hb, hread⟩ := (List.forall₂_cons.mp h.operands).1
  exact ⟨hb, fun idx hi => congrArg (Option.getD · 0) (hread idx hi)⟩

theorem inRange_result (h : k.RelabelsBy k' φ) {idx : List Nat}
    (hi : InRange idx k'.output.shape) : InRange (φ idx) k.output.shape :=
  Shape.mem_indices.mp (h.result.mem_iff.mp (List.mem_map_of_mem (Shape.mem_indices.mpr hi)))

/-- The iterations for a position of the output are the same ones. -/
theorem perm_iterations {β : Type} (h : k.RelabelsBy k' φ) {f g : List Nat → β}
    (hfg : ∀ idx, InRange idx k'.space → g idx = f (φ idx)) (position : Nat) :
    (((indices k'.space).filter (k'.outCell · = position)).map g).Perm
      (((indices k.space).filter (k.outCell · = position)).map f) := by
  refine perm_map_filter h.space (fun idx hi => ?_) fun idx hi => hfg idx (Shape.mem_indices.mp hi)
  rw [h.output.2 idx (Shape.mem_indices.mp hi)]

/-- A function of the indices of one kernel is a function of those of another one. -/
abbrev Follows (k' : Kernel) (φ : List Nat → List Nat) (f g : List Nat → Float32) : Prop :=
  ∀ idx, InRange idx k'.space → g idx = f (φ idx)

theorem loadFn (h : k.RelabelsBy k' φ) (data : List (Array Float32)) (number : Nat) :
    Alike (Follows k' φ) (k.loadFn data number) (k'.loadFn data number) := by
  refine (entry_alike h.operands number).bind fun o o' _ _ ho => ?_
  refine (Alike.of_eq rfl).bind fun n _ _ _ hn => ?_
  subst hn
  refine (Alike.of_eq rfl).bind fun xs _ _ _ hxs => ?_
  subst hxs
  refine .ok fun idx hi => ?_
  rw [ho.2 idx hi]

theorem valueFn {load load' : Nat → Checked (List Nat → Float32)}
    {reduced reduced' : List Nat → Float32}
    (hload : ∀ n, Alike (Follows k' φ) (load n) (load' n))
    (hreduced : Follows k' φ reduced reduced')
    (t : OpTree Nat) :
    Alike (Follows k' φ) (Kernel.valueFn load reduced t) (Kernel.valueFn load' reduced' t) := by
  induction t using Kernel.valueFn.induct with
  | case1 number => exact hload number
  | case2 id op x ih =>
    rw [Kernel.valueFn, Kernel.valueFn]
    refine ih.bind fun f g _ _ hfg => .ok fun idx hi => ?_
    rw [hfg idx hi]
  | case3 id op a b iha ihb =>
    rw [Kernel.valueFn, Kernel.valueFn]
    refine iha.bind fun f g _ _ hfg => ihb.bind fun f' g' _ _ hfg' => .ok fun idx hi => ?_
    rw [hfg idx hi, hfg' idx hi]
  | case4 t h₁ h₂ h₃ =>
    rw [Kernel.valueFn, Kernel.valueFn]
    · exact .ok hreduced
    all_goals assumption

/-- The output is the same if the values follow. -/
theorem written_eq (h : k.RelabelsBy k' φ) (hk : k.Sound) (hk' : k'.Sound)
    {f g : List Nat → Float32} (hfg : Follows k' φ f g) : k'.written g = k.written f := by
  refine Array.ext_getElem? fun i => ?_
  by_cases hi : i < k'.output.buffer.len
  · obtain ⟨idx, hidx, rfl⟩ := hk'.placed.exists_outCell hi
    have hspace := hk'.placed.inRange_space hidx
    rw [getElem?_written hk' g hidx, h.output.2 idx hspace,
      getElem?_written hk f (h.inRange_result hidx), hfg idx hspace]
  · rw [Array.getElem?_eq_none (by rw [size_written]; omega),
      Array.getElem?_eq_none (by rw [size_written, ← h.output.1]; omega)]

/-- The accumulators are the same if the values for each position fold to the same. -/
theorem accumulated_eq (h : k.RelabelsBy k' φ) {op : Reduction} {f g : List Nat → Float32}
    (hfold : ∀ i,
      (((indices k'.space).filter (k'.outCell · = i)).map g).foldl op.combine op.identity =
        (((indices k.space).filter (k.outCell · = i)).map f).foldl op.combine op.identity) :
    k'.accumulated op g = k.accumulated op f := by
  refine Array.ext_getElem? fun i => ?_
  by_cases hi : i < k'.output.buffer.len
  · rw [getElem?_accumulated op g hi, getElem?_accumulated op f (h.output.1 ▸ hi), hfold i]
  · rw [Array.getElem?_eq_none (by rw [size_accumulated]; omega),
      Array.getElem?_eq_none (by rw [size_accumulated, ← h.output.1]; omega)]

theorem reducedFn (h : k.RelabelsBy k' φ) (acc : Option (Array Float32)) :
    Follows k' φ (k.reducedFn acc) (k'.reducedFn acc) := by
  intro idx hi
  cases acc with
  | none => rfl
  | some acc => rw [Kernel.reducedFn, Kernel.reducedFn, h.output.2 idx hi]

theorem checkData_eq (h : k.RelabelsBy k' φ) (data : List (Array Float32)) :
    k'.checkData data = k.checkData data := by
  have hbuffers : k'.inputs.map (·.buffer) = k.inputs.map (·.buffer) := by
    rw [← List.forall₂_eq_eq_eq, List.forall₂_map_left_iff, List.forall₂_map_right_iff]
    exact (List.forall₂_cons.mp h.operands).2.flip.imp fun _ _ ho => ho.1
  rw [checkData_eq_buffers, checkData_eq_buffers, hbuffers]

/-- What evaluation computes, overflow aside, is the same if the values of a reduction fold to the
same. -/
theorem evaluated_eq (h : k.RelabelsBy k' φ) (hk : k.Sound) (hk' : k'.Sound)
    (data : List (Array Float32))
    (hfold : k.checkData data = .ok () → ∀ op operand, k.reduced? = some (op, operand) → ∀ f g,
      Kernel.valueFn (k.loadFn data) (fun _ => 0) operand = .ok f → Follows k' φ f g → ∀ i,
        (((indices k'.space).filter (k'.outCell · = i)).map g).foldl op.combine op.identity =
          (((indices k.space).filter (k.outCell · = i)).map f).foldl op.combine op.identity) :
    k'.evaluated data = k.evaluated data := by
  have hload := fun n => h.loadFn data n
  have hwrite : ∀ acc, Alike (· = ·) (do
      let g ← Kernel.valueFn (k.loadFn data) (k.reducedFn acc) k.ast
      return k.written g : Attempt KernelError (Array Float32)) (do
      let g ← Kernel.valueFn (k'.loadFn data) (k'.reducedFn acc) k'.ast
      return k'.written g) := fun acc => by
    rw [h.ast]
    exact (valueFn hload (h.reducedFn acc) k.ast).lift.bind
      fun f g _ _ hfg => .ok (h.written_eq hk hk' hfg).symm
  have hreduced : k'.reduced? = k.reduced? := by rw [reduced?, reduced?, h.ast]
  refine (Alike.eq ?_).symm
  rw [evaluated, evaluated, h.checkData_eq, hreduced]
  cases hcheck : k.checkData data with
  | error e => exact .error _
  | ok _ =>
    cases hred : k.reduced? with
    | none => exact hwrite none
    | some reduced =>
      obtain ⟨op, operand⟩ := reduced
      refine (valueFn hload (fun _ _ => rfl) operand).lift.bind fun f g hf _ hfg => ?_
      rw [h.accumulated_eq (hfold hcheck op operand hred f g (liftM_eq_ok.mp hf) hfg)]
      exact hwrite (some (k.accumulated op f))

end RelabelsBy

/-- A kernel goes through the same iterations as another one, and in the same order through those
for one position of the output. -/
def KeepsOrder (k k' : Kernel) : Prop :=
  ∃ φ, k.RelabelsBy k' φ ∧ ∀ position,
    ((indices k'.space).filter (k'.outCell · = position)).map φ =
      (indices k.space).filter (k.outCell · = position)

namespace KeepsOrder

theorem refl (k : Kernel) : k.KeepsOrder k := by
  refine ⟨id, ⟨rfl, ?_, ?_, List.forall₂_same.mpr fun _ _ => ⟨rfl, fun _ _ => rfl⟩⟩,
    fun _ => List.map_id _⟩
  · rw [List.map_id]
  · rw [List.map_id]

theorem trans (h : k.KeepsOrder k₁) (h' : k₁.KeepsOrder k') : k.KeepsOrder k' := by
  obtain ⟨φ, h, hordered⟩ := h
  obtain ⟨ψ, h', hordered'⟩ := h'
  exact ⟨_, h.trans h', fun position => by rw [← List.map_map, hordered', hordered]⟩

/-- Any reduction folds the same values in the same order. -/
theorem evaluated_eq (h : k.KeepsOrder k') (hk : k.Sound) (hk' : k'.Sound)
    (data : List (Array Float32)) : k'.evaluated data = k.evaluated data := by
  obtain ⟨φ, h, hordered⟩ := h
  refine h.evaluated_eq hk hk' data fun _ op _ _ f g _ hfg i => ?_
  rw [← hordered i, List.map_map]
  refine congrArg (List.foldl op.combine op.identity) (List.map_congr_left fun idx hi => ?_)
  exact hfg idx (Shape.mem_indices.mp (List.mem_of_mem_filter hi))

end KeepsOrder

/-- All iterations come in the same order if the indices do. -/
theorem RelabelsBy.keepsOrder {φ : List Nat → List Nat} (h : k.RelabelsBy k' φ)
    (hmap : (indices k'.space).map φ = indices k.space) : k.KeepsOrder k' := by
  refine ⟨φ, h, fun position => ?_⟩
  rw [← hmap, List.filter_map]
  refine congrArg (List.map φ) (List.filter_congr fun idx hi => ?_)
  rw [Function.comp_apply, h.output.2 idx (Shape.mem_indices.mp hi)]

/-- Iterations for one position have the same index of the output. -/
theorem Sound.broadcastIndex_eq (hk : k.Sound) {i j : List Nat} (hi : InRange i k.space)
    (hj : InRange j k.space) (e : k.outCell i = k.outCell j) :
    broadcastIndex i k.output.shape = broadcastIndex j k.output.shape :=
  hk.output.read_inj (hk.index_inRange (mem_output k) hi) (hk.index_inRange (mem_output k) hj)
    (by rw [(hk.placed.read_output hi).1, (hk.placed.read_output hj).1, e])

/-- A permutation of the axes that keeps the order of the reduced ones. -/
theorem Sound.permuted_keepsOrder {order : List Nat} (hk : k.Sound)
    (ho : order.Perm (List.range (k.rank - k.unrolled)))
    (hsorted : order.Pairwise fun a b =>
      Shape.IsReduced k.output.shape k.space a → Shape.IsReduced k.output.shape k.space b → a < b)
    (h : order = List.range (k.rank - k.unrolled) ∧ k' = k ∨
      k.moveOperands (fun _ => pure (.permute (k.axisOrder order))) = .ok k') :
    k.KeepsOrder k' := by
  rcases h with ⟨-, rfl⟩ | h
  · exact .refl _
  obtain ⟨hrelaid, -, hrelabels⟩ := hk.permuteAxes ho h
  have hperm := perm_axisOrder ho
  rw [← hk.length_space] at hperm
  have hspace := hrelaid.space
  have hout := (List.forall₂_cons.mp hrelaid.operands).1.2.1
  have hsorted := pairwise_axisOrder ho hsorted
  refine ⟨_, hrelabels, fun position => ?_⟩
  refine List.Perm.eq_of_pairwise (fun _ _ _ _ h h' => absurd h' h.asymm) ?_
    ((Shape.pairwise_indices _).filter _) ?_
  · rw [List.pairwise_map]
    refine ((Shape.pairwise_indices _).filter _).imp_of_mem fun hi hj hij => ?_
    obtain ⟨hi, hcell⟩ := List.mem_filter.mp hi
    obtain ⟨hj, hcell'⟩ := List.mem_filter.mp hj
    have hi := Shape.mem_indices.mp hi
    have hj := Shape.mem_indices.mp hj
    have hsame := hrelaid.sound.broadcastIndex_eq hi hj
      ((of_decide_eq_true hcell).trans (of_decide_eq_true hcell').symm)
    rw [hspace] at hi hj
    rw [hout] at hsame
    exact hij.relabel_permute hperm (hk.broadcasts _ (mem_output k)) hi hj hsame hsorted
  · have := hrelabels.perm_iterations (f := id) (fun _ _ => rfl) position
    rwa [List.map_id] at this

end Kernel

end TensorLoom
