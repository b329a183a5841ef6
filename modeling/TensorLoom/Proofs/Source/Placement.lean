import TensorLoom.Proofs.Source.Legible
import TensorLoom.Proofs.Source.Simulation
import TensorLoom.Proofs.Tuning.Offers
import TensorLoom.Proofs.Tuning.Preservation

/-!
# Where the stores of a program go

The output of a kernel covers its buffer in every layout (`Kernel.Covering`), whatever the inputs
read. So the stores in the program that is read from the text of its source write each element of
the output once, over all work items together, and need no condition to do so. In a kernel that
reduces, the variable that a store writes has been updated at just those points of the iteration
space that belong to the element (`Kernel.Offered.stores_cover`).
-/

namespace TensorLoom

open Shape (InRange indices)
open IndexExpr (Stand)

/-- Each work item executes every store of a program once. The stores write inside an output of
`len` elements, and each element is written by one store of one work item. -/
structure CProgram.Covers (p : CProgram) (globalSize : List Nat) (len : Nat) : Prop where
  executed : ∀ item, InRange item globalSize → ∃ steps, p.steps item = some steps ∧
    (steps.filter (·.statement.isStore)).map (·.statement) = p.body.stores
  inside : ∀ item, InRange item globalSize → ∀ n < p.body.stores.length,
    ∃ position < len, p.target item n = some (position : Int)
  once : ∀ position < len, ∃! q : List Nat × Nat, InRange q.1 globalSize ∧
    q.2 < p.body.stores.length ∧ p.target q.1 q.2 = some (position : Int)

namespace Kernel

variable {k k' : Kernel} {src : KernelSource}

/-! ## Kernels that cover their output -/

/-- A kernel whose axes are arranged, and whose output covers its buffer and spans the whole space
unless there is a reduction. -/
structure Covering (k : Kernel) : Prop where
  shaped : k.Shaped
  ordered : k.Ordered
  output : k.output.Covers
  whole : k.reduced? = none → k.output.shape = k.space

theorem Covering.placed (hk : k.Covering) : k.Placed where
  toShaped := hk.shaped
  within := ⟨_, hk.output.within⟩
  output := hk.output.enumerates

theorem Covering.intervene (hk : k.Covering) {i : Intervention} (hi : k.Offers i)
    (hkinds : k.KeepsKinds i) (h : k.after (Kernel.intervene i) = .ok k') : k'.Covering := by
  obtain ⟨f, hf⟩ := hk.shaped.reshapes_intervene h
  obtain ⟨r, hr, rfl⟩ := (hk.shaped.intervene_meets hi).of_ok h
  refine ⟨hf.shaped, hk.ordered.intervene hk.shaped hkinds h,
    (List.forall₂_cons.mp hr.operands).1.covers hk.output, fun hreduced => ?_⟩
  rw [hf.output, hf.space, hk.whole]
  rw [← hreduced, reduced?, reduced?, hr.ast]

theorem covering_ofAst {ast : Ast} {output : Buffer} (hw : ast.WellShared) (hs : ast.Saturated)
    (hlen : output.len < Word.half) (h : ofAst ast output = .ok k) :
    k.Covering ∧ k.output.buffer = output := by
  obtain ⟨hshaped, hordered⟩ := ordered_ofAst h
  obtain ⟨hcovers, hbuffer⟩ := covers_ofAst hlen h
  refine ⟨⟨hshaped, hordered, hcovers, fun hr => ?_⟩, hbuffer⟩
  obtain ⟨full, tracker, k₁, hops, hspace, hout, -, htracker, hk₁, hk⟩ := ofAst_stages h
  have hshape := Tracker.shape_ofShape htracker
  obtain ⟨hstart, hfull⟩ := shaped_initial output hspace hout hshape
  obtain ⟨f, hf⟩ := hstart.dropUnitAxes rfl hk₁
  obtain ⟨g, hg⟩ := hf.shaped.putReducedLast hk
  have hreduced : (initial (Ast.belowReshape ast).1 full output).reduced? = none := by
    rw [← hr, reduced?, reduced?,
      ((hstart.lower_meets rfl).of_ok (bind_eq_ok.mpr ⟨k₁, hk₁, hk⟩)).ast]
  rw [hg.output, hg.space, hf.output, hf.space, hfull]
  exact congrArg (fun shape => g (f shape)) (hshape.trans (resultShape_of_reduced?
    (Ast.wellShared_belowReshape hw) (Ast.saturated_belowReshape hs) hops hreduced))

/-- Every kernel that offered interventions lead to covers its output. -/
theorem Offered.covering {start : Kernel} (h : start.Offered k) (hs : start.Covering) :
    k.Covering ∧ k.output.buffer = start.output.buffer := by
  induction h with
  | start => exact ⟨hs, rfl⟩
  | step _ his hi hk ih =>
    have hoffers := ih.1.shaped.offers_of_mem his hi
    obtain ⟨r, hr, rfl⟩ := (ih.1.shaped.intervene_meets hoffers).of_ok hk
    exact ⟨ih.1.intervene hoffers (keepsKinds_of_mem his hi) hk,
      (List.forall₂_cons.mp hr.operands).1.buffer.trans ih.2⟩

/-! ## Stores -/

variable {p : Plan} {spans reduced sizes outs : List Nat}

/-- The symbolic indices of the stores of a source stand for the indices of the output that a work
item writes. -/
theorem Covering.exists_stores (hk : k.Covering) (h : k.source = .ok src) :
    ∃ (p : Plan) (spans reduced sizes outs : List Nat) (points : List (List IndexExpr)),
      k.plan = .ok p ∧ p.Fits k spans reduced sizes outs ∧ src.globalSize = p.grid.globalSize ∧
      src.definitions = p.grid.definitions ∧
      List.Forall₂ (fun es s => ∃ address, k.output.tracker.address es = .ok address ∧
        s.position = address.position) points src.stores ∧
      ∀ names g, Stand names p.grid.names g → List.Forall₂ (Stand names) points (p.outputs g) := by
  have haddress : ∀ {es value s}, k.storeAt es value = .ok s →
      ∃ address, k.output.tracker.address es = .ok address ∧ s.position = address.position := by
    intro es value s hs
    obtain ⟨_, -, hs⟩ := bind_eq_ok.mp hs
    obtain ⟨address, ha, hs⟩ := bind_eq_ok.mp hs
    exact ⟨address, ha, pure_eq_ok.mp hs ▸ rfl⟩
  cases hr : k.reduced? with
  | none =>
    obtain ⟨p, hplan, hsize, hdefinitions, -, hstores⟩ := source_whole hr h
    obtain ⟨spans, reduced, sizes, outs, hp⟩ := hk.ordered.fits hk.shaped hplan
    obtain rfl : reduced = [] := by
      by_contra hne
      exact hp.reduces hne (hk.whole hr)
    refine ⟨p, spans, [], sizes, outs, p.unrolled.map p.inside, hplan, hp, hsize, hdefinitions,
      List.forall₂_map_left_iff.mpr (hstores.imp fun _ _ => haddress), fun names g hg => ?_⟩
    rw [hp.outputs_whole (hk.whole hr), hp.unrolled, List.forall₂_map_left_iff,
      List.forall₂_map_right_iff]
    refine List.forall₂_same.mpr fun u _ => ?_
    have hinside := hp.stand_inside hg .nil u
    rwa [Accumulation.entries, List.zipWith_nil_right] at hinside
  | some found =>
    obtain ⟨op, operand⟩ := found
    obtain ⟨p, a, hplan, -, hsize, hdefinitions, -, hstores⟩ := source_reduced hr h
    obtain ⟨spans, reduced, sizes, outs, hp⟩ := hk.ordered.fits hk.shaped hplan
    refine ⟨p, spans, reduced, sizes, outs,
      p.accumulators.map fun u => p.behind (Plan.extend p.marks u), hplan, hp, hsize, hdefinitions,
      ?_, fun names g hg => ?_⟩
    · rw [← List.zipIdx_map_fst 0 p.accumulators, List.map_map]
      exact List.forall₂_map_left_iff.mpr (hstores.imp fun _ _ => haddress)
    · rw [Plan.outputs, List.forall₂_map_left_iff, List.forall₂_map_right_iff]
      exact List.forall₂_same.mpr fun u _ => Plan.stand_behind hg _

theorem Covering.eval_position (hk : k.Covering) {names : Names} {es : List IndexExpr}
    {o : List Nat} (hs : Stand names es o) (ho : InRange o k.output.shape) {address : Address}
    (ha : k.output.tracker.address es = .ok address) :
    address.position.eval names = some (k.outCell o : Int) := by
  have hspace := hk.placed.inRange_space ho
  have hsays : Tracker.Says names address (some (k.outCell o)) :=
    (hk.placed.read_output hspace).1 ▸ Tracker.says_address hk.output.within hs
      (hk.placed.index_inRange (mem_output k) hspace) ha
  exact hsays.2

/-- The output tracker maps an index of the space to its cell. -/
theorem Covering.project_eq (hk : k.Covering) {idx : List Nat} (hi : InRange idx k.space) :
    k.project idx = .ok (some (k.outCell idx)) := by
  rw [project, hk.output.index_eq (hk.placed.index_inRange (mem_output k) hi),
    (hk.placed.read_output hi).1]

/-! ## Every element once -/

/-- A work item writes to the cells of the indices of the output that belong to it, without a
condition. -/
theorem Covering.exists_outputs (hk : k.Covering) (h : k.source = .ok src) :
    ∃ (p : Plan) (spans reduced sizes outs : List Nat), k.plan = .ok p ∧
      p.Fits k spans reduced sizes outs ∧ src.globalSize = p.grid.globalSize ∧
      (∀ s ∈ src.stores, ∃ es, k.output.tracker.address es = .ok ⟨s.position, []⟩) ∧
      ∀ item, InRange item src.globalSize →
        ∃ names, src.definitions.foldlM (IndexDefinition.run item) .none = some names ∧
          Stand names p.grid.names (Grid.indexOf spans item) ∧
          List.Forall₂ (fun s o => s.position.eval names = some (k.outCell o : Int)) src.stores
            (p.outputs (Grid.indexOf spans item)) := by
  obtain ⟨p, spans, reduced, sizes, outs, points, hplan, hp, hsize, hdefinitions, hpoints,
    hstand⟩ := hk.exists_stores h
  refine ⟨p, spans, reduced, sizes, outs, hplan, hp, hsize, fun s hs => ?_, fun item hitem => ?_⟩
  · obtain ⟨_, -, ⟨position, conditions⟩, ha, hposition⟩ := exists_of_forall₂_right hpoints hs
    obtain rfl := hk.output.forward.conditions_eq_nil ha
    have hposition : s.position = position := hposition
    exact ⟨_, hposition.symm ▸ ha⟩
  · rw [hsize] at hitem
    obtain ⟨names, hnames, hg⟩ := hp.stand_names hk.shaped hitem
    have houtputs := hstand names _ hg
    refine ⟨names, hdefinitions ▸ hnames, hg, List.forall₂_iff_get.mpr
      ⟨hpoints.length_eq.symm.trans houtputs.length_eq, fun i hi hi' => ?_⟩⟩
    have hi'' : i < points.length := hpoints.length_eq ▸ hi
    obtain ⟨address, ha, hposition⟩ := (List.forall₂_iff_get.mp hpoints).2 i hi'' hi
    rw [hposition]
    exact hk.eval_position ((List.forall₂_iff_get.mp houtputs).2 i hi'' hi')
      (hp.inRange_output (hp.indexOf_inRange hitem) (List.getElem_mem hi')) ha

/-- The position that a work item writes to by one of the stores of the program. -/
theorem target_eq (hread : src.Readable) {item : List Nat} {names : Names} {os : List (List Nat)}
    (hnames : src.definitions.foldlM (IndexDefinition.run item) .none = some names)
    (hstores : List.Forall₂ (fun s o => s.position.eval names = some (k.outCell o : Int))
      src.stores os) {n : Nat} {o : List Nat} (ho : os[n]? = some o) :
    src.program.target item n = some (k.outCell o : Int) := by
  obtain ⟨hn, rfl⟩ := List.getElem?_eq_some_iff.mp ho
  have hn' : n < src.stores.length := hstores.length_eq ▸ hn
  exact hread.target_eq hnames (List.getElem?_eq_getElem hn')
    ((List.forall₂_iff_get.mp hstores).2 n hn' hn)

end Kernel

namespace Plan.Fits

variable {p : Plan} {k : Kernel} {spans reduced sizes outs : List Nat}

/-- The indices of the output are those that the work items write, one after the other. -/
theorem indices_shape_items (h : p.Fits k spans reduced sizes outs) :
    indices k.output.shape =
      (indices p.grid.globalSize).flatMap fun item => p.outputs (Grid.indexOf spans item) := by
  rw [h.indices_shape, ← Grid.map_indexOf h.grid, List.flatMap_map]

/-- No index of the output is written twice. -/
theorem outputs_inj (h : p.Fits k spans reduced sizes outs) {item item' : List Nat}
    (hi : InRange item p.grid.globalSize) (hi' : InRange item' p.grid.globalSize) {n n' : Nat}
    {o : List Nat} (ho : (p.outputs (Grid.indexOf spans item))[n]? = some o)
    (ho' : (p.outputs (Grid.indexOf spans item'))[n']? = some o) : item = item' ∧ n = n' := by
  have hnodup := h.indices_shape_items ▸ Shape.nodup_indices k.output.shape
  obtain ⟨heach, hdisjoint⟩ := List.nodup_flatMap.mp hnodup
  have hi := Shape.mem_indices.mpr hi
  have hi' := Shape.mem_indices.mpr hi'
  obtain rfl : item = item' := by
    by_contra hne
    have : Std.Symm (Function.onFun List.Disjoint
        fun item => p.outputs (Grid.indexOf spans item)) := ⟨fun _ _ hd => hd.symm⟩
    exact hdisjoint.forall hi hi' hne (List.mem_of_getElem? ho) (List.mem_of_getElem? ho')
  have hn : n < (p.outputs (Grid.indexOf spans item)).length :=
    (List.getElem?_eq_some_iff.mp ho).1
  exact ⟨rfl, (List.getElem?_inj hn (heach item hi)).mp (ho.trans ho'.symm)⟩

end Plan.Fits

namespace Kernel

variable {k : Kernel} {src : KernelSource}

/-- The stores of all work items write each element of the output once. -/
theorem Covering.covers (hk : k.Covering) (h : k.source = .ok src) :
    src.program.Covers src.globalSize k.output.buffer.len := by
  have hread := hk.ordered.readable_source hk.shaped h
  obtain ⟨p, spans, reduced, sizes, outs, -, hp, hsize, -, hitem⟩ := hk.exists_outputs h
  have hlength : src.program.body.stores.length = src.stores.length := by
    rw [KernelSource.stores_program, List.length_map]
  constructor
  case executed =>
    intro item hi
    obtain ⟨names, hnames, -, -⟩ := hitem item hi
    refine ⟨_, (hread.steps_eq hnames).1, ?_⟩
    rw [KernelSource.filter_steps, List.map_map, KernelSource.stores_program]
    rfl
  case inside =>
    intro item hi n hn
    obtain ⟨names, hnames, -, hstores⟩ := hitem item hi
    have hn' : n < (p.outputs (Grid.indexOf spans item)).length := hstores.length_eq ▸ hlength ▸ hn
    have ho := hp.inRange_output (hp.indexOf_inRange (hsize ▸ hi)) (List.getElem_mem hn')
    exact ⟨_, (hk.placed.read_output (hk.placed.inRange_space ho)).2,
      target_eq hread hnames hstores (List.getElem?_eq_getElem hn')⟩
  case once =>
    intro position hposition
    obtain ⟨o, ho, rfl⟩ := hk.placed.exists_outCell hposition
    have hmem := Shape.mem_indices.mpr ho
    rw [hp.indices_shape_items] at hmem
    obtain ⟨item, hi, hmem⟩ := List.mem_flatMap.mp hmem
    obtain ⟨n, hn⟩ := List.getElem?_of_mem hmem
    have hi : InRange item src.globalSize := hsize ▸ Shape.mem_indices.mp hi
    refine ⟨(item, n), ?_, ?_⟩
    · obtain ⟨names, hnames, -, hstores⟩ := hitem item hi
      refine ⟨hi, ?_, target_eq hread hnames hstores hn⟩
      rw [hlength, hstores.length_eq]
      exact (List.getElem?_eq_some_iff.mp hn).1
    · rintro ⟨item', n'⟩ ⟨hi', hn', htarget⟩
      dsimp only at hi' hn' htarget
      obtain ⟨names, hnames, -, hstores⟩ := hitem item' hi'
      have ho' := List.getElem?_eq_getElem (hstores.length_eq ▸ hlength ▸ hn')
      rw [target_eq hread hnames hstores ho'] at htarget
      obtain rfl := hk.placed.outCell_inj (hp.inRange_output
        (hp.indexOf_inRange (hsize ▸ hi')) (List.mem_of_getElem? ho')) ho
          (Int.ofNat.inj (Option.some.inj htarget))
      obtain ⟨rfl, rfl⟩ := hp.outputs_inj (hsize ▸ hi') (hsize ▸ hi) ho' hn
      rfl

/-- No store has a condition: it writes to the position that the output tracker gives, whatever the
indices are. -/
theorem Covering.stores_unguarded (hk : k.Covering) (h : k.source = .ok src) :
    ∀ s ∈ src.program.body.stores, ∃ es position value,
      k.output.tracker.address es = .ok ⟨position, []⟩ ∧
      s = .store src.program.output position.tree value := by
  obtain ⟨-, -, -, -, -, -, -, -, hconditions, -⟩ := hk.exists_outputs h
  intro s hs
  rw [KernelSource.stores_program] at hs
  obtain ⟨t, ht, rfl⟩ := List.mem_map.mp hs
  obtain ⟨es, ha⟩ := hconditions t ht
  exact ⟨es, t.position, t.value.tree, ha, rfl⟩

/-- The stores of the work items are as many as the elements of the output. -/
theorem Covering.exists_workItems (hk : k.Covering) (h : k.source = .ok src) :
    ∃ launch items, LaunchShape.ofSizes src.globalSize none = .ok launch ∧
      launch.workItems = .ok items ∧
      items * src.program.body.stores.length = k.output.buffer.len := by
  rw [KernelSource.stores_program, List.length_map]
  obtain ⟨p, spans, reduced, sizes, outs, -, hp, hsize, -, hitem⟩ := hk.exists_outputs h
  obtain ⟨launch, hlaunch, hpos, hprod⟩ := hk.shaped.exists_launch h
  have hcount : src.globalSize.prod * src.stores.length = k.output.buffer.len := by
    have hlength := congrArg List.length hp.indices_shape_items
    rw [Shape.length_indices, hk.output.prod_shape, List.length_flatMap, ← hsize,
      List.map_congr_left fun item hi => ?_, List.map_const', List.sum_replicate_nat,
      Shape.length_indices] at hlength
    · exact hlength.symm
    · obtain ⟨_, -, -, hstores⟩ := hitem item (Shape.mem_indices.mp hi)
      exact hstores.length_eq.symm
  have hfits := hk.output.counted.shape.fits
  have hsome := Shape.prod_pos hk.output.counted.shape.positive
  rw [← Operand.shape, hk.output.prod_shape, ← hcount] at hfits hsome
  have hle := Nat.le_mul_of_pos_right src.globalSize.prod (Nat.pos_of_mul_pos_left hsome)
  refine ⟨launch, _, hlaunch, LaunchShape.workItems_eq hpos ?_, hprod ▸ hcount⟩
  have := Shape.half_lt_bound
  omega

/-! ## What an accumulator folds -/

/-- The updates of an accumulation, one for each index of the unrolled axes. -/
theorem accumulation_updates {op : Reduction} {operand : OpTree Nat} {p : Plan} {a : Accumulation}
    (ha : k.accumulation p op operand = .ok a) :
    a.loops = p.loops ∧ List.Forall₂ (fun i (u : Update) => u.accumulator = p.accumulatorOf i ∧
      k.symbolicValue (p.inside i) .zero operand = .ok u.value) p.unrolled a.updates := by
  obtain ⟨updates, hupdates, ha⟩ := bind_eq_ok.mp ha
  obtain rfl := pure_eq_ok.mp ha
  refine ⟨rfl, (mapM_eq_ok hupdates).imp fun i u hu => ?_⟩
  obtain ⟨v, hv, hu⟩ := bind_eq_ok.mp hu
  obtain rfl := pure_eq_ok.mp hu
  exact ⟨rfl, hv⟩

/-- An executed statement folds the value at a point of the iteration space into the variable that
an accumulator is named after: it is an update for symbolic indices that stand for the point. -/
def FoldsAt (k : Kernel) (op : Reduction) (operand : OpTree Nat) (t : CStep)
    (fold : Nat × List Int) : Prop :=
  ∃ es value, k.symbolicValue es .zero operand = .ok value ∧
    es.mapM (·.eval t.names) = some fold.2 ∧
    t.statement = .assign (accumulatorName fold.1)
      (op.combineTree (.name (accumulatorName fold.1)) value.tree)

/-- In every work item the assignments of a program fold the values at points of the iteration
space, and a store writes an accumulator into which the points have been folded that belong to the
position it is written to, and no others. -/
def Accumulates (k : Kernel) (globalSize : List Nat) (program : CProgram) : Prop :=
  ∀ op operand, k.reduced? = some (op, operand) → ∀ item, InRange item globalSize →
    ∃ steps folds, program.steps item = some steps ∧
      List.Forall₂ (k.FoldsAt op operand) (steps.filter (·.statement.isAssign)) folds ∧
      ∀ n < program.body.stores.length, ∃ es s, ∃ position : Nat,
        k.storeAt es (.accumulator n) = .ok s ∧ program.body.stores[n]? = some s.statement ∧
        program.target item n = some (position : Int) ∧
        (folds.filter (·.1 = n)).map (·.2) =
          ((indices k.space).filter (k.project · = .ok (some position))).map
            (·.map fun i : Nat => (i : Int))

/-- The loops of an accumulation go through the points of a work item, in row-major order. -/
theorem folds_points {p : Plan} {spans reduced sizes outs : List Nat}
    (hp : p.Fits k spans reduced sizes outs) {op : Reduction} {operand : OpTree Nat}
    {a : Accumulation} (ha : k.accumulation p op operand = .ok a) {names : Names} {g : List Nat}
    (hg : Stand names p.grid.names g) :
    List.Forall₂ (k.FoldsAt op operand)
      ((indices (a.loops.map (·.bound))).flatMap fun r => a.updates.map fun u =>
        ⟨names.defineAll (Accumulation.entries a.loops r), u.statement op⟩)
      ((indices (reduced ++ sizes)).map fun j =>
        (p.accumulatorOf (j.drop reduced.length), (g ++ j).map fun i : Nat => (i : Int))) := by
  obtain ⟨hloops, hupdates⟩ := accumulation_updates ha
  rw [hloops, hp.bounds, Shape.indices_append, List.map_flatMap]
  refine forall₂_flatMap (List.forall₂_same.mpr fun _ _ => rfl) ?_
  rintro r hr _ rfl
  rw [hp.unrolled] at hupdates
  rw [List.map_map, List.forall₂_map_left_iff, List.forall₂_map_right_iff]
  refine hupdates.flip.imp fun u i hu => ?_
  obtain ⟨haccumulator, hvalue⟩ := hu
  have hdrop : (r ++ i).drop reduced.length = i := by
    rw [← (Shape.mem_indices.mp hr).length_eq, List.drop_left]
  refine ⟨p.inside i, u.value, hvalue, ?_, ?_⟩
  · exact mapM_eq_some (hp.stand_inside hg (Shape.mem_indices.mp hr) i)
  · rw [Function.comp_apply, hdrop, ← haccumulator]
    rfl

/-- A store writes an accumulator that has been updated at the points of the iteration space that
belong to the position it is written to. -/
theorem Covering.accumulates (hk : k.Covering) (h : k.source = .ok src) :
    k.Accumulates src.globalSize src.program := by
  intro op operand hr item hi
  have hread := hk.ordered.readable_source hk.shaped h
  obtain ⟨p, spans, reduced, sizes, outs, hplan, hp, hsize, -, hitem⟩ := hk.exists_outputs h
  obtain ⟨p', a, hplan', ha, -, -, haccumulation, hsymbolic⟩ := source_reduced hr h
  obtain rfl := Except.ok.inj (hplan.symm.trans hplan')
  obtain ⟨names, hnames, hg, hstores⟩ := hitem item hi
  have hop : a.op = op := by
    obtain ⟨_, -, ha⟩ := bind_eq_ok.mp ha
    exact pure_eq_ok.mp ha ▸ rfl
  have hfolds := folds_points hp ha hg
  rw [← hop, ← KernelSource.filter_assigns haccumulation, hop] at hfolds
  refine ⟨_, _, (hread.steps_eq hnames).1, hfolds, fun n hn => ?_⟩
  rw [KernelSource.stores_program, List.length_map] at hn
  have hn' : n < (p.outputs (Grid.indexOf spans item)).length := hstores.length_eq ▸ hn
  have hstore := (List.forall₂_iff_get.mp hsymbolic).2 n (hsymbolic.length_eq ▸ hn) hn
  rw [List.get_eq_getElem, List.getElem_zipIdx, Nat.zero_add] at hstore
  refine ⟨_, _, _, hstore, ?_,
    target_eq hread hnames hstores (List.getElem?_eq_getElem hn'), ?_⟩
  · rw [KernelSource.stores_program, List.getElem?_map, List.getElem?_eq_getElem hn]
    rfl
  have hcells : (indices k.space).filter (k.project · =
      .ok (some (k.outCell (p.outputs (Grid.indexOf spans item))[n]))) =
      (indices k.space).filter
        (k.outCell · = k.outCell (p.outputs (Grid.indexOf spans item))[n]) :=
    List.filter_congr fun idx hidx => by
      rw [hk.project_eq (Shape.mem_indices.mp hidx)]
      simp
  have hin := hp.indexOf_inRange (hsize ▸ hi)
  rw [hcells, hp.filter_outCell hk.placed hin hn', List.filter_map, List.map_map, List.map_map]
  rfl

/-- Generated code writes every element of the output once, and without a condition. The code is the
text of the source of a kernel, read as C. The kernel is that of a tree, after interventions that
were offered, and its output is of a length that can be allocated (`Device.alloc_of_large`). If it
reduces, then what is written to an element has been accumulated over the points of the iteration
space that belong to it. -/
theorem Offered.stores_cover {ast : Ast} {output : Buffer} {start : Kernel} (hw : ast.WellShared)
    (hs : ast.Saturated) (hlen : output.len < Word.half) (hstart : ofAst ast output = .ok start)
    (hk : start.Offered k) (h : k.source = .ok src) :
    ∃ program, CProgram.read src.text = some program ∧
      program.Covers src.globalSize output.len ∧
      (∀ s ∈ program.body.stores, ∃ es position value,
        k.output.tracker.address es = .ok ⟨position, []⟩ ∧
        s = .store program.output position.tree value) ∧
      (∃ launch items, LaunchShape.ofSizes src.globalSize none = .ok launch ∧
        launch.workItems = .ok items ∧ items * program.body.stores.length = output.len) ∧
      k.Accumulates src.globalSize program := by
  obtain ⟨hcovering, rfl⟩ := covering_ofAst hw hs hlen hstart
  obtain ⟨hk, hbuffer⟩ := hk.covering hcovering
  rw [← hbuffer]
  exact ⟨src.program, (hk.ordered.readable_source hk.shaped h).read_text, hk.covers h,
    hk.stores_unguarded h, hk.exists_workItems h, hk.accumulates h⟩

/-- The sums of six rows, with the outer axis of the output unrolled: three work items with two
stores each. -/
theorem stores_cover_innerSum :
    ∃ k src program, innerSum.after (Kernel.intervene (.unroll 0 2)) = .ok k ∧
      k.source = .ok src ∧ src.globalSize = [1, 3] ∧ CProgram.read src.text = some program ∧
      program.Covers [1, 3] 6 ∧ program.body.stores.length = 2 ∧ k.Accumulates [1, 3] program := by
  obtain ⟨k, hk⟩ : ∃ k, innerSum.after (Kernel.intervene (.unroll 0 2)) = .ok k := ⟨_, rfl⟩
  have hoffered : innerSum.Offered k := .step .start rfl (by decide) hk
  obtain ⟨src, hsrc, hsize⟩ : ∃ src, k.source = .ok src ∧ src.globalSize = [1, 3] := by
    cases hk
    simp only [source, name, reduction?, reduced?, innerSum, OpTree.find?, OpTree.nodes,
      OpTree.walk_single]
    exact ⟨_, rfl, rfl⟩
  obtain ⟨program, hread, hcovers, -, ⟨launch, items, hlaunch, hitems, hcount⟩, haccumulates⟩ :=
    Offered.stores_cover wellShared_innerSumTree (OpTree.saturated_single rfl) (by decide)
      ofAst_innerSumTree hoffered hsrc
  rw [hsize] at hcovers hlaunch haccumulates
  obtain rfl : items = 3 := by
    cases hlaunch
    cases hitems
    rfl
  have hcount : 3 * program.body.stores.length = 6 := hcount
  exact ⟨k, src, program, hk, hsrc, hsize, hread, hcovers, by omega, haccumulates⟩

end Kernel

end TensorLoom
