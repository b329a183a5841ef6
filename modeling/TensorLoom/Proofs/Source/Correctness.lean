import TensorLoom.Proofs.Kernel.Indexed
import TensorLoom.Proofs.Source.Existence
import TensorLoom.Proofs.Source.Legible
import TensorLoom.Proofs.Source.Simulation
import TensorLoom.Proofs.Tuning.Preservation

/-!
# Generated source computes what the kernel does

A work item folds into each of its accumulators what the evaluation on the host folds for the same
position of the output, in the same order, and writes the elements of the output that belong to its
index of the spanned axes (`Kernel.Ready.runItem_reduced`, `Kernel.Ready.runItem_whole`). All work
items together, in any order, write each element once (`Kernel.run_eq_written`). The text of the
source is read as a program that does the same, so running this program computes what the kernel
evaluates to, after any interventions that were offered (`Kernel.source_computes_evaluate`).
-/

namespace TensorLoom

open Shape (InRange indices)
open IndexExpr (Stand)
open Cells

/-- The write of a value to the cell of an output index. -/
def Kernel.writeOf (k : Kernel) (f : List Nat → Float32) (o : List Nat) : Write :=
  ⟨k.outCell o, f o⟩

namespace Kernel

variable {k : Kernel} {data : List (Array Float32)} {p : Plan} {src : KernelSource}
  {spans reduced sizes outs : List Nat}

/-- The values folded for an index of the output. -/
def foldedAt (k : Kernel) (f : List Nat → Float32) (o : List Nat) : List Float32 :=
  ((indices k.space).filter (k.outCell · = k.outCell o)).map f

/-- What a work item of a kernel that reduces does. -/
theorem Ready.runItem_reduced (hk : k.Ready) (hdata : k.checkData data = .ok ())
    {op : Reduction} {operand : OpTree Nat} (hr : k.reduced? = some (op, operand))
    (h : k.source = .ok src) {f g : List Nat → Float32}
    (hf : valueFn (k.loadFn data) (fun _ => 0) operand = .ok f)
    (hg : valueFn (k.loadFn data) (k.reducedFn (some (k.accumulated op f))) k.ast = .ok g) :
    ∃ (p : Plan) (spans reduced sizes outs : List Nat), p.Fits k spans reduced sizes outs ∧
      src.globalSize = p.grid.globalSize ∧ (∃ a, src.accumulation = some a ∧ a.op = op) ∧
      ∀ item, InRange item src.globalSize → src.runItem data item =
        some ((p.outputs (Grid.indexOf spans item)).map (k.foldedAt f),
          (p.outputs (Grid.indexOf spans item)).map (k.writeOf g)) := by
  obtain ⟨p, a, hplan, ha, hsize, hdefinitions, haccumulation, hstores⟩ := source_reduced hr h
  obtain ⟨spans, reduced, sizes, outs, hp⟩ := hk.ordered.fits hk.sound.shaped hplan
  have hop : a.op = op := by
    obtain ⟨updates, -, ha⟩ := bind_eq_ok.mp ha
    exact pure_eq_ok.mp ha ▸ rfl
  refine ⟨p, spans, reduced, sizes, outs, hp, hsize, ⟨a, haccumulation, hop⟩, fun item hitem => ?_⟩
  rw [hsize] at hitem
  obtain ⟨names, hnames, hstand⟩ := hp.stand_names hk.sound.shaped hitem
  have hin := hp.indexOf_inRange hitem
  generalize Grid.indexOf spans item = i at hstand hin
  have hlength : (p.outputs i).length = p.accumulators.length := List.length_map ..
  -- the accumulators hold the values folded for the elements that the work item writes
  obtain ⟨-, hfolded⟩ :=
    hk.run_accumulation hdata hp (hk.lowered.subtree (subtree_of_reduced? hr))
    hf ha hstand hin
  have hfolded : a.run data names = some ((p.outputs i).map (k.foldedAt f)) := by
    rw [hfolded]
    refine congrArg some (List.ext_getElem (by simp [hlength]) fun m hm hm' => ?_)
    rw [List.length_map] at hm'
    rw [List.getElem_map, List.getElem_map, List.getElem_range, foldedAt,
      hp.filter_outCell hk.sound.placed hin hm', List.map_map]
    rfl
  have hwrites : src.stores.mapM
      (Store.run data names (Accumulation.values a.op ((p.outputs i).map (k.foldedAt f)))) =
        some ((p.outputs i).map (k.writeOf g)) := by
    refine mapM_eq_some (List.forall₂_iff_get.mpr ⟨?_, fun m hm hm' => ?_⟩)
    · rw [← hstores.length_eq, List.length_zipIdx, hlength]
    have ho := hp.inRange_output hin (List.getElem_mem hm')
    have hspace := hk.sound.placed.inRange_space ho
    have hm'' : m < p.accumulators.length := hlength ▸ hm'
    have hstore := (List.forall₂_iff_get.mp hstores).2 m (by rwa [List.length_zipIdx]) hm
    rw [List.get_eq_getElem, List.getElem_zipIdx, Nat.zero_add] at hstore
    have hbehind :
        Stand names (p.behind (Plan.extend p.marks p.accumulators[m])) (p.outputs i)[m] := by
      rw [show (p.outputs i)[m] =
        i ++ (List.replicate p.loops.length 0 ++ Plan.extend p.marks p.accumulators[m]) from
        List.getElem_map ..]
      exact Plan.stand_behind hstand _
    refine hk.run_storeAt hdata hbehind hspace ?_ hg hstore
    rw [Value.eval, Accumulation.values, hop, List.map_map, List.getElem?_map,
      List.getElem?_eq_getElem hm', Option.map_some, reducedFn, Array.getD_eq_getD_getElem?,
      getElem?_accumulated op f (hk.sound.placed.read_output hspace).2]
    rfl
  rw [KernelSource.runItem, hdefinitions, hnames, haccumulation]
  simp only [Option.bind_eq_bind, Option.bind_some, hfolded, hwrites]
  rfl

/-- What a work item of a kernel that does not reduce does. -/
theorem Ready.runItem_whole (hk : k.Ready) (hdata : k.checkData data = .ok ())
    (hr : k.reduced? = none) (h : k.source = .ok src) {g : List Nat → Float32}
    (hg : valueFn (k.loadFn data) (fun _ => 0) k.ast = .ok g) :
    ∃ (p : Plan) (spans reduced sizes outs : List Nat), p.Fits k spans reduced sizes outs ∧
      src.globalSize = p.grid.globalSize ∧
      ∀ item, InRange item src.globalSize → src.runItem data item =
        some ([], (p.outputs (Grid.indexOf spans item)).map (k.writeOf g)) := by
  obtain ⟨p, hplan, hsize, hdefinitions, haccumulation, hstores⟩ := source_whole hr h
  obtain ⟨spans, reduced, sizes, outs, hp⟩ := hk.ordered.fits hk.sound.shaped hplan
  refine ⟨p, spans, reduced, sizes, outs, hp, hsize, fun item hitem => ?_⟩
  rw [hsize] at hitem
  obtain ⟨names, hnames, hstand⟩ := hp.stand_names hk.sound.shaped hitem
  have hin := hp.indexOf_inRange hitem
  generalize Grid.indexOf spans item = i at hstand hin
  -- nothing is reduced, so the output spans all axes
  have hwhole := hk.whole hr
  obtain rfl : reduced = [] := by
    by_contra hne
    exact hp.reduces hne hwhole
  have hwrites : src.stores.mapM (Store.run data names []) =
      some ((p.outputs i).map (k.writeOf g)) := by
    rw [hp.outputs_whole hwhole, List.map_map, ← hp.unrolled]
    refine mapM_eq_some (List.forall₂_iff_get.mpr ⟨hstores.length_eq.symm, fun m hm hm' => ?_⟩)
    have hu : InRange p.unrolled[m] sizes :=
      Shape.mem_indices.mp (hp.unrolled ▸ List.getElem_mem hm')
    have hinside : Stand names (p.inside p.unrolled[m]) (i ++ p.unrolled[m]) := by
      have hinside := hp.stand_inside hstand .nil p.unrolled[m]
      rwa [Accumulation.entries, List.zipWith_nil_right] at hinside
    exact hk.run_storeAt hdata hinside (hp.space ▸ Shape.inRange_append hin hu) rfl hg
      ((List.forall₂_iff_get.mp hstores).2 m hm' hm)
  rw [KernelSource.runItem, hdefinitions, hnames, haccumulation]
  simp only [Option.bind_eq_bind, Option.bind_some, hwrites]
  rfl

/-! ## All work items -/

theorem foldlM_writes (hk : k.Sound) (f : List Nat → Float32) {os : List (List Nat)}
    (hos : ∀ o ∈ os, InRange o k.output.shape) {out : Array Float32}
    (hout : out.size = k.output.buffer.len) :
    (os.map (k.writeOf f)).foldlM Write.run out =
      some (foldCells k.outCell (fun o _ => f o) os out) := by
  rw [List.foldlM_map]
  refine foldlM_eq_some (·.size = k.output.buffer.len) (fun out hout o ho => ⟨?_, ?_⟩) hout
  · have hcell : k.outCell o < out.size :=
      hout ▸ (hk.placed.read_output (hk.placed.inRange_space (hos o ho))).2
    simp [Write.run, writeOf, positionIn, hcell]
  · rw [Array.size_modify, hout]

/-- Work items write the elements that belong to them. -/
theorem run_eq_foldCells (hk : k.Sound) (hp : p.Fits k spans reduced sizes outs)
    (hsize : src.globalSize = p.grid.globalSize) {f : List Nat → Float32}
    {values : List Nat → List (List Float32)}
    (hitem : ∀ item, InRange item src.globalSize → src.runItem data item =
      some (values item, (p.outputs (Grid.indexOf spans item)).map (k.writeOf f)))
    {items : List (List Nat)} (hitems : ∀ item ∈ items, InRange item src.globalSize)
    {out : Array Float32} (hout : out.size = k.output.buffer.len) :
    src.run data items out = some (foldCells k.outCell (fun o _ => f o)
      (items.flatMap fun item => p.outputs (Grid.indexOf spans item)) out) := by
  induction items generalizing out with
  | nil => rfl
  | cons item items ih =>
    have hin := hitems item List.mem_cons_self
    have hos : ∀ o ∈ p.outputs (Grid.indexOf spans item), InRange o k.output.shape :=
      fun o ho => hp.inRange_output (hp.indexOf_inRange (hsize ▸ hin)) ho
    rw [KernelSource.run, List.foldlM_cons, hitem item hin, List.flatMap_cons, foldCells_append]
    simp only [Option.bind_eq_bind, Option.bind_some, foldlM_writes hk f hos hout]
    exact ih (fun item h => hitems item (List.mem_cons_of_mem _ h)) (by rw [size_foldCells, hout])

/-- Written once each, in any order, the elements of the output are what they should be, whatever
was there before. -/
theorem foldCells_eq_written (hk : k.Sound) (f : List Nat → Float32) {os : List (List Nat)}
    (hos : os.Perm (indices k.output.shape)) {out : Array Float32}
    (hout : out.size = k.output.buffer.len) :
    foldCells k.outCell (fun o _ => f o) os out = k.written f := by
  have hnodup : os.Nodup := hos.nodup_iff.mpr (Shape.nodup_indices _)
  refine Array.ext_getElem? fun i => ?_
  by_cases hi : i < k.output.buffer.len
  · obtain ⟨o, ho, rfl⟩ := hk.placed.exists_outCell hi
    rw [getElem?_written hk f ho, getElem?_foldCells_of_unique hnodup
      (hos.mem_iff.mpr (Shape.mem_indices.mpr ho)) (fun o' ho' e =>
        hk.placed.outCell_inj (Shape.mem_indices.mp (hos.mem_iff.mp ho')) ho e),
      Array.getElem?_eq_getElem (hout ▸ hi)]
    rfl
  · rw [Array.getElem?_eq_none, Array.getElem?_eq_none]
    · rw [size_written]
      omega
    · rw [size_foldCells]
      omega

/-- All work items of a source together, in any order. -/
theorem run_eq_written (hk : k.Sound) (hp : p.Fits k spans reduced sizes outs)
    (hsize : src.globalSize = p.grid.globalSize) {f : List Nat → Float32}
    {values : List Nat → List (List Float32)}
    (hitem : ∀ item, InRange item src.globalSize → src.runItem data item =
      some (values item, (p.outputs (Grid.indexOf spans item)).map (k.writeOf f)))
    {items : List (List Nat)} (hitems : items.Perm (indices src.globalSize))
    {out : Array Float32} (hout : out.size = k.output.buffer.len) :
    src.run data items out = some (k.written f) := by
  rw [run_eq_foldCells hk hp hsize hitem
    (fun item h => Shape.mem_indices.mp (hitems.mem_iff.mp h)) hout]
  refine congrArg some (foldCells_eq_written hk f ?_ hout)
  rw [hp.indices_shape, ← Grid.map_indexOf hp.grid, List.flatMap_map, ← hsize]
  exact hitems.flatMap_right _

/-- The values that evaluation folds for the position of an output index. -/
theorem Sound.folded_yields (hk : k.Sound) {operand : OpTree Nat} {f : List Nat → Float32}
    (hf : valueFn (k.loadFn data) (fun _ => 0) operand = .ok f) (o : List Nat) :
    Yields (k.folded data operand (k.outCell o)) (k.foldedAt f o) := by
  refine collect_yields (fun idx hi => ⟨hk.placed.index_output (Shape.mem_indices.mp hi), ?_⟩) _
  have hvalue := valueOf_upTo (load_upTo hk data (Shape.mem_indices.mp hi)) (fun _ => 0) operand
  rwa [hf] at hvalue

/-- If no position overflows, these values are folded. -/
theorem Grounded.folded_eq (hk : k.Grounded) (hi : k.Indexed) {operand : OpTree Nat}
    (ho : operand.Lowered k.inputs.length) {f : List Nat → Float32}
    (hf : valueFn (k.loadFn data) (fun _ => 0) operand = .ok f) (o : List Nat) :
    k.folded data operand (k.outCell o) = .ok (k.foldedAt f o) := by
  refine collect_eq_ok (fun idx hidx => ?_) _
  have hin := Shape.mem_indices.mp hidx
  have hvalue := valueOf_upTo (load_upTo hk.sound data hin) (fun _ => 0) operand
  rw [hf] at hvalue
  exact ⟨(hi.project hin).eq_of_yields (hk.sound.placed.index_output hin),
    (hi.valueOf data hin 0 ho).eq_of_yields hvalue⟩

/-! ## The text -/

/-- In every work item, the variable of each accumulator goes through what folding gives: it starts
with the identity, and takes in one after the other the values that the evaluation folds for the
position that the store of the accumulator writes to. -/
def FoldsAlike (k : Kernel) (data : List (Array Float32)) (globalSize : List Nat)
    (program : CProgram) : Prop :=
  ∀ op operand, k.reduced? = some (op, operand) →
    ∀ item before, InRange item globalSize → before.size = k.output.buffer.len →
      ∃ st, program.runItem data item before = some st ∧ ∀ n < program.body.stores.length,
        ∃ (position : Nat) (values : List Float32), program.target item n = some (position : Int) ∧
          Yields (k.folded data operand position) values ∧
          (k.Indexed → k.folded data operand position = .ok values) ∧
          st.floats (accumulatorName n) = some (values.scanl op.combine op.identity)

/-- The text of the source of a ready kernel is read as a program. Run for all work items in any
order, it computes what the kernel evaluates to, and each accumulator folds the same values in the
same order. -/
theorem Ready.run_source (hk : k.Ready) (hdata : k.checkData data = .ok ())
    (h : k.source = .ok src) :
    ∃ program out, CProgram.read src.text = some program ∧
      UpTo (.fault .overflow) (k.evaluate data) (.ok out) ∧
      (∀ items before, items.Perm (indices src.globalSize) →
        before.size = k.output.buffer.len → program.run data items before = some out) ∧
      k.FoldsAlike data src.globalSize program := by
  have hreadable := hk.ordered.readable_source hk.sound.shaped h
  have hbuffers : data.length < src.buffers := by
    rw [(source_head h).2, operands, List.length_cons, (checkData_eq_ok hdata).length_eq]
    exact Nat.lt_succ_self _
  have hevaluate := evaluate_upTo hk.sound data
  rw [evaluated, hdata] at hevaluate
  cases hr : k.reduced? with
  | none =>
    obtain ⟨g, hg⟩ := exists_valueFn hdata hk.lowered (fun _ => 0)
    obtain ⟨p, spans, reduced, sizes, outs, hp, hsize, hitem⟩ :=
      hk.runItem_whole hdata hr h hg
    refine ⟨src.program, k.written g, hreadable.read_text, hevaluate.trans_eq ?_,
      fun items before hitems hbefore =>
        hreadable.run_eq hbuffers (run_eq_written hk.sound hp hsize hitem hitems hbefore),
      fun _ _ h => by rw [hr] at h; cases h⟩
    rw [hr]
    exact bind_eq_ok.mpr ⟨none, rfl, bind_eq_ok.mpr ⟨g, liftM_eq_ok.mpr hg, rfl⟩⟩
  | some found =>
    obtain ⟨op, operand⟩ := found
    have hoperand := hk.lowered.subtree (subtree_of_reduced? hr)
    obtain ⟨f, hf⟩ := exists_valueFn hdata hoperand (fun _ => 0)
    obtain ⟨g, hg⟩ :=
      exists_valueFn hdata hk.lowered (k.reducedFn (some (k.accumulated op f)))
    obtain ⟨p, spans, reduced, sizes, outs, hp, hsize, ⟨a, hacc, hop⟩, hitem⟩ :=
      hk.runItem_reduced hdata hr h hf hg
    refine ⟨src.program, k.written g, hreadable.read_text, hevaluate.trans_eq ?_,
      fun items before hitems hbefore =>
        hreadable.run_eq hbuffers (run_eq_written hk.sound hp hsize hitem hitems hbefore), ?_⟩
    · rw [hr]
      exact bind_eq_ok.mpr ⟨f, liftM_eq_ok.mpr hf, bind_eq_ok.mpr ⟨some (k.accumulated op f), rfl,
        bind_eq_ok.mpr ⟨g, liftM_eq_ok.mpr hg, rfl⟩⟩⟩
    · intro op' operand' hr' item before hin hbefore
      obtain ⟨rfl, rfl⟩ := Prod.mk.inj (Option.some.inj (hr.symm.trans hr'))
      have hos : ∀ o ∈ p.outputs (Grid.indexOf spans item), InRange o k.output.shape :=
        fun o ho => hp.inRange_output (hp.indexOf_inRange (hsize ▸ hin)) ho
      obtain ⟨st, hst, -, htracks⟩ := hreadable.runItem_eq hbuffers (hitem item hin)
        (foldlM_writes hk.sound g hos hbefore)
      obtain ⟨hlength, htargets⟩ := hreadable.targets_of_runItem (hitem item hin)
      refine ⟨st, hst, fun n hn => ?_⟩
      rw [hlength, List.length_map] at hn
      generalize ho : (p.outputs (Grid.indexOf spans item))[n] = o
      refine ⟨k.outCell o, k.foldedAt f o, ?_, hk.sound.folded_yields hf o,
        fun hi => hk.folded_eq hi hoperand hf o, ?_⟩
      · exact htargets n (k.writeOf g o) (by simp [hn, ho])
      · exact hop ▸ htracks a hacc n _ (by simp [hn, ho])

/-- Generated source computes what the kernel does. The kernel is that of a tree, after
interventions that were offered, and its source is the text that is written for it, read as C. There
is no source only if a number or a table in it is too large, and the evaluation on the host
overflows only if the position of an index does. -/
theorem source_computes_evaluate {ast : Ast} {output : Buffer} {start : Kernel}
    (hw : ast.WellShared) (hs : ast.Saturated)
    (hleaves : ∀ o, OpTree.Subtree (.leaf o) ast →
      ∃ size ≤ o.buffer.len, o.tracker.BuiltOver size)
    (hstart : ofAst ast output = .ok start) (hk : start.Offered k)
    (hdata : k.checkData data = .ok ()) :
    (¬ (k.Counted ∧ TableFits k.unrolledSizes) ∧
      (k.source = .error .overflow ∨ k.source = .error .unaddressable)) ∨
    ∃ src program out, k.source = .ok src ∧ CProgram.read src.text = some program ∧
      (k.Indexed → k.evaluate data = .ok out) ∧
      UpTo (.fault .overflow) (k.evaluate data) (.ok out) ∧
      (∀ items before, items.Perm (indices src.globalSize) →
        before.size = k.output.buffer.len → program.run data items before = some out) ∧
      k.FoldsAlike data src.globalSize program := by
  have hready := hk.ready (ready_ofAst hw hs hleaves hstart)
  cases hsource : k.source with
  | error e =>
    obtain ⟨hcause, hlarge⟩ :=
      (hready.sound.shaped.source_meets hready.numbered).of_error hsource
    exact .inl ⟨hlarge, hcause.imp (congrArg _) (congrArg _)⟩
  | ok src =>
    obtain ⟨program, out, hread, hout, hrun, hfolds⟩ := hready.run_source hdata hsource
    exact .inr ⟨src, program, out, rfl, hread,
      fun hi => hout.resolve_right (hready.evaluate_ne_overflow hi data), hout, hrun, hfolds⟩

/-- The text for the sums of the rows of a matrix, with four elements in each pass of the loop. -/
def rowsText : String :=
  "__kernel void r_2_2(__global float* data0, const __global float* data1) \x7b\n" ++
  "  int gidx0 = get_global_id(0);\n" ++
  "  float acc0 = 0.0f;\n" ++
  "  for (int ridx1 = 0; ridx1 < 2; ridx1++) \x7b\n" ++
  "    acc0 = acc0 + data1[(gidx0*8+ridx1*4+0)];\n" ++
  "    acc0 = acc0 + data1[(gidx0*8+ridx1*4+1)];\n" ++
  "    acc0 = acc0 + data1[(gidx0*8+ridx1*4+2)];\n" ++
  "    acc0 = acc0 + data1[(gidx0*8+ridx1*4+3)];\n" ++
  "  \x7d /* ridx1 */\n" ++
  "  data0[(gidx0)] = acc0;\n" ++
  "\x7d"

/-- The work items run last to first, over an output that held something else. -/
theorem run_source_rows :
    ∃ start k src program out,
      ofAst (.node 0 (.reduce .sum [2, 1]) [.leaf ⟨⟨0, 16⟩, ⟨.row [2, 8], []⟩⟩]) ⟨1, 2⟩ =
        .ok start ∧
      start.after (intervene (.unroll 1 4)) = .ok k ∧ k.source = .ok src ∧ src.text = rowsText ∧
      CProgram.read rowsText = some program ∧ k.evaluate [Array.replicate 16 1] = .ok out ∧
      program.run [Array.replicate 16 1] [[1], [0]] #[7, 7] = some out := by
  have hstart : ofAst (.node 0 (.reduce .sum [2, 1]) [.leaf ⟨⟨0, 16⟩, ⟨.row [2, 8], []⟩⟩]) ⟨1, 2⟩ =
      .ok ⟨.node 0 (.reduce .sum [2, 1]) [.leaf 1], ⟨⟨1, 2⟩, ⟨.row [2, 1], []⟩⟩,
        [⟨⟨0, 16⟩, ⟨.row [2, 8], []⟩⟩], 0⟩ :=
    (ofAst_single rfl _ _ _).trans rfl
  have hleaves : ∀ o : Operand, OpTree.Subtree (.leaf o) (.node 0 (.reduce .sum [2, 1])
      [.leaf ⟨⟨0, 16⟩, ⟨.row [2, 8], []⟩⟩]) → ∃ size ≤ o.buffer.len, o.tracker.BuiltOver size := by
    intro o ho
    obtain rfl := OpTree.subtree_single ho
    exact ⟨16, Nat.le_refl _, [2, 8], [], rfl, by decide, rfl⟩
  obtain ⟨k, hk⟩ : ∃ k, after ⟨.node 0 (.reduce .sum [2, 1]) [.leaf 1],
      ⟨⟨1, 2⟩, ⟨.row [2, 1], []⟩⟩, [⟨⟨0, 16⟩, ⟨.row [2, 8], []⟩⟩], 0⟩
        (intervene (.unroll 1 4)) = .ok k := ⟨_, rfl⟩
  have hoffered : Offered _ k := .step .start rfl (by decide) hk
  have hdata : k.checkData [Array.replicate 16 1] = .ok () := by
    cases hk
    rfl
  have hsource : ∃ src, k.source = .ok src ∧ src.text = rowsText ∧ src.globalSize = [2] := by
    cases hk
    simp only [source, name, reduction?, reduced?, OpTree.find?, OpTree.nodes,
      OpTree.walk_single]
    exact ⟨_, rfl, by decide +kernel, rfl⟩
  have hindexed : k.Indexed := by
    have hall : ∀ o ∈ k.operands, ∀ idx ∈ indices k.space,
        NoOverflow (o.tracker.index (broadcastIndex idx o.shape)) := by
      cases hk
      decide +kernel
    exact fun o ho idx hi => hall o ho idx (Shape.mem_indices.mpr hi)
  have hlen : k.output.buffer.len = 2 := by
    cases hk
    rfl
  obtain ⟨src, hsrc, htext, hsize⟩ := hsource
  obtain ⟨-, h | h⟩ | ⟨src', program, out, hsrc', hread, hout, -, hrun, -⟩ :=
    source_computes_evaluate (OpTree.wellShared_single _ _ _) (OpTree.saturated_single rfl) hleaves
      hstart hoffered hdata
  · cases hsrc.symm.trans h
  · cases hsrc.symm.trans h
  · obtain rfl := Except.ok.inj (hsrc.symm.trans hsrc')
    refine ⟨_, k, src, program, out, hstart, hk, hsrc, htext, htext ▸ hread, hout hindexed,
      hrun _ _ ?_ ?_⟩
    · rw [hsize]
      decide
    · rw [hlen]
      rfl

end Kernel

end TensorLoom
