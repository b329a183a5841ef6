import TensorLoom.Proofs.Source.Generation
import TensorLoom.Proofs.Source.Transcript

/-!
# Running the program of a source

The program that is read from the text of a source does what the source does. A work item executes
the same statements (`KernelSource.Readable.steps_eq`), and each of them does what it was written
for: a variable that an accumulator is named after goes through the values that folding gives it,
and the output is written alike (`KernelSource.Readable.runItem_eq`).
-/

namespace TensorLoom

open Shape (InRange indices)

/-! ## Names of indices -/

/-- A name that an index may have. -/
def IsIndexName (s : String) : Prop := ∃ n, s = globalName n ∨ s = mergedName n ∨ s = loopName n

theorem IsIndexName.head? {s : String} (h : IsIndexName s) :
    ∃ c ∈ s.toList.head?, c ∈ ['g', 'i', 'r'] := by
  obtain ⟨n, rfl | rfl | rfl⟩ := h
  · exact ⟨'g', by simp [globalName, toString], by decide⟩
  · exact ⟨'i', by simp [mergedName, toString], by decide⟩
  · exact ⟨'r', by simp [loopName, toString], by decide⟩

/-- Only indices have been given values. -/
def Names.Indices (names : Names) : Prop := ∀ s v, names s = some v → IsIndexName s

namespace Names.Indices

variable {names : Names}

theorem none : Names.none.Indices := by
  rintro s v ⟨⟩

theorem define (h : names.Indices) {s : String} (hs : IsIndexName s) (v : Int) :
    (names.define s v).Indices := by
  intro t w ht
  by_cases hts : t = s
  · exact hts ▸ hs
  · exact h t w ((Names.define_of_ne names hts v).symm.trans ht)

theorem entries (h : names.Indices) (loops : List Loop) (r : List Nat) :
    (names.defineAll (Accumulation.entries loops r)).Indices := by
  induction loops generalizing names r with
  | nil => exact h
  | cons l loops ih =>
    cases r with
    | nil => exact h
    | cons i r => exact ih (h.define ⟨l.axis, .inr (.inr rfl)⟩ i) r

theorem eq_none (h : names.Indices) {s : String} (hs : ∀ c ∈ s.toList.head?, c ∉ ['g', 'i', 'r']) :
    names s = .none := by
  cases hv : names s with
  | none => rfl
  | some v =>
    obtain ⟨c, hc, hstart⟩ := (h s v hv).head?
    exact absurd hstart (hs c hc)

/-- No number has been given a value. -/
theorem numeral (h : names.Indices) (n : Nat) (v : Int) (hv : names (toString n) = some v) :
    v = n := by
  have hnone : names (toString n) = .none := by
    refine h.eq_none fun c hc => ?_
    have := isDigit_of_mem_toString (List.mem_of_mem_head? hc)
    rintro hmem
    simp only [List.mem_cons, List.not_mem_nil, or_false] at hmem
    rcases hmem with rfl | rfl | rfl <;> exact absurd this (by decide)
  rw [hnone] at hv
  cases hv

theorem accumulator (h : names.Indices) (k : Nat) : names (accumulatorName k) = .none :=
  h.eq_none (by simp [KernelSource.head?_accumulatorName])

theorem infinity (h : names.Indices) : names "INFINITY" = .none :=
  h.eq_none (by simp)

end Names.Indices

/-! ## Executed statements -/

namespace IndexDefinition

variable {d : IndexDefinition} {item : List Nat} {names names' : Names}

theorem isIndexName (d : IndexDefinition) : IsIndexName d.name := by
  cases d with
  | ofGlobal dimension => exact ⟨dimension, .inl rfl⟩
  | ofMerged axis value => exact ⟨axis, .inr (.inl rfl)⟩

/-- What a definition is read as has the value that the index is given. -/
theorem Legible.eval_tree (h : d.Legible) (hnames : names.Indices)
    (hrun : d.run item names = some names') : ∃ n : Int,
      d.tree.eval ⟨item, names, fun _ => none, fun _ => none⟩ = some (.int n) ∧
      names' = names.define d.name n := by
  cases d with
  | ofGlobal dimension =>
    obtain rfl := Option.some.inj hrun
    exact ⟨_, by simp [tree, CExpr.eval, CScope.call], rfl⟩
  | ofMerged axis value =>
    obtain ⟨n, hn, hrun⟩ := Option.bind_eq_some_iff.mp hrun
    obtain rfl := Option.some.inj hrun
    exact ⟨n, h.readable.eval_tree hnames.numeral hn, rfl⟩

end IndexDefinition

namespace CBlock

variable {item : List Nat} {names names' : Names} {rest : CBlock} {ss : List CStatement}

theorem steps_defining {ds : List IndexDefinition} (hds : ∀ d ∈ ds, d.Legible)
    (hnames : names.Indices) (hrun : ds.foldlM (IndexDefinition.run item) names = some names') :
    (defining (ds.map fun d => (d.name, d.tree)) rest).steps item names =
      rest.steps item names' ∧ names'.Indices := by
  induction ds generalizing names with
  | nil =>
    obtain rfl := Option.some.inj hrun
    exact ⟨rfl, hnames⟩
  | cons d ds ih =>
    rw [List.foldlM_cons] at hrun
    obtain ⟨between, hd, hrun⟩ := Option.bind_eq_some_iff.mp hrun
    obtain ⟨n, hn, rfl⟩ := (hds d List.mem_cons_self).eval_tree hnames hd
    obtain ⟨hsteps, hnames'⟩ := ih (fun d hd => hds d (List.mem_cons_of_mem _ hd))
      (hnames.define d.isIndexName n) hrun
    refine ⟨?_, hnames'⟩
    rw [← hsteps, List.map_cons, defining, List.foldr_cons, steps, hn]
    rfl

theorem steps_sequence (ss : List CStatement) :
    (sequence ss rest).steps item names =
      (rest.steps item names).map (ss.map (CStep.mk names) ++ ·) := by
  induction ss with
  | nil => simp [sequence]
  | cons s ss ih =>
    have hcons : (sequence (s :: ss) rest).steps item names = (do
        return CStep.mk names s :: (← (sequence ss rest).steps item names)) := rfl
    rw [hcons, ih]
    cases rest.steps item names <;> rfl

/-- A nest of loops executes its statements for each index, in row-major order. -/
theorem steps_nest (ss : List CStatement) (loops : List Loop) :
    (nest ss loops rest).steps item names = (rest.steps item names).map
      ((indices (loops.map (·.bound))).flatMap (fun r =>
        ss.map (CStep.mk (names.defineAll (Accumulation.entries loops r)))) ++ ·) := by
  induction loops generalizing names rest with
  | nil =>
    rw [nest, steps_sequence]
    simp [indices, Accumulation.entries, Names.defineAll]
  | cons l inner ih =>
    have hinner : ((List.range l.bound).mapM fun (i : Nat) =>
        (nest ss inner .done).steps item (names.define (loopName l.axis) i)) =
        some ((List.range l.bound).map fun (i : Nat) =>
          (indices (inner.map (·.bound))).flatMap fun r => ss.map
            (.mk ((names.define (loopName l.axis) i).defineAll
              (Accumulation.entries inner r)))) := by
      refine mapM_eq_some (List.forall₂_same.mpr fun i _ => ?_)
      rw [ih, steps, Option.map_some, List.append_nil]
    rw [nest, steps, hinner]
    cases rest.steps item names with
    | none => rfl
    | some after =>
      rw [List.map_cons, indices, List.flatMap_assoc]
      simp only [List.flatMap_map]
      rfl

end CBlock

namespace KernelSource

variable {s : KernelSource} {item : List Nat} {names : Names}

/-- The statements that a work item executes behind its indices. -/
def steps (s : KernelSource) (names : Names) : List CStep :=
  (match s.accumulation with
    | some a => a.starts.map (.mk names) ++
        (indices (a.loops.map (·.bound))).flatMap fun r => a.updates.map fun u =>
          ⟨names.defineAll (Accumulation.entries a.loops r), u.statement a.op⟩
    | none => []) ++
  s.stores.map fun t => ⟨names, t.statement⟩

/-- The program executes the statements of the source. -/
theorem Readable.steps_eq (h : s.Readable)
    (hrun : s.definitions.foldlM (IndexDefinition.run item) .none = some names) :
    s.program.steps item = some (s.steps names) ∧ names.Indices := by
  obtain ⟨hsteps, hnames⟩ := CBlock.steps_defining h.definitions .none hrun
  refine ⟨?_, hnames⟩
  rw [CProgram.steps, program, block, hsteps, steps]
  cases s.accumulation with
  | none =>
    rw [CBlock.steps_sequence]
    simp [CBlock.steps, Function.comp_def]
  | some a =>
    simp only [Accumulation.block, CBlock.steps_sequence, CBlock.steps_nest]
    simp [CBlock.steps, Function.comp_def]

end KernelSource

/-! ## What a statement does -/

theorem Reduction.eval_combineTree (op : Reduction) {x y : CExpr} {scope : CScope} {v w : Float32}
    (hx : x.eval scope = some (.float v)) (hy : y.eval scope = some (.float w)) :
    (op.combineTree x y).eval scope = some (.float (op.combine v w)) := by
  cases op with
  | sum => simp [combineTree, CExpr.eval, hx, hy, CValue.apply, COperator.applyFloat, combine]
  | max => simp [combineTree, CExpr.eval, hx, hy, CValue.call2, combine]

/-- A variable that an accumulator is named after has gone through the values of folding what has
been folded into the accumulator. -/
def CState.Tracks (st : CState) (op : Reduction) (folded : List (List Float32)) : Prop :=
  ∀ k values, folded[k]? = some values →
    st.floats (accumulatorName k) = some (values.scanl op.combine op.identity)

theorem CState.float?_of_ne {s : String} (hs : s ≠ "INFINITY") (st : CState) :
    st.float? s = (st.floats s).bind List.getLast? := if_neg hs

theorem accumulatorName_ne (k : Nat) : accumulatorName k ≠ "INFINITY" := by
  intro h
  have h := congrArg (·.toList.head?) h
  simp [KernelSource.head?_accumulatorName] at h

theorem CState.Tracks.float? {st : CState} {op : Reduction} {folded : List (List Float32)}
    (h : st.Tracks op folded) {k : Nat} {x : Float32}
    (hx : (Accumulation.values op folded)[k]? = some x) :
    st.float? (accumulatorName k) = some x := by
  rw [Accumulation.values, List.getElem?_map] at hx
  obtain ⟨values, hvalues, rfl⟩ := Option.map_eq_some_iff.mp hx
  rw [CState.float?_of_ne (accumulatorName_ne k), h k values hvalues, Option.bind_some,
    List.getLast?_scanl]

namespace KernelSource

variable {s : KernelSource} {data : List (Array Float32)} {item : List Nat} {names : Names}

/-- The parameters stand for the inputs. -/
theorem input_bufferParameter (hdata : data.length < s.buffers) {number : Nat} (hn : 0 < number)
    {xs : Array Float32} (hxs : data[number - 1]? = some xs) :
    s.program.input data (bufferParameter number) = some xs := by
  obtain ⟨i, rfl⟩ : ∃ i, number = i + 1 := ⟨number - 1, by omega⟩
  rw [Nat.add_sub_cancel] at hxs
  obtain ⟨hi, rfl⟩ := List.getElem?_eq_some_iff.mp hxs
  have hlength : (s.program.inputs.zip data).length = data.length := by
    simp [inputs_eq, inputNumbers]
    omega
  have hi' : i < (s.program.inputs.zip data).length := hlength ▸ hi
  have hget : ∀ j (hj : j < (s.program.inputs.zip data).length),
      (s.program.inputs.zip data)[j].1 = bufferParameter (j + 1) := by
    intro j hj
    simp [inputs_eq, inputNumbers]
  rw [CProgram.input, List.lookup_eq_some_iff]
  refine ⟨(s.program.inputs.zip data).take i, (s.program.inputs.zip data).drop (i + 1), ?_, ?_⟩
  · have hentry : (s.program.inputs.zip data)[i] = (bufferParameter (i + 1), data[i]) :=
      Prod.ext (hget i hi') (by simp)
    rw [← hentry, ← List.drop_eq_getElem_cons, List.take_append_drop]
  · intro p hp
    obtain ⟨j, hj, rfl⟩ := List.getElem_of_mem hp
    rw [List.length_take] at hj
    rw [List.getElem_take, hget j (by omega), bne_iff_ne]
    intro heq
    have := append_repr_inj heq
    omega

/-- What the names stand for when a statement of a source is executed. -/
theorem holds_scope (hdata : data.length < s.buffers) (hnames : names.Indices) {st : CState}
    {accumulators : List Float32}
    (hst : ∀ k x, accumulators[k]? = some x → st.float? (accumulatorName k) = some x) :
    (s.program.scope data item names st).Holds data accumulators where
  numerals := hnames.numeral
  accumulators k x hx := by
    have hnone : (s.program.scope data item names st).ints (accumulatorName k) = none :=
      hnames.accumulator k
    rw [CScope.value, hnone]
    exact congrArg (Option.map _) (hst k x hx)
  inputs _ _ hn hxs := input_bufferParameter hdata hn hxs

/-- A variable that starts an accumulator starts to track it. -/
theorem execute_start (hnames : names.Indices) (op : Reduction) (k : Nat) (st : CState) :
    s.program.execute data item st ⟨names, .float (accumulatorName k) op.identityTree⟩ =
      some (st.define (accumulatorName k) [op.identity]) := by
  have hvalue : op.identityTree.eval (s.program.scope data item names st) =
      some (.float op.identity) := by
    cases op with
    | sum =>
      have hzero : Float32.ofScientific 0 true 1 = 0 := by decide +kernel
      rw [Reduction.identityTree, CExpr.eval, hzero]
      rfl
    | max =>
      have hname : (s.program.scope data item names st).value "INFINITY" =
          some (.float (Float32.ofBits 0x7f800000)) := by
        rw [CScope.value, show (s.program.scope data item names st).ints "INFINITY" = none from
          hnames.infinity]
        rfl
      have hnegative : -(Float32.ofBits 0x7f800000) = Float32.ofBits 0xff800000 := by
        decide +kernel
      simp [Reduction.identityTree, CExpr.eval, hname, CValue.negate, hnegative, Reduction.identity]
  rw [CProgram.execute]
  simp [hvalue, CValue.float?]

variable (s data item) in
theorem run_starts (hnames : names.Indices) (a : Accumulation) (st : CState) :
    ∃ st', (a.starts.map (CStep.mk names)).foldlM (s.program.execute data item) st = some st' ∧
      st'.output = st.output ∧ st'.Tracks a.op (List.replicate a.accumulators []) := by
  rw [Accumulation.starts]
  generalize a.accumulators = n
  induction n with
  | zero => exact ⟨st, rfl, rfl, fun k values h => by simp at h⟩
  | succ n ih =>
    obtain ⟨st', hrun, houtput, htracks⟩ := ih
    refine ⟨st'.define (accumulatorName n) [a.op.identity], ?_, houtput, fun k values h => ?_⟩
    · rw [List.range_succ, List.map_append, List.map_append, List.foldlM_append, hrun]
      simp [execute_start hnames]
    · rw [List.getElem?_replicate] at h
      by_cases hk : k < n + 1
      · obtain rfl : [] = values := by simpa [hk] using h
        by_cases hkn : k = n
        · subst hkn
          exact if_pos rfl
        · have hne : accumulatorName k ≠ accumulatorName n := fun e => hkn (append_repr_inj e)
          rw [CState.define]
          have hlt : k < n := by omega
          exact (if_neg hne).trans (htracks k [] (by simp [hlt]))
      · simp [hk] at h

/-- An update folds one more value into the variable of its accumulator. -/
theorem execute_update (hdata : data.length < s.buffers) (hnames : names.Indices) {op : Reduction}
    {u : Update} (hu : u.value.Readable) {folded folded' : List (List Float32)}
    (hupdate : Accumulation.update op data names folded u = some folded') {st : CState}
    (hst : st.Tracks op folded) :
    ∃ st', s.program.execute data item st ⟨names, u.statement op⟩ = some st' ∧
      st'.output = st.output ∧ st'.Tracks op folded' := by
  obtain ⟨v, hv, hupdate⟩ := Option.bind_eq_some_iff.mp hupdate
  by_cases hlt : u.accumulator < folded.length
  case neg => simp [hlt] at hupdate
  obtain rfl : folded.modify u.accumulator (· ++ [v]) = folded' := by simpa [hlt] using hupdate
  generalize hk : u.accumulator = k at hlt
  have hvalues : folded[k]? = some folded[k] := List.getElem?_eq_getElem hlt
  have hhistory := hst k _ hvalues
  -- the operands of the fold: the accumulator and the value of the update
  have hholds : (s.program.scope data item names st).Holds data (Accumulation.values op folded) :=
    holds_scope hdata hnames fun _ _ hx => hst.float? hx
  have hacc : (CExpr.name (accumulatorName k)).eval (s.program.scope data item names st) =
      some (.float (folded[k].foldl op.combine op.identity)) :=
    hholds.accumulators k _ (by rw [Accumulation.values, List.getElem?_map, hvalues]; rfl)
  have hvalue := hu.eval_tree hholds hv
  have hcombine := op.eval_combineTree hacc hvalue
  refine ⟨st.define (accumulatorName k) (folded[k].scanl op.combine op.identity ++
    [op.combine (folded[k].foldl op.combine op.identity) v]), ?_, rfl, fun m values hm => ?_⟩
  · rw [CProgram.execute, Update.statement]
    simp only [hk, hcombine, hhistory]
    rfl
  · rw [List.getElem?_modify] at hm
    by_cases hmk : m = k
    · subst hmk
      obtain rfl : folded[m] ++ [v] = values := by simpa [hvalues] using hm
      rw [List.scanl_append]
      exact if_pos rfl
    · have hne : accumulatorName m ≠ accumulatorName k := fun e => hmk (append_repr_inj e)
      exact (if_neg hne).trans (hst m values (by simpa [Ne.symm hmk] using hm))

/-- Steps that simulate others, one by one. -/
theorem foldlM_simulates {σ τ α β : Type} {R : σ → τ → Prop} {f : σ → α → Option σ}
    {g : τ → β → Option τ} {φ : α → β} {xs : List α}
    (h : ∀ x ∈ xs, ∀ s t s', R s t → f s x = some s' → ∃ t', g t (φ x) = some t' ∧ R s' t')
    {s s' : σ} {t : τ} (hst : R s t) (hs : xs.foldlM f s = some s') :
    ∃ t', (xs.map φ).foldlM g t = some t' ∧ R s' t' := by
  induction xs generalizing s t with
  | nil =>
    obtain rfl := Option.some.inj hs
    exact ⟨t, rfl, hst⟩
  | cons x xs ih =>
    rw [List.foldlM_cons] at hs
    obtain ⟨s₁, hs₁, hs⟩ := Option.bind_eq_some_iff.mp hs
    obtain ⟨t₁, ht₁, hst⟩ := h x List.mem_cons_self s t s₁ hst hs₁
    obtain ⟨t', ht', hst⟩ := ih (fun x hx => h x (List.mem_cons_of_mem _ hx)) hst hs
    refine ⟨t', ?_, hst⟩
    rw [List.map_cons, List.foldlM_cons, ht₁]
    exact ht'

variable (item) in
/-- The nest of loops folds what the accumulation folds. -/
theorem run_loops (hdata : data.length < s.buffers) (hnames : names.Indices) {a : Accumulation}
    (ha : ∀ u ∈ a.updates, u.value.Readable) {folded folded' : List (List Float32)}
    (hrun : Accumulation.runLoops
      (fun names folded => a.updates.foldlM (Accumulation.update a.op data names) folded) a.loops
      names folded = some folded') {st : CState} (hst : st.Tracks a.op folded) :
    ∃ st', ((indices (a.loops.map (·.bound))).flatMap fun r => a.updates.map fun u =>
        (⟨names.defineAll (Accumulation.entries a.loops r), u.statement a.op⟩ : CStep)).foldlM
          (s.program.execute data item) st = some st' ∧
      st'.output = st.output ∧ st'.Tracks a.op folded' := by
  rw [Accumulation.runLoops_eq] at hrun
  rw [Accumulation.foldlM_rows]
  have hloops := foldlM_simulates (φ := id) (R := fun folded (st' : CState) =>
    st'.output = st.output ∧ st'.Tracks a.op folded)
    (g := fun st r => (a.updates.map fun u => (⟨names.defineAll (Accumulation.entries a.loops r),
      u.statement a.op⟩ : CStep)).foldlM (s.program.execute data item) st)
    (fun r _ folded st₁ folded' hst₁ hbody => ?_) ⟨rfl, hst⟩ hrun
  · simpa using hloops
  · refine foldlM_simulates (R := fun folded (st' : CState) =>
      st'.output = st.output ∧ st'.Tracks a.op folded)
      (fun u hu folded st₂ folded' hst₂ hupdate => ?_) hst₁ hbody
    obtain ⟨st', hexec, houtput, htracks⟩ :=
      execute_update hdata (hnames.entries a.loops r) (ha u hu) hupdate hst₂.2
    exact ⟨st', hexec, houtput.trans hst₂.1, htracks⟩

/-- A store writes what it was written for, and leaves the variables as they are. -/
theorem execute_store (hdata : data.length < s.buffers) (hnames : names.Indices) {t : Store}
    (ht : t.position.Readable .factor ∧ t.value.Readable) {accumulators : List Float32}
    {w : Write} (hrun : t.run data names accumulators = some w) {st : CState}
    (hst : ∀ k x, accumulators[k]? = some x → st.float? (accumulatorName k) = some x)
    {out : Array Float32} (hw : w.run st.output = some out) :
    s.program.execute data item st ⟨names, t.statement⟩ = some { st with output := out } := by
  obtain ⟨n, hn, hrun⟩ := Option.bind_eq_some_iff.mp hrun
  obtain ⟨v, hv, hrun⟩ := Option.bind_eq_some_iff.mp hrun
  obtain rfl := Option.some.inj hrun
  obtain ⟨i, hi, hw⟩ := Option.bind_eq_some_iff.mp hw
  obtain rfl := Option.some.inj hw
  have hholds : (s.program.scope data item names st).Holds data accumulators :=
    holds_scope hdata hnames hst
  have hposition : t.position.tree.eval (s.program.scope data item names st) = some (.int n) :=
    ht.1.eval_tree hholds.numerals hn
  have hvalue := ht.2.eval_tree hholds hv
  have houtput : bufferParameter 0 = s.program.output := rfl
  rw [CProgram.execute, Store.statement]
  simp only [hposition, hvalue, Option.bind_eq_bind, Option.bind_some, CValue.int?, CValue.float?,
    if_pos houtput, hi]
  rfl

variable (item) in
/-- The stores of a work item write what they were written for, one after the other. -/
theorem run_stores (hdata : data.length < s.buffers) (hnames : names.Indices) {stores : List Store}
    (hstores : ∀ t ∈ stores, t.position.Readable .factor ∧ t.value.Readable)
    {accumulators : List Float32} {writes : List Write}
    (hrun : stores.mapM (Store.run data names accumulators) = some writes) (st : CState)
    (hst : ∀ k x, accumulators[k]? = some x → st.float? (accumulatorName k) = some x)
    {out : Array Float32} (hw : writes.foldlM Write.run st.output = some out) :
    (stores.map fun t => (⟨names, t.statement⟩ : CStep)).foldlM (s.program.execute data item) st =
      some { st with output := out } := by
  induction stores generalizing writes st with
  | nil =>
    obtain rfl := Option.some.inj hrun
    obtain rfl := Option.some.inj hw
    rfl
  | cons t stores ih =>
    rw [List.mapM_cons] at hrun
    obtain ⟨w, hw₁, hrun⟩ := Option.bind_eq_some_iff.mp hrun
    obtain ⟨ws, hws, hrun⟩ := Option.bind_eq_some_iff.mp hrun
    obtain rfl := Option.some.inj hrun
    rw [List.foldlM_cons] at hw
    obtain ⟨out₁, hout₁, hw⟩ := Option.bind_eq_some_iff.mp hw
    rw [List.map_cons, List.foldlM_cons,
      execute_store hdata hnames (hstores t List.mem_cons_self) hw₁ hst hout₁]
    exact ih (fun t ht => hstores t (List.mem_cons_of_mem _ ht)) hws _ hst hw

/-! ## Work items -/

/-- A work item does what it does in the source: it leaves the output that its writes make, and the
variables of its accumulators have gone through what was folded. -/
theorem Readable.runItem_eq (h : s.Readable) (hdata : data.length < s.buffers)
    {folded : List (List Float32)} {writes : List Write}
    (hrun : s.runItem data item = some (folded, writes)) {before out : Array Float32}
    (hw : writes.foldlM Write.run before = some out) :
    ∃ st, s.program.runItem data item before = some st ∧ st.output = out ∧
      ∀ a, s.accumulation = some a → st.Tracks a.op folded := by
  obtain ⟨names, hdefinitions, hrun⟩ := Option.bind_eq_some_iff.mp hrun
  obtain ⟨hsteps, hnames⟩ := h.steps_eq hdefinitions
  rw [CProgram.runItem, hsteps, Option.bind_eq_bind, Option.bind_some, steps]
  cases hacc : s.accumulation with
  | none =>
    rw [hacc] at hrun
    obtain ⟨ws, hstores, hrun⟩ := Option.bind_eq_some_iff.mp hrun
    obtain ⟨rfl, rfl⟩ := Prod.mk.inj (Option.some.inj hrun)
    rw [List.nil_append]
    have hstore := run_stores item hdata hnames h.stores hstores ⟨fun _ => none, before⟩
      (by simp) hw
    exact ⟨_, hstore, rfl, by simp⟩
  | some a =>
    rw [hacc] at hrun
    obtain ⟨folds, hfolds, hrun⟩ := Option.bind_eq_some_iff.mp hrun
    obtain ⟨ws, hstores, hrun⟩ := Option.bind_eq_some_iff.mp hrun
    obtain ⟨rfl, rfl⟩ := Prod.mk.inj (Option.some.inj hrun)
    obtain ⟨st₁, hst₁, hout₁, htracks₁⟩ := run_starts s data item hnames a ⟨fun _ => none, before⟩
    obtain ⟨st₂, hst₂, hout₂, htracks₂⟩ :=
      run_loops item hdata hnames (h.updates a hacc) hfolds htracks₁
    have hw : ws.foldlM Write.run st₂.output = some out := by rwa [hout₂, hout₁]
    have hstore := run_stores item hdata hnames h.stores hstores st₂
      (fun k x hx => htracks₂.float? hx) hw
    refine ⟨{ st₂ with output := out }, ?_, rfl, ?_⟩
    · rw [List.foldlM_append, List.foldlM_append, hst₁, Option.bind_eq_bind, Option.bind_some, hst₂]
      exact hstore
    · intro a' ha'
      obtain rfl := Option.some.inj ha'
      exact htracks₂

/-- Work items that run one after the other do what they do in the source. -/
theorem Readable.run_eq (h : s.Readable) (hdata : data.length < s.buffers) {items : List (List Nat)}
    {before out : Array Float32} (hrun : s.run data items before = some out) :
    s.program.run data items before = some out := by
  induction items generalizing before with
  | nil => exact hrun
  | cons item items ih =>
    rw [KernelSource.run, List.foldlM_cons] at hrun
    obtain ⟨between, hitem, hrun⟩ := Option.bind_eq_some_iff.mp hrun
    obtain ⟨⟨folded, writes⟩, hitem, hwrites⟩ := Option.bind_eq_some_iff.mp hitem
    obtain ⟨st, hst, rfl, -⟩ := h.runItem_eq hdata hitem hwrites
    rw [CProgram.run, List.foldlM_cons, hst]
    exact ih hrun

end KernelSource

/-! ## Stores -/

namespace CBlock

variable {rest : CBlock} {ss : List CStatement}

theorem stores_defining (ds : List (String × CExpr)) : (defining ds rest).stores = rest.stores := by
  induction ds with
  | nil => rfl
  | cons d ds ih => exact ih

theorem stores_sequence (ss : List CStatement) :
    (sequence ss rest).stores = ss.filter CStatement.isStore ++ rest.stores := by
  induction ss with
  | nil => rfl
  | cons s ss ih =>
    have hcons : (sequence (s :: ss) rest).stores =
        (if s.isStore then [s] else []) ++ (sequence ss rest).stores := rfl
    rw [hcons, ih, List.filter_cons]
    cases s.isStore <;> rfl

theorem stores_nest (hs : ss.filter CStatement.isStore = []) (loops : List Loop) :
    (nest ss loops rest).stores = rest.stores := by
  induction loops generalizing rest with
  | nil => rw [nest, stores_sequence, hs, List.nil_append]
  | cons l inner ih =>
    rw [nest, stores, ih]
    rfl

end CBlock

namespace KernelSource

variable {s : KernelSource} {data : List (Array Float32)} {item : List Nat} {names : Names}

theorem filter_starts (a : Accumulation) : a.starts.filter CStatement.isStore = [] := by
  simp [Accumulation.starts]

theorem filter_updates (op : Reduction) (updates : List Update) :
    (updates.map (Update.statement op)).filter CStatement.isStore = [] := by
  simp [Update.statement]

theorem filter_stores (stores : List Store) :
    (stores.map Store.statement).filter CStatement.isStore = stores.map Store.statement := by
  simp [Store.statement]

/-- The stores that are written in the program of a source. -/
theorem stores_program (s : KernelSource) :
    s.program.body.stores = s.stores.map Store.statement := by
  rw [program, block, CBlock.stores_defining]
  cases s.accumulation with
  | none => rw [CBlock.stores_sequence, filter_stores, CBlock.stores, List.append_nil]
  | some a =>
    dsimp only [Accumulation.block]
    rw [CBlock.stores_sequence, filter_starts, CBlock.stores_nest (filter_updates ..),
      CBlock.stores_sequence, filter_stores, CBlock.stores, List.append_nil, List.nil_append]

/-- A work item executes each of them once. -/
theorem filter_steps (s : KernelSource) (names : Names) :
    (s.steps names).filter (·.statement.isStore) = s.stores.map fun t => ⟨names, t.statement⟩ := by
  rw [steps, List.filter_append, List.filter_map]
  cases s.accumulation with
  | none => simp [Store.statement, Function.comp_def]
  | some a =>
    simp [Accumulation.starts, Update.statement, Store.statement, List.filter_flatMap,
      List.filter_map, Function.comp_def]

/-- The assignments that a work item executes are the updates, once for each pass of the loops. -/
theorem filter_assigns {a : Accumulation} (ha : s.accumulation = some a) (names : Names) :
    (s.steps names).filter (·.statement.isAssign) =
      (indices (a.loops.map (·.bound))).flatMap fun r => a.updates.map fun u =>
        ⟨names.defineAll (Accumulation.entries a.loops r), u.statement a.op⟩ := by
  rw [steps, ha]
  simp [Accumulation.starts, Update.statement, Store.statement, List.filter_flatMap,
    List.filter_map, Function.comp_def]

/-- A store of the program goes where the store that it was written for does. -/
theorem Readable.target_eq (h : s.Readable)
    (hrun : s.definitions.foldlM (IndexDefinition.run item) .none = some names) {n : Nat}
    {t : Store} (ht : s.stores[n]? = some t) {v : Int} (hv : t.position.eval names = some v) :
    s.program.target item n = some v := by
  obtain ⟨hsteps, hnames⟩ := h.steps_eq hrun
  have hposition : t.position.tree.eval ⟨item, names, fun _ => none, fun _ => none⟩ =
      some (.int v) :=
    (h.stores t (List.mem_of_getElem? ht)).1.eval_tree hnames.numeral hv
  rw [CProgram.target, hsteps, Option.bind_eq_bind, Option.bind_some, filter_steps,
    List.getElem?_map, ht]
  simp [Store.statement, hposition, CValue.int?]

theorem forall₂_of_mapM {α β : Type} {f : α → Option β} {xs : List α} {ys : List β}
    (h : xs.mapM f = some ys) : List.Forall₂ (fun x y => f x = some y) xs ys := by
  induction xs generalizing ys with
  | nil =>
    obtain rfl := Option.some.inj h
    exact .nil
  | cons x xs ih =>
    rw [List.mapM_cons] at h
    obtain ⟨y, hy, h⟩ := Option.bind_eq_some_iff.mp h
    obtain ⟨ys, hys, h⟩ := Option.bind_eq_some_iff.mp h
    obtain rfl := Option.some.inj h
    exact .cons hy (ih hys)

/-- The writes of a work item are those of the stores, behind the definitions. -/
theorem forall₂_of_runItem {folded : List (List Float32)} {writes : List Write}
    (hrun : s.runItem data item = some (folded, writes)) :
    ∃ names accumulators, s.definitions.foldlM (IndexDefinition.run item) .none = some names ∧
      List.Forall₂ (fun t w => t.run data names accumulators = some w) s.stores writes := by
  obtain ⟨names, hdefinitions, hrun⟩ := Option.bind_eq_some_iff.mp hrun
  cases hacc : s.accumulation with
  | none =>
    rw [hacc] at hrun
    obtain ⟨ws, hstores, hrun⟩ := Option.bind_eq_some_iff.mp hrun
    obtain ⟨-, rfl⟩ := Prod.mk.inj (Option.some.inj hrun)
    exact ⟨names, _, hdefinitions, forall₂_of_mapM hstores⟩
  | some a =>
    rw [hacc] at hrun
    obtain ⟨folds, -, hrun⟩ := Option.bind_eq_some_iff.mp hrun
    obtain ⟨ws, hstores, hrun⟩ := Option.bind_eq_some_iff.mp hrun
    obtain ⟨-, rfl⟩ := Prod.mk.inj (Option.some.inj hrun)
    exact ⟨names, _, hdefinitions, forall₂_of_mapM hstores⟩

/-- There is a write for each store of the program, and it goes where the store does. -/
theorem Readable.targets_of_runItem (h : s.Readable) {folded : List (List Float32)}
    {writes : List Write} (hrun : s.runItem data item = some (folded, writes)) :
    s.program.body.stores.length = writes.length ∧
      ∀ n w, writes[n]? = some w → s.program.target item n = some w.position := by
  obtain ⟨names, accumulators, hdefinitions, hstores⟩ := forall₂_of_runItem hrun
  refine ⟨by rw [stores_program, List.length_map, hstores.length_eq], fun n w hw => ?_⟩
  obtain ⟨hn, rfl⟩ := List.getElem?_eq_some_iff.mp hw
  have hn' : n < s.stores.length := hstores.length_eq ▸ hn
  obtain ⟨v, hv, hw⟩ := Option.bind_eq_some_iff.mp
    ((List.forall₂_iff_get.mp hstores).2 n hn' hn)
  obtain ⟨x, -, hw⟩ := Option.bind_eq_some_iff.mp hw
  rw [h.target_eq hdefinitions (List.getElem?_eq_getElem hn') hv]
  exact congrArg (fun w : Write => some w.position) (Option.some.inj hw)

end KernelSource

end TensorLoom
