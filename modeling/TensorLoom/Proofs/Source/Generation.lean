import TensorLoom.Proofs.Source.Plan

/-!
# Generated values, stores and accumulations

Where the names stand for an index of the iteration space, a generated value is that of the tree at
this index (`Kernel.Grounded.eval_symbolicValue`), and a generated store writes it to the cell of
the output that the index belongs to (`Kernel.Grounded.run_storeAt`). A nest of loops runs its body
for each index of the reduced axes in row-major order (`Accumulation.runLoops_eq`), so the
accumulators fold the values at the indices of the reduced and unrolled axes in that order
(`Kernel.Grounded.run_accumulation`).
-/

namespace TensorLoom

open Shape (InRange indices)
open IndexExpr (Stand)

/-! ## Loops -/

namespace Accumulation

/-- The names of loops with the entries of an index. -/
def entries (loops : List Loop) (r : List Nat) : List (String × Int) :=
  List.zipWith (fun l (i : Nat) => (loopName l.axis, (i : Int))) loops r

/-- A loop over rows, each of which is looped over. -/
theorem foldlM_rows {α β σ : Type} (rows : α → List β) (step : σ → β → Option σ) (xs : List α)
    (s : σ) :
    (xs.flatMap rows).foldlM step s = xs.foldlM (fun s x => (rows x).foldlM step s) s := by
  induction xs generalizing s with
  | nil => rfl
  | cons x xs ih =>
    rw [List.flatMap_cons, List.foldlM_append, List.foldlM_cons]
    exact congrArg (_ >>= ·) (funext ih)

/-- A nest of loops runs its body for each index, in row-major order. -/
theorem runLoops_eq {σ : Type} (body : Names → σ → Option σ) (loops : List Loop) (names : Names)
    (s : σ) :
    runLoops body loops names s = (indices (loops.map (·.bound))).foldlM
      (fun s r => body (names.defineAll (entries loops r)) s) s := by
  induction loops generalizing names s with
  | nil => simp [runLoops, indices, entries, Names.defineAll]
  | cons l inner ih =>
    rw [runLoops, List.map_cons, indices, foldlM_rows]
    simp only [ih, List.foldlM_map]
    rfl

variable {names : Names} {loops : List Loop} {r : List Nat}

theorem mem_entries {s : String} {w : Int} (h : (s, w) ∈ entries loops r) :
    ∃ i, ∃ (hi : i < loops.length) (hi' : i < r.length),
      s = loopName loops[i].axis ∧ w = (r[i] : Nat) := by
  unfold entries at h
  obtain ⟨i, hi, h⟩ := List.getElem_of_mem h
  rw [List.length_zipWith] at hi
  rw [List.getElem_zipWith, Prod.mk.injEq] at h
  exact ⟨i, by omega, by omega, h.1.symm, h.2.symm⟩

/-- Inside the loops their names stand for the index. -/
theorem stand_loops (hn : (loops.map (·.axis)).Nodup) (hl : r.length = loops.length) :
    Stand (names.defineAll (entries loops r)) (loops.map fun l => .name (loopName l.axis)) r := by
  refine List.forall₂_map_left_iff.mpr (List.forall₂_iff_get.mpr ⟨hl.symm, fun i hi hi' => ?_⟩)
  refine Names.defineAll_eq (fun w hw => ?_) (.inl ?_)
  · obtain ⟨j, hj, hj', hname, rfl⟩ := mem_entries hw
    have hij : i = j := by
      have haxis : (loops.map (·.axis))[i]? = (loops.map (·.axis))[j]? := by
        rw [List.getElem?_map, List.getElem?_map, List.getElem?_eq_getElem hi,
          List.getElem?_eq_getElem hj]
        exact congrArg some (loopName_inj hname)
      exact (List.getElem?_inj (by simpa using hi) hn).mp haxis
    subst hij
    rfl
  · refine List.mem_iff_getElem.mpr ⟨i, ?_, ?_⟩
    · rw [entries, List.length_zipWith]
      omega
    · simp [entries]

/-- Loops do not change what other names stand for. -/
theorem stand_of_ne_loopName {es : List IndexExpr} {g : List Nat} (h : Stand names es g)
    (hne : ∀ e ∈ es, ∃ s, e = .name s ∧ ∀ axis, s ≠ loopName axis) :
    Stand (names.defineAll (entries loops r)) es g := by
  induction h with
  | nil => exact .nil
  | @cons e i es g he _ ih =>
    refine .cons ?_ (ih fun e he => hne e (List.mem_cons_of_mem _ he))
    obtain ⟨s, rfl, hs⟩ := hne e List.mem_cons_self
    refine Names.defineAll_eq (fun w hw => ?_) (.inr he)
    obtain ⟨j, hj, -, hname, -⟩ := mem_entries hw
    exact absurd hname (hs _)

end Accumulation

namespace Plan

variable {names : Names} {p : Plan} {k : Kernel} {spans reduced sizes outs : List Nat}

theorem stand_literals (idx : List Nat) : Stand names (literals idx) idx :=
  List.forall₂_map_left_iff.mpr (List.forall₂_same.mpr fun _ _ => rfl)

/-- The symbolic indices inside the loops stand for an index of the iteration space. -/
theorem Fits.stand_inside (h : p.Fits k spans reduced sizes outs) {g r : List Nat}
    (hg : Stand names p.grid.names g) (hr : InRange r reduced) (u : List Nat) :
    Stand (names.defineAll (Accumulation.entries p.loops r)) (p.inside u) (g ++ (r ++ u)) := by
  have hl : r.length = p.loops.length := hr.length_eq.trans h.length_loops.symm
  rw [← List.append_assoc]
  exact List.rel_append (List.rel_append
    (Accumulation.stand_of_ne_loopName hg (Grid.names_ne_loopName h.grid))
    (Accumulation.stand_loops h.axes hl)) (stand_literals u)

/-- The symbolic indices behind the loops stand for an index that is 0 on the reduced axes. -/
theorem stand_behind {g : List Nat} (hg : Stand names p.grid.names g) (u : List Nat) :
    Stand names (p.behind u) (g ++ (List.replicate p.loops.length 0 ++ u)) := by
  rw [← List.append_assoc]
  refine List.rel_append (List.rel_append hg ?_) (stand_literals u)
  refine List.forall₂_iff_get.mpr ⟨by simp, fun i hi hi' => ?_⟩
  simp [IndexExpr.eval]

end Plan

/-! ## Values -/

namespace Kernel

variable {k : Kernel} {data : List (Array Float32)}

/-- Data that is not refused has one list for each input, as long as its buffer. -/
theorem checkData_eq_ok (h : k.checkData data = .ok ()) :
    List.Forall₂ (fun (o : Operand) (xs : Array Float32) => o.buffer.len = xs.size)
      k.inputs data := by
  unfold checkData at h
  split at h
  · cases h
  rename_i hlength
  split at h
  · cases h
  rename_i hfind
  refine List.forall₂_iff_get.mpr ⟨(not_not.mp hlength).symm, fun i hi hi' => ?_⟩
  have hmem : (k.inputs[i], data[i]) ∈ k.inputs.zip data := by
    rw [← List.getElem_zip (h := by rw [List.length_zip]; omega)]
    exact List.getElem_mem _
  simpa using List.find?_eq_none.mp hfind _ hmem

/-- What an input holds at an index. -/
theorem loadFn_eq_ok {number : Nat} (h : number < k.inputs.length) (h' : number < data.length) :
    k.loadFn data (number + 1) = .ok fun idx =>
      match k.inputs[number].tracker.read (broadcastIndex idx k.inputs[number].shape) with
        | some i => data[number].getD i 0
        | none => 0 := by
  have ho : entry k.operands (number + 1) = .ok k.inputs[number] := by simp [entry, operands, h]
  have hn : Word.sub (number + 1) 1 = .ok number := if_pos (by omega)
  have hxs : entry data number = .ok data[number] := by simp [entry, h']
  exact bind_eq_ok.mpr ⟨_, ho, bind_eq_ok.mpr ⟨_, hn, bind_eq_ok.mpr ⟨_, hxs, rfl⟩⟩⟩

/-- Conditions of which one never holds do not all hold. -/
theorem evalAll_ne_some_true {names : Names} {cs : List Condition} (h : .never ∈ cs) :
    Condition.evalAll names cs ≠ some true := by
  induction cs with
  | nil => cases h
  | cons c cs ih =>
    intro he
    obtain ⟨b, hb, he⟩ := Option.bind_eq_some_iff.mp he
    cases b with
    | false => cases he
    | true =>
      rcases List.mem_cons.mp h with rfl | h
      · cases hb
      · exact ih h he

/-- A generated load has the value of the input at the index that the names stand for. -/
theorem Grounded.eval_loadValue (hk : k.Grounded) (hdata : k.checkData data = .ok ())
    {names : Names} {idx : List IndexExpr} {i : List Nat} (hi : Stand names idx i)
    (hin : InRange i k.space) (accumulators : List Float32) {number : Nat} {v : Value}
    {f : List Nat → Float32} (hf : k.loadFn data number = .ok f)
    (hv : k.loadValue idx number = .ok v) : v.eval data names accumulators = some (f i) := by
  obtain ⟨o, ho, hf⟩ := bind_eq_ok.mp hf
  obtain ⟨n, hn, hf⟩ := bind_eq_ok.mp hf
  obtain ⟨xs, hxs, hf⟩ := bind_eq_ok.mp hf
  obtain rfl := pure_eq_ok.mp hf
  obtain ⟨o', ho', hv⟩ := bind_eq_ok.mp hv
  obtain ⟨address, haddress, hv⟩ := bind_eq_ok.mp hv
  obtain rfl := pure_eq_ok.mp hv
  obtain rfl : o = o' := Except.ok.inj (ho.symm.trans ho')
  obtain ⟨h1, rfl⟩ := Word.sub_eq_ok.mp hn
  have ho := entry_eq_ok.mp ho
  have hxs := entry_eq_ok.mp hxs
  obtain ⟨number, rfl⟩ : ∃ n, number = n + 1 := ⟨number - 1, by omega⟩
  rw [Nat.add_sub_cancel] at hxs
  rw [operands, List.getElem?_cons_succ] at ho
  have hmem : o ∈ k.inputs := List.mem_of_getElem? ho
  have hsize : o.buffer.len = xs.size := by
    obtain ⟨h, rfl⟩ := List.getElem?_eq_some_iff.mp ho
    obtain ⟨h', rfl⟩ := List.getElem?_eq_some_iff.mp hxs
    exact (List.forall₂_iff_get.mp (checkData_eq_ok hdata)).2 number h h'
  have hin := hk.sound.index_inRange (List.mem_cons_of_mem _ hmem) hin
  obtain ⟨_, hw⟩ := hk.sound.within o (List.mem_cons_of_mem _ hmem)
  have hsays := Tracker.says_address hw hi hin haddress
  have hlt := fun n => (hk.staysIn o hmem).lt hin (n := n)
  change Tracker.Says names address (o.tracker.read (broadcastIndex i o.shape)) at hsays
  change ∀ n, o.tracker.read (broadcastIndex i o.shape) = some n → _ at hlt
  dsimp only
  cases hread : o.tracker.read (broadcastIndex i o.shape) with
  | none =>
    rw [hread] at hsays
    split
    · rw [Value.eval]
    · rw [Value.eval, show Condition.evalAll names address.conditions = some false from hsays]
      rfl
  | some n =>
    rw [hread] at hsays
    obtain ⟨hholds, hposition⟩ := hsays
    have hn : n < xs.size := hsize ▸ hlt n hread
    rw [if_neg fun h => evalAll_ne_some_true (by simpa using h) hholds, Value.eval, hholds]
    simp [hxs, hposition, positionIn, hn]

/-- The values of a tree that has been lowered are a function of the index. -/
theorem exists_valueFn (hdata : k.checkData data = .ok ()) {t : OpTree Nat}
    (ht : t.Lowered k.inputs.length) (reduced : List Nat → Float32) :
    ∃ f, valueFn (k.loadFn data) reduced t = .ok f := by
  induction ht with
  | @leaf number h1 hn =>
    obtain ⟨number, rfl⟩ : ∃ n, number = n + 1 := ⟨number - 1, by omega⟩
    have := (checkData_eq_ok hdata).length_eq
    rw [valueFn]
    exact ⟨_, loadFn_eq_ok (by omega) (by omega)⟩
  | unary _ ih =>
    obtain ⟨f, hf⟩ := ih
    rw [valueFn, hf]
    exact ⟨_, rfl⟩
  | binary _ _ iha ihb =>
    obtain ⟨f, hf⟩ := iha
    obtain ⟨g, hg⟩ := ihb
    rw [valueFn, hf, hg]
    exact ⟨_, rfl⟩
  | reduce _ _ =>
    rw [valueFn]
    exact ⟨_, rfl⟩
    all_goals simp

/-- A generated value is that of the tree at the index that the names stand for, if the value that
stands for the reduction is. -/
theorem Grounded.eval_symbolicValue (hk : k.Grounded) (hdata : k.checkData data = .ok ())
    {names : Names} {idx : List IndexExpr} {i : List Nat} (hi : Stand names idx i)
    (hin : InRange i k.space) {accumulators : List Float32} {reduced : List Nat → Float32}
    {written : Value} (hreduced : written.eval data names accumulators = some (reduced i))
    {t : OpTree Nat} (ht : t.Lowered k.inputs.length) {v : Value} {f : List Nat → Float32}
    (hf : valueFn (k.loadFn data) reduced t = .ok f)
    (hv : k.symbolicValue idx written t = .ok v) :
    v.eval data names accumulators = some (f i) := by
  induction ht generalizing v f with
  | leaf =>
    rw [valueFn] at hf
    rw [symbolicValue] at hv
    exact hk.eval_loadValue hdata hi hin accumulators hf hv
  | unary _ ih =>
    rw [valueFn] at hf
    rw [symbolicValue] at hv
    obtain ⟨g, hg, hf⟩ := bind_eq_ok.mp hf
    obtain ⟨w, hw, hv⟩ := bind_eq_ok.mp hv
    rw [← pure_eq_ok.mp hf, ← pure_eq_ok.mp hv, Value.eval, ih hg hw]
    rfl
  | binary _ _ iha ihb =>
    rw [valueFn] at hf
    rw [symbolicValue] at hv
    obtain ⟨g, hg, hf⟩ := bind_eq_ok.mp hf
    obtain ⟨g', hg', hf⟩ := bind_eq_ok.mp hf
    obtain ⟨w, hw, hv⟩ := bind_eq_ok.mp hv
    obtain ⟨w', hw', hv⟩ := bind_eq_ok.mp hv
    rw [← pure_eq_ok.mp hf, ← pure_eq_ok.mp hv, Value.eval, iha hg hw, ihb hg' hw']
    rfl
  | reduce _ _ =>
    rw [symbolicValue] at hv
    rw [valueFn] at hf
    · rw [← pure_eq_ok.mp hf, ← pure_eq_ok.mp hv, hreduced]
    all_goals simp

/-- A generated store writes the value of the tree to the cell of the index. -/
theorem Grounded.run_storeAt (hk : k.Grounded) (hdata : k.checkData data = .ok ())
    {names : Names} {idx : List IndexExpr} {i : List Nat} (hi : Stand names idx i)
    (hin : InRange i k.space) {accumulators : List Float32} {reduced : List Nat → Float32}
    {written : Value} (hreduced : written.eval data names accumulators = some (reduced i))
    {f : List Nat → Float32} (hf : valueFn (k.loadFn data) reduced k.ast = .ok f) {s : Store}
    (hs : k.storeAt idx written = .ok s) :
    s.run data names accumulators = some ⟨k.outCell i, f i⟩ := by
  obtain ⟨v, hv, hs⟩ := bind_eq_ok.mp hs
  obtain ⟨address, haddress, hs⟩ := bind_eq_ok.mp hs
  obtain rfl := pure_eq_ok.mp hs
  obtain ⟨_, hw⟩ := hk.sound.within _ (mem_output k)
  obtain ⟨-, hposition⟩ : Tracker.Says names address (some (k.outCell i)) :=
    (hk.sound.placed.read_output hin).1 ▸
      Tracker.says_address hw hi (hk.sound.index_inRange (mem_output k) hin) haddress
  rw [Store.run, hposition, hk.eval_symbolicValue hdata hi hin hreduced hk.lowered hf hv]
  rfl

end Kernel

/-! ## Accumulations -/

theorem mapM_eq_some {α β γ : Type} {f : α → Option β} {g : γ → β} {xs : List α} {ys : List γ}
    (h : List.Forall₂ (fun x y => f x = some (g y)) xs ys) : xs.mapM f = some (ys.map g) := by
  induction h with
  | nil => rfl
  | cons hxy _ ih =>
    rw [List.mapM_cons, hxy, ih]
    rfl

theorem foldlM_eq_some {α β : Type} {f : β → α → Option β} {g : β → α → β} {xs : List α}
    (P : β → Prop) (h : ∀ b, P b → ∀ a ∈ xs, f b a = some (g b a) ∧ P (g b a)) {b : β}
    (hb : P b) : xs.foldlM f b = some (xs.foldl g b) := by
  induction xs generalizing b with
  | nil => rfl
  | cons a xs ih =>
    obtain ⟨hf, hP⟩ := h b hb a List.mem_cons_self
    rw [List.foldlM_cons, List.foldl_cons, hf]
    exact ih (fun b hb a ha => h b hb a (List.mem_cons_of_mem _ ha)) hP

namespace Accumulation

variable {ι : Type} {target : ι → Nat} {value : ι → Float32}

/-- Append values to the lists that they are meant for. -/
def deal (target : ι → Nat) (value : ι → Float32) (xs : List ι) (folded : List (List Float32)) :
    List (List Float32) :=
  xs.foldl (fun folded x => folded.modify (target x) (· ++ [value x])) folded

theorem length_deal (xs : List ι) (folded : List (List Float32)) :
    (deal target value xs folded).length = folded.length := by
  induction xs generalizing folded with
  | nil => rfl
  | cons x xs ih => exact (ih _).trans (List.length_modify ..)

theorem getElem?_deal (xs : List ι) (folded : List (List Float32)) (m : Nat) :
    (deal target value xs folded)[m]? =
      folded[m]?.map (· ++ (xs.filter (target · = m)).map value) := by
  induction xs generalizing folded with
  | nil => simp [deal]
  | cons x xs ih =>
    refine (ih _).trans ?_
    rw [List.getElem?_modify]
    by_cases h : target x = m
    · simp [h, Function.comp_def]
    · simp [h]

/-- Each accumulator gets the values that are meant for it, in their order. -/
theorem deal_replicate (xs : List ι) (n : Nat) :
    deal target value xs (List.replicate n []) =
      (List.range n).map fun m => (xs.filter (target · = m)).map value := by
  refine List.ext_getElem? fun m => ?_
  rw [getElem?_deal, List.getElem?_map, List.getElem?_replicate]
  by_cases h : m < n
  · simp [h]
  · simp [h]

/-- Updates of accumulators that exist, by values that do not depend on them. -/
theorem foldlM_update {op : Reduction} {data : List (Array Float32)} {names : Names} {xs : List ι}
    {updates : List Update} (h : List.Forall₂ (fun x (u : Update) => u.accumulator = target x ∧
      ∀ accumulators, u.value.eval data names accumulators = some (value x)) xs updates) {n : Nat}
    (hn : ∀ x ∈ xs, target x < n) {folded : List (List Float32)} (hl : folded.length = n) :
    updates.foldlM (update op data names) folded = some (deal target value xs folded) := by
  induction h generalizing folded with
  | nil => rfl
  | @cons x u xs updates hu _ ih =>
    obtain ⟨htarget, hvalue⟩ := hu
    have hlt : target x < folded.length := hl ▸ hn x List.mem_cons_self
    have hstep : update op data names folded u =
        some (folded.modify (target x) (· ++ [value x])) := by
      rw [update, hvalue, htarget]
      exact if_pos hlt
    rw [List.foldlM_cons, hstep]
    exact ih (fun x hx => hn x (List.mem_cons_of_mem _ hx)) (by rw [List.length_modify, hl])

end Accumulation

/-- Each accumulator folds the values at its indices of the reduced and unrolled axes, in row-major
order. -/
theorem Kernel.Grounded.run_accumulation {k : Kernel} {data : List (Array Float32)}
    (hk : k.Grounded) (hdata : k.checkData data = .ok ()) {p : Plan}
    {spans reduced sizes outs : List Nat} (hp : p.Fits k spans reduced sizes outs)
    {op : Reduction} {operand : OpTree Nat} (ho : operand.Lowered k.inputs.length)
    {f : List Nat → Float32} (hf : valueFn (k.loadFn data) (fun _ => 0) operand = .ok f)
    {a : Accumulation} (ha : k.accumulation p op operand = .ok a) {names : Names} {g : List Nat}
    (hg : Stand names p.grid.names g) (hgin : InRange g spans) :
    a.op = op ∧ a.run data names = some ((List.range p.accumulators.length).map fun m =>
      ((indices (reduced ++ sizes)).filter
        fun j => p.accumulatorOf (j.drop reduced.length) = m).map fun j => f (g ++ j)) := by
  obtain ⟨updates, hupdates, ha⟩ := bind_eq_ok.mp ha
  obtain rfl := pure_eq_ok.mp ha
  refine ⟨rfl, ?_⟩
  have hbody : ∀ folded : List (List Float32), folded.length = p.accumulators.length →
      ∀ r ∈ indices (p.loops.map (·.bound)),
        updates.foldlM (Accumulation.update op data
          (names.defineAll (Accumulation.entries p.loops r))) folded =
            some (Accumulation.deal p.accumulatorOf (fun u => f (g ++ (r ++ u))) (indices sizes)
              folded) ∧
        (Accumulation.deal p.accumulatorOf (fun u => f (g ++ (r ++ u))) (indices sizes)
          folded).length = p.accumulators.length := by
    intro folded hl r hr
    have hr := Shape.mem_indices.mp hr
    rw [hp.bounds] at hr
    refine ⟨Accumulation.foldlM_update ?_
      (fun u hu => hp.accumulatorOf_lt (Shape.mem_indices.mp hu)) hl,
      (Accumulation.length_deal ..).trans hl⟩
    rw [hp.unrolled] at hupdates
    refine List.forall₂_iff_get.mpr ⟨(mapM_eq_ok hupdates).length_eq, fun n hn hn' => ?_⟩
    have hupdate := (List.forall₂_iff_get.mp (mapM_eq_ok hupdates)).2 n hn hn'
    obtain ⟨v, hv, hupdate⟩ := bind_eq_ok.mp hupdate
    rw [← pure_eq_ok.mp hupdate]
    have hu : InRange ((indices sizes).get ⟨n, hn⟩) sizes :=
      Shape.mem_indices.mp (List.getElem_mem hn)
    refine ⟨rfl, fun accumulators => ?_⟩
    exact hk.eval_symbolicValue hdata (hp.stand_inside hg hr _)
      (hp.space ▸ Shape.inRange_append hgin (Shape.inRange_append hr hu)) rfl ho hf hv
  rw [Accumulation.run, Accumulation.runLoops_eq,
    foldlM_eq_some (·.length = p.accumulators.length) hbody (List.length_replicate ..), hp.bounds]
  refine congrArg some ?_
  rw [← Accumulation.deal_replicate, Accumulation.deal, Shape.indices_append, List.foldl_flatMap]
  refine List.foldl_ext _ _ _ fun folded r hr => ?_
  have hdrop : ∀ u : List Nat, (r ++ u).drop reduced.length = u := fun u => by
    rw [← (Shape.mem_indices.mp hr).length_eq, List.drop_left]
  simp only [List.foldl_map, hdrop]
  rfl

end TensorLoom
