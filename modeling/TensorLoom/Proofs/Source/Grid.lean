import TensorLoom.Kernel.Generate
import TensorLoom.Proofs.Source.Address
import Std.Data.String.ToNat

/-!
# Work items and the axes that the output spans

Each work item stands for an index of the axes that the output spans, `Grid.indexOf`, and all of the
indices are met in row-major order if the work items are (`Grid.map_indexOf`). The definitions at
the head of a source recover it: behind them the names of a grid stand for the index of the work
item (`Grid.stand_names`).
-/

namespace TensorLoom

open Shape (InRange indexAt indices)
open IndexExpr (Stand)

/-! ## Names -/

theorem append_repr_inj {text : String} {m n : Nat}
    (h : text ++ toString m = text ++ toString n) : m = n := by
  have h := congrArg String.toList h
  rw [String.toList_append, String.toList_append, List.append_cancel_left_eq,
    String.toList_inj] at h
  exact Nat.repr_injective h

theorem globalName_inj {m n : Nat} (h : globalName m = globalName n) : m = n :=
  append_repr_inj h

theorem mergedName_inj {m n : Nat} (h : mergedName m = mergedName n) : m = n :=
  append_repr_inj h

theorem loopName_inj {m n : Nat} (h : loopName m = loopName n) : m = n :=
  append_repr_inj h

theorem globalName_ne_mergedName (m n : Nat) : globalName m ≠ mergedName n := by
  intro h
  have h := congrArg String.toList h
  simp [globalName, mergedName, toString] at h

theorem globalName_ne_loopName (m n : Nat) : globalName m ≠ loopName n := by
  intro h
  have h := congrArg String.toList h
  simp [globalName, loopName, toString] at h

theorem mergedName_ne_loopName (m n : Nat) : mergedName m ≠ loopName n := by
  intro h
  have h := congrArg String.toList h
  simp [mergedName, loopName, toString] at h

namespace Names

theorem define_self (names : Names) (name : String) (value : Int) :
    names.define name value name = some value := if_pos rfl

theorem define_of_ne (names : Names) {s name : String} (h : s ≠ name) (value : Int) :
    names.define name value s = names s := if_neg h

/-- Give names values, one after the other. -/
def defineAll (names : Names) (entries : List (String × Int)) : Names :=
  entries.foldl (fun names entry => names.define entry.1 entry.2) names

/-- A name that is always given the same value has it. -/
theorem defineAll_eq {names : Names} {entries : List (String × Int)} {s : String} {v : Int}
    (hsame : ∀ w, (s, w) ∈ entries → w = v) (hs : (s, v) ∈ entries ∨ names s = some v) :
    names.defineAll entries s = some v := by
  induction entries generalizing names with
  | nil => exact hs.resolve_left (by simp)
  | cons entry entries ih =>
    obtain ⟨t, w⟩ := entry
    refine ih (fun w hw => hsame w (List.mem_cons_of_mem _ hw)) ?_
    by_cases hst : s = t
    · subst hst
      rw [hsame w List.mem_cons_self]
      exact .inr (define_self ..)
    · rcases hs with hs | hs
      · exact .inl ((List.mem_cons.mp hs).resolve_left fun h => hst (congrArg Prod.fst h))
      · exact .inr ((define_of_ne _ hst _).trans hs)

end Names

/-- A definition gives a name a value, as long as a condition on the names holds, which it keeps. -/
def IndexDefinition.Gives (item : List Nat) (P : Names → Prop) (d : IndexDefinition)
    (entry : String × Int) : Prop :=
  ∀ names, P names → d.run item names = some (names.define entry.1 entry.2) ∧
    P (names.define entry.1 entry.2)

theorem IndexDefinition.foldlM_run {item : List Nat} {P : Names → Prop}
    {definitions : List IndexDefinition} {entries : List (String × Int)}
    (h : List.Forall₂ (Gives item P) definitions entries) {names : Names} (hnames : P names) :
    definitions.foldlM (run item) names = some (names.defineAll entries) := by
  induction h generalizing names with
  | nil => rfl
  | @cons d entry ds rest hd _ ih =>
    rw [List.foldlM_cons, (hd names hnames).1]
    exact ih (hd names hnames).2

/-- Names that have the entries of an index. -/
theorem IndexExpr.stand_range {names : Names} {name : Nat → String} {idx : List Nat}
    (h : ∀ i < idx.length, names (name i) = some ((idx.getD i 0 : Nat) : Int)) :
    Stand names ((List.range idx.length).map fun i => .name (name i)) idx := by
  refine List.forall₂_iff_get.mpr ⟨by simp, fun i hi hi' => ?_⟩
  have := h i hi'
  rw [List.getD_eq_getElem _ _ hi'] at this
  simpa [eval] using this

/-! ## Grids -/

namespace Grid

/-- The index of the axes that a work item stands for. -/
def indexOf (sizes item : List Nat) : List Nat :=
  if sizes.length ≤ 3 then item.take sizes.length
  else indexAt (item.getD 0 0) (sizes.take (sizes.length - 2)) ++ item.drop 1

/-- What a grid is made of. -/
theorem ofSizes_eq_ok {sizes : List Nat} {grid : Grid} (h : ofSizes sizes = .ok grid) :
    (sizes = [] ∧ grid = ⟨[1], [], []⟩) ∨
      (sizes ≠ [] ∧ sizes.length ≤ 3 ∧ grid = separate sizes) ∨
      (3 < sizes.length ∧ ∃ leading y z, sizes = leading ++ [y, z] ∧
        leading = sizes.take (sizes.length - 2) ∧ merged leading y z = .ok grid) := by
  unfold ofSizes at h
  split at h
  · rename_i hempty
    exact .inl ⟨List.isEmpty_iff.mp hempty, (pure_eq_ok.mp h).symm⟩
  rename_i hempty
  split at h
  · exact .inr (.inl ⟨mt List.isEmpty_iff.mpr hempty, ‹_›, (pure_eq_ok.mp h).symm⟩)
  split at h
  · rename_i hlen _ y z hdrop
    refine .inr (.inr ⟨Nat.lt_of_not_le hlen, _, y, z, ?_, rfl, h⟩)
    rw [← hdrop, List.take_append_drop]
  · cases h

theorem merged_eq_ok {leading : List Nat} {y z : Nat} {grid : Grid}
    (h : merged leading y z = .ok grid) :
    ∃ parts, leading.zipIdx.mapM (fun (size, i) => mergedAxis leading i size) = .ok parts ∧
      grid = {
        globalSize := [leading.prod, y, z]
        definitions := .ofGlobal 0 :: parts ++ [.ofGlobal 1, .ofGlobal 2]
        names := (List.range leading.length).map (fun i => .name (mergedName i)) ++
          [.name (globalName 1), .name (globalName 2)] } := by
  obtain ⟨parts, hparts, h⟩ := bind_eq_ok.mp h
  obtain ⟨total, htotal, h⟩ := bind_eq_ok.mp h
  obtain rfl := pure_eq_ok.mp h
  rw [(Shape.size_yields leading).eq_of_ok htotal]
  exact ⟨parts, hparts, rfl⟩

theorem indices_single (n : Nat) : indices [n] = (List.range n).map ([·]) := by
  rw [List.map_eq_flatMap]
  rfl

/-- The work items in row-major order stand for the indices in row-major order. -/
theorem map_indexOf {sizes : List Nat} {grid : Grid} (h : ofSizes sizes = .ok grid) :
    (indices grid.globalSize).map (indexOf sizes) = indices sizes := by
  rcases ofSizes_eq_ok h with ⟨rfl, rfl⟩ | ⟨-, hlen, rfl⟩ | ⟨hlen, leading, y, z, hsizes, htake, h⟩
  · rfl
  · refine (List.map_congr_left fun idx hi => ?_).trans (List.map_id _)
    have hi := (Shape.mem_indices.mp hi).length_eq
    rw [indexOf, if_pos hlen, ← show idx.length = sizes.length from hi, List.take_length]
    rfl
  · obtain ⟨parts, -, rfl⟩ := merged_eq_ok h
    have hindexOf : ∀ p j, indexOf sizes (p :: j) = indexAt p leading ++ j := by
      intro p j
      rw [indexOf, if_neg (Nat.not_le.mpr hlen), ← htake]
      rfl
    rw [show [leading.prod, y, z] = [leading.prod] ++ [y, z] from rfl, Shape.indices_append,
      indices_single, hsizes, Shape.indices_append, Shape.indices_eq leading, List.flatMap_map,
      List.flatMap_map, List.map_flatMap]
    refine List.flatMap_congr fun p _ => ?_
    rw [List.map_map]
    exact List.map_congr_left fun j _ => hsizes ▸ hindexOf p j

theorem getElem?_indexAt (p : Nat) (shape : List Nat) (i : Nat) :
    (indexAt p shape)[i]? = shape[i]?.map fun size => p / (shape.drop (i + 1)).prod % size := by
  induction shape generalizing i with
  | nil => simp [indexAt]
  | cons dim inner ih =>
    cases i with
    | zero => rfl
    | succ i => simpa [indexAt] using ih i

theorem run_ofMerged {item : List Nat} {names : Names} {axis : Nat} {e : IndexExpr} {v : Int}
    (h : e.eval names = some v) :
    (IndexDefinition.ofMerged axis e).run item names =
      some (names.define (mergedName axis) v) := by
  simp [IndexDefinition.run, h]

/-- The part of the first identity above the elements that some axes span. -/
def mergedPart (span : Nat) : IndexExpr :=
  if span = 1 then .name (globalName 0) else .quotient (.name (globalName 0)) span

/-- What is written for an axis that shares the first dimension. -/
def mergedValue (leading : List Nat) (i size : Nat) : IndexExpr :=
  if i = 0 then mergedPart (leading.drop (i + 1)).prod
  else .remainder (mergedPart (leading.drop (i + 1)).prod) size

theorem mergedAxis_yields (leading : List Nat) (i size : Nat) :
    Yields (mergedAxis leading i size) (.ofMerged i (mergedValue leading i size)) :=
  (Shape.size_yields _).bind (.pure _)

theorem eval_mergedPart {span first : Nat} (hspan : 0 < span) {names : Names}
    (hnames : names (globalName 0) = some (first : Int)) :
    (mergedPart span).eval names = some ((first / span : Nat) : Int) := by
  unfold mergedPart
  split
  · rename_i h1
    rw [h1, Nat.div_one]
    exact hnames
  · exact IndexExpr.eval_quotient hnames hspan

/-- A merged axis is the part of the identity that the index at it has. -/
theorem eval_mergedValue {leading : List Nat} (hp : ∀ d ∈ leading, 0 < d) {first : Nat}
    (hfirst : first < leading.prod) {i size : Nat} (hi : leading[i]? = some size) {names : Names}
    (hnames : names (globalName 0) = some (first : Int)) :
    (mergedValue leading i size).eval names =
      some (((indexAt first leading).getD i 0 : Nat) : Int) := by
  have hpart := eval_mergedPart
    (Shape.prod_pos fun d hd => hp d (List.mem_of_mem_drop (i := i + 1) hd)) hnames
  have hget : (indexAt first leading).getD i 0 = first / (leading.drop (i + 1)).prod % size := by
    rw [List.getD_eq_getElem?_getD, getElem?_indexAt, hi]
    rfl
  rw [hget]
  by_cases h0 : i = 0
  · subst h0
    cases leading with
    | nil => cases hi
    | cons dim inner =>
      obtain rfl : dim = size := Option.some.inj hi
      have hlt : first / ((dim :: inner).drop 1).prod < dim := Nat.div_lt_of_lt_mul (by
        rw [Nat.mul_comm]
        simpa using hfirst)
      rw [mergedValue, if_pos rfl, Nat.mod_eq_of_lt hlt]
      exact hpart
  · rw [mergedValue, if_neg h0]
    exact IndexExpr.eval_remainder hpart (hp size (List.mem_of_getElem? hi))

theorem mergedAxis_run {leading : List Nat} (hp : ∀ d ∈ leading, 0 < d) {item : List Nat}
    {first : Nat} (hfirst : first < leading.prod) {i size : Nat} (hi : leading[i]? = some size)
    {d : IndexDefinition} (hd : mergedAxis leading i size = .ok d) {names : Names}
    (hnames : names (globalName 0) = some (first : Int)) :
    d.run item names =
      some (names.define (mergedName i) ((indexAt first leading).getD i 0 : Nat)) := by
  obtain rfl := (mergedAxis_yields leading i size).eq_of_ok hd
  exact run_ofMerged (eval_mergedValue hp hfirst hi hnames)

/-- The names of a grid are no names of loops. -/
theorem names_ne_loopName {sizes : List Nat} {grid : Grid} (h : ofSizes sizes = .ok grid) :
    ∀ e ∈ grid.names, ∃ s, e = .name s ∧ ∀ axis, s ≠ loopName axis := by
  rcases ofSizes_eq_ok h with ⟨-, rfl⟩ | ⟨-, -, rfl⟩ | ⟨-, leading, y, z, -, -, h⟩
  · intro e he
    cases he
  · intro e he
    obtain ⟨d, -, rfl⟩ := List.mem_map.mp he
    exact ⟨_, rfl, globalName_ne_loopName d⟩
  · obtain ⟨parts, -, rfl⟩ := merged_eq_ok h
    intro e he
    rcases List.mem_append.mp he with he | he
    · obtain ⟨i, -, rfl⟩ := List.mem_map.mp he
      exact ⟨_, rfl, mergedName_ne_loopName i⟩
    · simp only [List.mem_cons, List.not_mem_nil, or_false] at he
      rcases he with rfl | rfl
      · exact ⟨_, rfl, globalName_ne_loopName 1⟩
      · exact ⟨_, rfl, globalName_ne_loopName 2⟩

theorem stand_separate {sizes item : List Nat} (hl : item.length = sizes.length) :
    ∃ names, (separate sizes).definitions.foldlM (IndexDefinition.run item) .none = some names ∧
      Stand names (separate sizes).names item := by
  have hgives : List.Forall₂ (IndexDefinition.Gives item fun _ => True)
      (separate sizes).definitions
      ((List.range sizes.length).map fun d => (globalName d, ((item.getD d 0 : Nat) : Int))) :=
    List.forall₂_map_right_iff.mpr (List.forall₂_map_left_iff.mpr
      (List.forall₂_same.mpr fun _ _ _ _ => ⟨rfl, trivial⟩))
  refine ⟨_, IndexDefinition.foldlM_run hgives trivial, ?_⟩
  rw [separate, ← hl]
  refine IndexExpr.stand_range fun d hd => Names.defineAll_eq (fun w hw => ?_) (.inl ?_)
  · obtain ⟨c, -, hc⟩ := List.mem_map.mp hw
    rw [← (Prod.mk.inj hc).2, globalName_inj (Prod.mk.inj hc).1]
  · exact List.mem_map.mpr ⟨d, List.mem_range.mpr hd, rfl⟩

/-- The names of the merged axes and of the two last ones, with their values. -/
def mergedEntries (leading : List Nat) (p j k : Nat) : List (String × Int) :=
  (leading.zipIdx.map fun (_, i) => (mergedName i, (((indexAt p leading).getD i 0 : Nat) : Int))) ++
    [(globalName 1, (j : Int)), (globalName 2, (k : Int))]

/-- Once the first identity is known, each definition of a merged grid has a value of its own. -/
theorem gives_merged {leading : List Nat} (hp : ∀ d ∈ leading, 0 < d) {p j k : Nat}
    (hfirst : p < leading.prod) {parts : List IndexDefinition}
    (hparts : leading.zipIdx.mapM (fun (size, i) => mergedAxis leading i size) = .ok parts) :
    List.Forall₂ (IndexDefinition.Gives [p, j, k] fun names =>
      names (globalName 0) = some (p : Int)) (parts ++ [.ofGlobal 1, .ofGlobal 2]) (mergedEntries leading p j k) := by
  have hkept : ∀ {names : Names} {s : String} {v : Int}, names (globalName 0) = some (p : Int) →
      s ≠ globalName 0 → names.define s v (globalName 0) = some (p : Int) :=
    fun hn hs => (Names.define_of_ne _ hs.symm _).trans hn
  refine List.rel_append ?_ (.cons ?_ (.cons ?_ .nil))
  · refine List.forall₂_map_right_iff.mpr (List.forall₂_iff_get.mpr
      ⟨(mapM_eq_ok hparts).length_eq.symm, fun n hn hn' names hnames => ?_⟩)
    have hpart := (List.forall₂_iff_get.mp (mapM_eq_ok hparts)).2 n hn' hn
    have hlen : n < leading.length := by simpa using hn'
    simp only [List.get_eq_getElem, List.getElem_zipIdx, Nat.zero_add] at hpart ⊢
    exact ⟨mergedAxis_run hp hfirst (List.getElem?_eq_getElem hlen) hpart hnames,
      hkept hnames fun e => globalName_ne_mergedName 0 n e.symm⟩
  · exact fun _ hn => ⟨rfl, hkept hn fun e => absurd (globalName_inj e) (by decide)⟩
  · exact fun _ hn => ⟨rfl, hkept hn fun e => absurd (globalName_inj e) (by decide)⟩

theorem mem_mergedEntries_merged {leading : List Nat} {p j k i : Nat} {v : Int}
    (h : (mergedName i, v) ∈ mergedEntries leading p j k) :
    v = (((indexAt p leading).getD i 0 : Nat) : Int) := by
  rcases List.mem_append.mp h with h | h
  · obtain ⟨⟨_, c⟩, -, hc⟩ := List.mem_map.mp h
    rw [← (Prod.mk.inj hc).2, mergedName_inj (Prod.mk.inj hc).1]
  · simp only [List.mem_cons, Prod.mk.injEq, List.not_mem_nil, or_false] at h
    rcases h with ⟨e, -⟩ | ⟨e, -⟩ <;> exact absurd e.symm (globalName_ne_mergedName _ _)

theorem mem_mergedEntries_global {leading : List Nat} {p j k d : Nat} {v : Int}
    (h : (globalName d, v) ∈ mergedEntries leading p j k) :
    (d = 1 ∧ v = j) ∨ (d = 2 ∧ v = k) := by
  rcases List.mem_append.mp h with h | h
  · obtain ⟨⟨_, c⟩, -, hc⟩ := List.mem_map.mp h
    exact absurd (Prod.mk.inj hc).1.symm (globalName_ne_mergedName d c)
  · simp only [List.mem_cons, Prod.mk.injEq, List.not_mem_nil, or_false] at h
    exact h.imp (fun h => ⟨globalName_inj h.1, h.2⟩) fun h => ⟨globalName_inj h.1, h.2⟩

theorem stand_merged {leading : List Nat} {y z : Nat} {grid : Grid} (hp : ∀ d ∈ leading, 0 < d)
    (h : merged leading y z = .ok grid) {p j k : Nat} (hfirst : p < leading.prod) :
    ∃ names, grid.definitions.foldlM (IndexDefinition.run [p, j, k]) .none = some names ∧
      Stand names grid.names (indexAt p leading ++ [j, k]) := by
  obtain ⟨parts, hparts, rfl⟩ := merged_eq_ok h
  have hl := Shape.length_indexAt p leading
  refine ⟨_, IndexDefinition.foldlM_run (gives_merged hp hfirst hparts) (Names.define_self ..), ?_⟩
  refine List.rel_append ?_ (.cons ?_ (.cons ?_ .nil))
  · rw [← hl]
    refine IndexExpr.stand_range fun i hi =>
      Names.defineAll_eq (fun v hv => mem_mergedEntries_merged hv) (.inl ?_)
    refine List.mem_append_left _ (List.mem_map.mpr ⟨(leading[i], i), ?_, rfl⟩)
    exact List.mk_mem_zipIdx_iff_getElem?.mpr (List.getElem?_eq_getElem (hl ▸ hi))
  · refine Names.defineAll_eq (fun v hv => ?_) (.inl (by simp [mergedEntries]))
    exact ((mem_mergedEntries_global hv).resolve_right fun h => absurd h.1 (by decide)).2
  · refine Names.defineAll_eq (fun v hv => ?_) (.inl (by simp [mergedEntries]))
    exact ((mem_mergedEntries_global hv).resolve_left fun h => absurd h.1 (by decide)).2

/-- Behind the definitions of a grid its names stand for the index of the work item. -/
theorem stand_names {sizes : List Nat} (hp : ∀ d ∈ sizes, 0 < d) {grid : Grid}
    (h : ofSizes sizes = .ok grid) {item : List Nat} (hitem : InRange item grid.globalSize) :
    ∃ names, grid.definitions.foldlM (IndexDefinition.run item) .none = some names ∧
      Stand names grid.names (indexOf sizes item) := by
  rcases ofSizes_eq_ok h with ⟨rfl, rfl⟩ | ⟨-, hlen, rfl⟩ | ⟨hlen, leading, y, z, hsizes, htake, h⟩
  · exact ⟨_, rfl, .nil⟩
  · have hl : item.length = sizes.length := hitem.length_eq
    rw [indexOf, if_pos hlen, ← hl, List.take_length]
    exact stand_separate hl
  · obtain ⟨_, -, hgrid⟩ := merged_eq_ok h
    rw [hgrid] at hitem
    obtain ⟨p, js, hp', hjs, rfl⟩ := List.forall₂_cons_right_iff.mp hitem
    obtain ⟨j, ks, -, hks, rfl⟩ := List.forall₂_cons_right_iff.mp hjs
    obtain ⟨k, _, -, hnil, rfl⟩ := List.forall₂_cons_right_iff.mp hks
    cases hnil
    rw [indexOf, if_neg (Nat.not_le.mpr hlen), ← htake]
    exact stand_merged (fun d hd => hp d (by rw [hsizes]; exact List.mem_append_left _ hd)) h hp'

end Grid

end TensorLoom
