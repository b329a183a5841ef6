import TensorLoom.Proofs.Source.Generation
import TensorLoom.Proofs.Source.Launch
import TensorLoom.Proofs.Source.Printing
import Mathlib.Data.Set.Function

/-!
# Work items decode to indices

The lines at the head of a source define an index for each axis that the output spans, from the
identity of the work item. Here they are read from their text, with the values in the grammar of
integer expressions, and the values of the written names behind them are what a work item decodes to
(`Grid.decode`). Reading the lines does what the definitions they were written for do
(`IndexDefinition.Legible.runLine_text`), so work items decode to the indices that they stand for
(`Grid.decode_eq`). Each index is decoded from one work item of the grid (`Grid.decode_bijOn`).
-/

namespace TensorLoom

open Shape (InRange indices)
open IndexExpr (Stand)

/-! ## Lines -/

/-- The name that a line of C defines as an integer, and the text of its value. -/
def definitionOf (line : String) : Option (String × String) := do
  let rest ← line.toList.dropPrefix? "  int ".toList
  let value ← (rest.dropWhile isWordChar).dropPrefix? " = ".toList
  if value.getLast? = some ';' then
    return (String.ofList (rest.takeWhile isWordChar), String.ofList value.dropLast)
  else none

/-- The dimension of the identity of the work item that a text asks for. -/
def dimensionOf (value : String) : Option Nat := do
  let rest ← value.toList.dropPrefix? "get_global_id(".toList
  match ← tokens (lexemes rest) with
  | [.number d, .closing] => some d
  | _ => none

/-- The value of a text for a work item: a part of the identity, or that of an expression. -/
def valueForItem (item : List Nat) (names : Names) (value : String) : Option Int :=
  match dimensionOf value with
  | some d => some (item.getD d 0 : Nat)
  | none => valueOfText names value

/-- Run a line that defines an index. -/
def runLine (item : List Nat) (names : Names) (line : String) : Option Names := do
  let (name, value) ← definitionOf line
  (valueForItem item names value).map (names.define name)

/-- A line is taken apart behind its name, which ends before a blank. -/
theorem definitionOf_line {name : String} (hname : ∀ c ∈ name.toList, isWordChar c = true)
    (value : String) :
    definitionOf ("  int " ++ name ++ " = " ++ value ++ ";") = some (name, value) := by
  have hline : ("  int " ++ name ++ " = " ++ value ++ ";").toList =
      "  int ".toList ++ (name.toList ++ (" = ".toList ++ (value.toList ++ [';']))) := by
    simp [String.toList_append]
  have hblank : (" = ".toList ++ (value.toList ++ [';'])).takeWhile isWordChar = [] := rfl
  have hrest : (" = ".toList ++ (value.toList ++ [';'])).dropWhile isWordChar =
      " = ".toList ++ (value.toList ++ [';']) := rfl
  rw [definitionOf, hline, List.dropPrefix?_append_of_beq _ (beq_self_eq_true _),
    Option.bind_eq_bind, Option.bind_some, List.takeWhile_append_of_pos hname,
    List.dropWhile_append_of_pos hname, hblank, hrest,
    List.dropPrefix?_append_of_beq _ (beq_self_eq_true _)]
  simp

theorem runLine_eq {line name value : String} (h : definitionOf line = some (name, value))
    (item : List Nat) (names : Names) :
    runLine item names line = (valueForItem item names value).map (names.define name) := by
  rw [runLine, h]
  rfl

theorem dimensionOf_global (d : Nat) :
    dimensionOf ("get_global_id(" ++ toString d ++ ")") = some d := by
  have htext : ("get_global_id(" ++ toString d ++ ")").toList =
      "get_global_id(".toList ++ ((toString d).toList ++ [')']) := by
    simp [String.toList_append]
  rw [dimensionOf, htext, List.dropPrefix?_append_of_beq _ (beq_self_eq_true _),
    Option.bind_eq_bind, Option.bind_some,
    (lexes_number d).tokens_eq [')'] (ends_cons (by decide) [])]
  rfl

/-! ## Names -/

theorem isIdentifier_globalName (dimension : Nat) : IsIdentifier (globalName dimension) :=
  IsIdentifier.numbered ⟨List.all_eq_true.mp rfl, 'g', _, rfl, rfl⟩ dimension

theorem isIdentifier_mergedName (axis : Nat) : IsIdentifier (mergedName axis) :=
  IsIdentifier.numbered ⟨List.all_eq_true.mp rfl, 'i', _, rfl, rfl⟩ axis

/-- A name has the value that is given to it. -/
theorem value_ofNames (names : Names) (s : String) :
    (CScope.ofNames names).value s = (names s).map .int := by
  cases h : names s <;> simp [CScope.value, CScope.ofNames, h]

theorem IsIdentifier.valueOfText_eq {s : String} (h : IsIdentifier s) (names : Names) :
    valueOfText names s = names s := by
  have hread := IndexExpr.Readable.read_text (.name h.isAtom)
  rw [h.tree_eq] at hread
  rw [valueOfText, show CExpr.read s = _ from hread]
  simp only [Option.bind_eq_bind, Option.bind_some, CExpr.eval, value_ofNames]
  cases names s <;> rfl

/-! ## Definitions -/

/-- An expression that recovers an axis from the first part of the identity. -/
inductive IndexExpr.Recovers : IndexExpr → Prop
  | identity : Recovers (.name (globalName 0))
  | quotient {e : IndexExpr} {d : Nat} : Recovers e → 0 < d → Recovers (.quotient e d)
  | remainder {e : IndexExpr} {d : Nat} : Recovers e → 0 < d → Recovers (.remainder e d)

namespace IndexExpr.Recovers

variable {e : IndexExpr}

theorem readable (h : Recovers e) : Readable .factor e := by
  induction h with
  | identity => exact .name (isIdentifier_globalName 0).isAtom
  | quotient _ _ ih => exact .quotient _ ih
  | remainder _ _ ih => exact .remainder _ ih

theorem valueOfText_eq (h : Recovers e) (names : Names) :
    valueOfText names e.text = e.eval names := by
  have htree : e.tree.eval (.ofNames names) = (e.eval names).map .int := by
    induction h with
    | identity =>
      rw [(isIdentifier_globalName 0).tree_eq]
      exact value_ofNames names _
    | @quotient e d _ hd ih =>
      rw [tree, CExpr.eval, ih, eval]
      cases e.eval names <;> simp [CExpr.eval, CValue.apply, COperator.apply, Nat.ne_of_gt hd]
      simp
    | @remainder e d _ hd ih =>
      rw [tree, CExpr.eval, ih, eval]
      cases e.eval names <;> simp [CExpr.eval, CValue.apply, COperator.apply, Nat.ne_of_gt hd]
      simp
  rw [valueOfText, h.readable.read_text]
  simp only [Option.bind_eq_bind, Option.bind_some, htree]
  cases e.eval names <;> rfl

/-- Its text asks for no identity. -/
theorem dimensionOf_text (h : Recovers e) : dimensionOf e.text = none := by
  cases h with
  | identity => decide +kernel
  | quotient _ _ => simp [dimensionOf, text, List.dropPrefix?]
  | remainder _ _ => simp [dimensionOf, text, List.dropPrefix?]

end IndexExpr.Recovers

/-- A definition whose line can be read. -/
def IndexDefinition.Legible : IndexDefinition → Prop
  | ofGlobal _ => True
  | ofMerged _ value => value.Recovers

/-- Reading the line of a definition does what the definition does. -/
theorem IndexDefinition.Legible.runLine_text {d : IndexDefinition} (h : d.Legible)
    (item : List Nat) (names : Names) : runLine item names d.text = d.run item names := by
  cases d with
  | ofGlobal k =>
    have hline : (ofGlobal k).text = "  int " ++ globalName k ++ " = " ++
        ("get_global_id(" ++ toString k ++ ")") ++ ";" := by
      rw [← String.toList_inj]
      simp [IndexDefinition.text, toString]
    rw [hline, runLine_eq (definitionOf_line (isIdentifier_globalName k).word _), valueForItem,
      dimensionOf_global]
    rfl
  | ofMerged axis value =>
    have hline : (ofMerged axis value).text =
        "  int " ++ mergedName axis ++ " = " ++ value.text ++ ";" := by
      rw [← String.toList_inj]
      simp [IndexDefinition.text, toString]
    rw [hline, runLine_eq (definitionOf_line (isIdentifier_mergedName axis).word _), valueForItem,
      h.dimensionOf_text, h.valueOfText_eq, run]
    cases value.eval names <;> rfl

/-- Reading lines one behind the other does what the definitions do. -/
theorem foldlM_runLine {definitions : List IndexDefinition} (h : ∀ d ∈ definitions, d.Legible)
    (item : List Nat) (names : Names) :
    (definitions.map IndexDefinition.text).foldlM (runLine item) names =
      definitions.foldlM (IndexDefinition.run item) names := by
  induction definitions generalizing names with
  | nil => rfl
  | cons d ds ih =>
    rw [List.map_cons, List.foldlM_cons, List.foldlM_cons,
      (h d List.mem_cons_self).runLine_text]
    exact congrArg _ (funext fun names => ih (fun d hd => h d (List.mem_cons_of_mem _ hd)) names)

/-! ## Grids -/

namespace Grid

variable {sizes : List Nat} {grid : Grid}

/-- The values that some expressions have behind some lines, for a work item. -/
def decode (lines expressions : List String) (item : List Nat) : Option (List Int) := do
  let names ← lines.foldlM (runLine item) .none
  expressions.mapM (valueOfText names)

theorem recovers_mergedPart {span : Nat} (h : 0 < span) : (mergedPart span).Recovers := by
  unfold mergedPart
  split
  · exact .identity
  · exact .quotient .identity h

theorem recovers_mergedValue {leading : List Nat} (hp : ∀ d ∈ leading, 0 < d) (i : Nat) {size : Nat}
    (hsize : 0 < size) : (mergedValue leading i size).Recovers := by
  have hpart := recovers_mergedPart (Shape.prod_pos fun d (hd : d ∈ leading.drop (i + 1)) =>
    hp d (List.mem_of_mem_drop hd))
  unfold mergedValue
  split
  · exact hpart
  · exact .remainder hpart hsize

/-- The definitions of a grid can be read from their lines. -/
theorem legible_ofSizes (hp : ∀ d ∈ sizes, 0 < d) (h : ofSizes sizes = .ok grid) :
    ∀ d ∈ grid.definitions, d.Legible := by
  rcases ofSizes_eq_ok h with ⟨-, rfl⟩ | ⟨-, -, rfl⟩ | ⟨-, leading, y, z, rfl, -, h⟩
  · exact List.forall_mem_nil _
  · intro d hd
    obtain ⟨k, -, rfl⟩ := List.mem_map.mp hd
    trivial
  · obtain ⟨parts, hparts, rfl⟩ := merged_eq_ok h
    have hmerged : ∀ d ∈ parts, d.Legible := by
      intro d hd
      obtain ⟨⟨size, i⟩, hi, hd⟩ := exists_of_forall₂_right (mapM_eq_ok hparts) hd
      obtain rfl := (mergedAxis_yields leading i size).eq_of_ok hd
      have hp : ∀ d ∈ leading, 0 < d := fun d hd => hp d (List.mem_append_left _ hd)
      exact recovers_mergedValue hp i (hp size (List.fst_mem_of_mem_zipIdx hi))
    intro d hd
    simp only [List.cons_append, List.mem_cons, List.mem_append, List.not_mem_nil, or_false] at hd
    rcases hd with rfl | hd | rfl | rfl
    · trivial
    · exact hmerged d hd
    · trivial
    · trivial

/-- There is a name for each axis, and each of them has its value. -/
theorem names_ofSizes (h : ofSizes sizes = .ok grid) :
    grid.names.length = sizes.length ∧
      ∀ e ∈ grid.names, ∀ names, valueOfText names e.text = e.eval names := by
  have hglobal : ∀ k names, valueOfText names (IndexExpr.name (globalName k)).text =
      (IndexExpr.name (globalName k)).eval names := fun k =>
    (isIdentifier_globalName k).valueOfText_eq
  rcases ofSizes_eq_ok h with ⟨rfl, rfl⟩ | ⟨-, -, rfl⟩ | ⟨-, leading, y, z, rfl, -, h⟩
  · exact ⟨rfl, List.forall_mem_nil _⟩
  · refine ⟨by simp [separate], fun e he => ?_⟩
    obtain ⟨k, -, rfl⟩ := List.mem_map.mp he
    exact hglobal k
  · obtain ⟨parts, -, rfl⟩ := merged_eq_ok h
    refine ⟨by simp, fun e he => ?_⟩
    simp only [List.mem_append, List.mem_map, List.mem_cons, List.not_mem_nil, or_false] at he
    rcases he with ⟨i, -, rfl⟩ | rfl | rfl
    · exact (isIdentifier_mergedName i).valueOfText_eq
    · exact hglobal 1
    · exact hglobal 2

/-- A work item decodes to the index that it stands for. -/
theorem decode_eq (hp : ∀ d ∈ sizes, 0 < d) (h : ofSizes sizes = .ok grid) {item : List Nat}
    (hitem : InRange item grid.globalSize) :
    decode (grid.definitions.map IndexDefinition.text) (grid.names.map IndexExpr.text) item =
      some ((indexOf sizes item).map fun i : Nat => (i : Int)) := by
  obtain ⟨names, hrun, hstand⟩ := stand_names hp h hitem
  have hlines : (grid.definitions.map IndexDefinition.text).foldlM (runLine item) .none =
      some names := by
    rw [foldlM_runLine (legible_ofSizes hp h), hrun]
  have hvalues : List.Forall₂ (fun e (i : Nat) => valueOfText names e = some (i : Int))
      (grid.names.map IndexExpr.text) (indexOf sizes item) := by
    refine List.forall₂_map_left_iff.mpr (forall₂_imp_mem hstand fun e he i hi => ?_)
    rw [(names_ofSizes h).2 e he, hi]
  rw [decode, hlines]
  exact mapM_eq_some hvalues

theorem bijOn_of_map_eq {α β : Type} {f : α → β} {xs : List α} {ys : List β} (h : xs.map f = ys)
    (hnodup : ys.Nodup) : Set.BijOn f {x | x ∈ xs} {y | y ∈ ys} := by
  subst h
  refine ⟨fun x hx => List.mem_map_of_mem hx, fun x hx y hy e => ?_, fun y hy => ?_⟩
  · exact List.inj_on_of_nodup_map hnodup hx hy e
  · exact List.mem_map.mp hy

/-- Axes of positive sizes, with as many indices as a machine word holds, have a grid of at most
three dimensions, none of them empty, and an expression for each axis. Behind the lines of the grid
the expressions decode each work item to an index, and each index from one work item. -/
theorem decode_bijOn {sizes : List Nat} (hp : ∀ d ∈ sizes, 0 < d)
    (hfits : sizes.prod < Word.bound) :
    ∃ grid, ofSizes sizes = .ok grid ∧ grid.names.length = sizes.length ∧
      grid.globalSize.length ≤ 3 ∧ (∀ d ∈ grid.globalSize, 0 < d) ∧
      Set.BijOn
        (decode (grid.definitions.map IndexDefinition.text) (grid.names.map IndexExpr.text))
        {item | InRange item grid.globalSize}
        ((fun idx => some (idx.map fun i : Nat => (i : Int))) '' {idx | InRange idx sizes}) := by
  obtain ⟨grid, h, -⟩ := (ofSizes_meets hp).exists_ok fun _ he => Nat.not_le.mpr hfits he.2
  obtain ⟨hlength, hpositive, -⟩ := prod_globalSize hp h
  refine ⟨grid, h, (names_ofSizes h).1, hlength, hpositive, ?_⟩
  have hindices : Set.BijOn (indexOf sizes) {item | InRange item grid.globalSize}
      {idx | InRange idx sizes} := by
    simpa only [Shape.mem_indices] using
      bijOn_of_map_eq (map_indexOf h) (Shape.nodup_indices sizes)
  have hvalues : Function.Injective
      fun idx : List Nat => some (idx.map fun i : Nat => (i : Int)) :=
    (Option.some_injective _).comp (List.map_injective_iff.mpr fun _ _ => Int.ofNat.inj)
  exact ((hvalues.injOn.bijOn_image).comp hindices).congr fun item hitem =>
    (decode_eq hp h hitem).symm

/-- The lines for axes of sizes 2, 1, 3, 4 and 5. -/
def fiveAxesLines : List String :=
  ["  int gidx0 = get_global_id(0);", "  int idx0 = (gidx0/3);", "  int idx1 = ((gidx0/3)%1);",
    "  int idx2 = (gidx0%3);", "  int gidx1 = get_global_id(1);", "  int gidx2 = get_global_id(2);"]

/-- The names of these axes. -/
def fiveAxesNames : List String := ["idx0", "idx1", "idx2", "gidx1", "gidx2"]

theorem decode_bijOn_fiveAxes :
    (∀ d ∈ [2, 1, 3, 4, 5], 0 < d) ∧ [2, 1, 3, 4, 5].prod < Word.bound ∧
      ∃ grid, ofSizes [2, 1, 3, 4, 5] = .ok grid ∧ grid.globalSize = [6, 4, 5] ∧
        grid.definitions.map IndexDefinition.text = fiveAxesLines ∧
        grid.names.map IndexExpr.text = fiveAxesNames ∧
        decode fiveAxesLines fiveAxesNames [5, 3, 4] = some [1, 0, 2, 3, 4] ∧
        Set.BijOn (decode fiveAxesLines fiveAxesNames) {item | InRange item [6, 4, 5]}
          ((fun idx => some (idx.map fun i : Nat => (i : Int))) ''
            {idx | InRange idx [2, 1, 3, 4, 5]}) := by
  have hp : ∀ d ∈ [2, 1, 3, 4, 5], 0 < d := by decide
  have hfits : [2, 1, 3, 4, 5].prod < Word.bound := by decide
  obtain ⟨grid, h, -, -, -, hdecode⟩ := decode_bijOn hp hfits
  obtain ⟨hsize, hlines, hnames⟩ : grid.globalSize = [6, 4, 5] ∧
      grid.definitions.map IndexDefinition.text = fiveAxesLines ∧
      grid.names.map IndexExpr.text = fiveAxesNames := by
    obtain rfl := Except.ok.inj ((show ofSizes [2, 1, 3, 4, 5] = .ok _ from rfl).symm.trans h)
    exact ⟨rfl, by cbv, by cbv⟩
  rw [hsize, hlines, hnames] at hdecode
  exact ⟨hp, hfits, grid, h, hsize, hlines, hnames, by decide +kernel, hdecode⟩

end Grid

end TensorLoom
