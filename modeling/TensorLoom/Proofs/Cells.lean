import Mathlib.Data.List.Nodup

/-!
# Arrays that are changed one cell at a time

A fold that changes one cell in each step is looked at cell by cell: what a cell holds in the end is
the fold of the steps that change it (`getElem?_foldCells`). A cell that only one step changes
holds what that step makes of it (`getElem?_foldCells_of_unique`).
-/

namespace TensorLoom.Cells

variable {ι α : Type} (cell : ι → Nat) (step : ι → α → α)

/-- Apply a step to a cell for each element of a list. -/
def foldCells (xs : List ι) (init : Array α) : Array α :=
  xs.foldl (fun acc x => acc.modify (cell x) (step x)) init

variable {cell step}

@[simp] theorem foldCells_nil (init : Array α) : foldCells cell step [] init = init := rfl

@[simp] theorem foldCells_cons (x : ι) (xs : List ι) (init : Array α) :
    foldCells cell step (x :: xs) init =
      foldCells cell step xs (init.modify (cell x) (step x)) := rfl

theorem foldCells_append (xs ys : List ι) (init : Array α) :
    foldCells cell step (xs ++ ys) init = foldCells cell step ys (foldCells cell step xs init) :=
  List.foldl_append

@[simp] theorem size_foldCells (xs : List ι) (init : Array α) :
    (foldCells cell step xs init).size = init.size := by
  induction xs generalizing init with
  | nil => rfl
  | cons x xs ih => rw [foldCells_cons, ih, Array.size_modify]

/-- A cell is changed by the steps for it, in their order. -/
theorem getElem?_foldCells (xs : List ι) (init : Array α) (i : Nat) :
    (foldCells cell step xs init)[i]? =
      init[i]?.map fun v => (xs.filter (cell · = i)).foldl (fun v x => step x v) v := by
  induction xs generalizing init with
  | nil => simp
  | cons x xs ih =>
    rw [foldCells_cons, ih, Array.getElem?_modify]
    by_cases h : cell x = i
    · rw [if_pos h, List.filter_cons_of_pos (by simpa using h), Option.map_map]
      rfl
    · rw [if_neg h, List.filter_cons_of_neg (by simpa using h)]

theorem filter_eq_singleton {xs : List ι} (hn : xs.Nodup) {p : ι → Bool} {x : ι} (hx : x ∈ xs)
    (hp : ∀ y ∈ xs, p y = true ↔ y = x) : xs.filter p = [x] := by
  induction xs with
  | nil => cases hx
  | cons y ys ih =>
    obtain ⟨hy, hys⟩ := List.nodup_cons.mp hn
    by_cases hyx : y = x
    · subst hyx
      rw [List.filter_cons_of_pos ((hp y List.mem_cons_self).mpr rfl), List.filter_eq_nil_iff.mpr]
      intro z hz hpz
      exact hy ((hp z (List.mem_cons_of_mem _ hz)).mp hpz ▸ hz)
    · rw [List.filter_cons_of_neg fun h => hyx ((hp y List.mem_cons_self).mp h)]
      exact ih hys ((List.mem_cons.mp hx).resolve_left (Ne.symm hyx))
        fun z hz => hp z (List.mem_cons_of_mem _ hz)

/-- A cell that one step alone is for. -/
theorem getElem?_foldCells_of_unique {xs : List ι} (hn : xs.Nodup) {x : ι} (hx : x ∈ xs)
    (hcell : ∀ y ∈ xs, cell y = cell x → y = x) (init : Array α) :
    (foldCells cell step xs init)[cell x]? = init[cell x]?.map (step x) := by
  rw [getElem?_foldCells, filter_eq_singleton hn hx fun y hy => ?_]
  · rfl
  · rw [decide_eq_true_iff]
    exact ⟨hcell y hy, fun h => h ▸ rfl⟩

end TensorLoom.Cells
