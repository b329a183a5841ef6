import Mathlib.Data.List.Basic
import Mathlib.Data.List.Induction

/-!
# Distinct members of a list

Repetitions leave a list in one of two ways. Equal members are left out (`FirstOccurrences`), or
members of equal keys are, of which the first one stays. What stays of a list that comes behind
others depends on the keys that were met in them (`distinctFrom`), and so a list can be gone through
piece by piece (`distinctFrom_append`).
-/

namespace TensorLoom

/-! ## Equal members -/

section FirstOccurrences

variable {α : Type} [DecidableEq α]

/-- The members of a list without repetitions, in the order in which they first occur. -/
structure FirstOccurrences (xs distinct : List α) : Prop where
  mem_iff : ∀ x, x ∈ distinct ↔ x ∈ xs
  order : distinct.Pairwise fun a b => xs.idxOf a < xs.idxOf b

theorem pairwise_idxOf_eraseDups (xs : List α) :
    xs.eraseDups.Pairwise fun a b => xs.idxOf a < xs.idxOf b := by
  induction xs using List.reverseRecOn with
  | nil => exact .nil
  | append_singleton xs x ih =>
    -- the members of the list occur where they did before the last one was added
    have hbefore : ∀ a ∈ xs.eraseDups, (xs ++ [x]).idxOf a = xs.idxOf a :=
      fun a ha => List.idxOf_append_of_mem (List.mem_eraseDups.mp ha)
    have hfirst : xs.eraseDups.Pairwise fun a b => (xs ++ [x]).idxOf a < (xs ++ [x]).idxOf b :=
      ih.imp_of_mem fun ha hb h => by rwa [hbefore _ ha, hbefore _ hb]
    have hlast : List.Sublist ([x].removeAll xs).eraseDups [x] := by
      by_cases hx : x ∈ xs <;> simp [List.removeAll, hx, List.eraseDups_cons]
    rw [List.eraseDups_append]
    refine List.pairwise_append.mpr
      ⟨hfirst, (List.pairwise_singleton _ x).sublist hlast, fun a ha b hb => ?_⟩
    obtain ⟨hb, hnot⟩ : b = x ∧ b ∉ xs := by
      simpa [List.removeAll] using List.mem_eraseDups.mp hb
    rw [hbefore a ha, List.idxOf_append_of_notMem hnot]
    exact Nat.lt_add_right _ (List.idxOf_lt_length_of_mem (List.mem_eraseDups.mp ha))

theorem firstOccurrences_eraseDups (xs : List α) : FirstOccurrences xs xs.eraseDups :=
  ⟨fun _ => List.mem_eraseDups, pairwise_idxOf_eraseDups xs⟩

end FirstOccurrences

/-! ## Members of equal keys -/

section Keys

variable {α κ : Type} [DecidableEq κ] {key : α → κ} {met : List κ}

/-- The members whose keys were not met before, of those with one key the first. -/
def distinctFrom (key : α → κ) (met : List κ) (xs : List α) : List α :=
  (xs.filter fun x => key x ∉ met).eraseDupsBy fun a b => decide (key a = key b)

theorem distinctFrom_nil (xs : List α) :
    distinctFrom key [] xs = xs.eraseDupsBy fun a b => decide (key a = key b) := by
  rw [distinctFrom, List.filter_eq_self.mpr (by simp)]

theorem distinctFrom_known {x : α} (h : key x ∈ met) (xs : List α) :
    distinctFrom key met (x :: xs) = distinctFrom key met xs := by
  rw [distinctFrom, List.filter_cons_of_neg (by simpa using h), distinctFrom]

theorem distinctFrom_new {x : α} (h : key x ∉ met) (xs : List α) :
    distinctFrom key met (x :: xs) = x :: distinctFrom key (met ++ [key x]) xs := by
  rw [distinctFrom, List.filter_cons_of_pos (by simpa using h), List.eraseDupsBy_cons,
    List.filter_filter, distinctFrom]
  congr 2
  refine List.filter_congr fun y _ => ?_
  simp [and_comm]

theorem distinctFrom_congr {met' : List κ} (h : ∀ k, k ∈ met ↔ k ∈ met') (xs : List α) :
    distinctFrom key met xs = distinctFrom key met' xs := by
  simp only [distinctFrom, h]

/-- Nothing is left of members whose keys were all met. -/
theorem distinctFrom_eq_nil {xs : List α} (h : ∀ x ∈ xs, key x ∈ met) :
    distinctFrom key met xs = [] := by
  induction xs with
  | nil => rfl
  | cons x xs ih =>
    rw [distinctFrom_known (h x List.mem_cons_self)]
    exact ih fun y hy => h y (List.mem_cons_of_mem _ hy)

theorem distinctFrom_append (xs ys : List α) :
    distinctFrom key met (xs ++ ys) =
      distinctFrom key met xs ++ distinctFrom key (met ++ xs.map key) ys := by
  induction xs generalizing met with
  | nil => simp [distinctFrom]
  | cons x xs ih =>
    rw [List.cons_append]
    by_cases hx : key x ∈ met
    · rw [distinctFrom_known hx, distinctFrom_known hx, ih]
      refine congrArg _ (distinctFrom_congr (fun k => ?_) ys)
      simp only [List.map_cons, List.mem_append, List.mem_cons]
      grind
    · rw [distinctFrom_new hx, distinctFrom_new hx, ih]
      simp

theorem mem_of_mem_distinctFrom {x : α} {xs : List α} (h : x ∈ distinctFrom key met xs) :
    x ∈ xs ∧ key x ∉ met := by
  induction xs generalizing met with
  | nil => cases h
  | cons y xs ih =>
    by_cases hy : key y ∈ met
    · rw [distinctFrom_known hy] at h
      exact ⟨List.mem_cons_of_mem _ (ih h).1, (ih h).2⟩
    · rw [distinctFrom_new hy, List.mem_cons] at h
      rcases h with rfl | h
      · exact ⟨List.mem_cons_self, hy⟩
      · exact ⟨List.mem_cons_of_mem _ (ih h).1,
          fun hmet => (ih h).2 (List.mem_append_left _ hmet)⟩

/-- All keys are met in the end. -/
theorem mem_keys_distinctFrom {k : κ} {xs : List α} :
    k ∈ met ++ (distinctFrom key met xs).map key ↔ k ∈ met ++ xs.map key := by
  induction xs generalizing met with
  | nil => rfl
  | cons x xs ih =>
    by_cases hx : key x ∈ met
    · rw [distinctFrom_known hx, ih, List.map_cons]
      simp only [List.mem_append, List.mem_cons]
      grind
    · rw [distinctFrom_new hx, List.map_cons, List.map_cons]
      simpa using @ih (met ++ [key x])

/-- Each key stays once. -/
theorem nodup_keys_distinctFrom (xs : List α) : ((distinctFrom key met xs).map key).Nodup := by
  induction xs generalizing met with
  | nil => exact .nil
  | cons x xs ih =>
    by_cases hx : key x ∈ met
    · rw [distinctFrom_known hx]
      exact ih
    · rw [distinctFrom_new hx, List.map_cons, List.nodup_cons]
      refine ⟨fun hmem => ?_, ih⟩
      obtain ⟨y, hy, hkey⟩ := List.mem_map.mp hmem
      exact (mem_of_mem_distinctFrom hy).2 (by simp [hkey])

end Keys

end TensorLoom
