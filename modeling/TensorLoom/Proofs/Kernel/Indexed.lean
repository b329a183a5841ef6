import TensorLoom.Proofs.Kernel.Arrangement
import TensorLoom.Proofs.Kernel.Evaluate

/-!
# Evaluations that do not overflow

The only numbers that an evaluation computes are the positions of indices in the operands. If none
of them overflows (`Kernel.Indexed`), the evaluation does not either
(`Kernel.Grounded.evaluate_ne_overflow`).
-/

namespace TensorLoom

open Shape (InRange indices)

/-- A computation does not overflow. -/
def NoOverflow {α : Type} (x : Checked α) : Prop := x ≠ .error .overflow

instance {α : Type} (x : Checked α) : Decidable (NoOverflow x) :=
  match x with
  | .ok _ => isTrue nofun
  | .error e => decidable_of_iff (e ≠ .overflow) (by simp [NoOverflow])

namespace NoOverflow

variable {α β : Type} {x : Checked α}

theorem pure (a : α) : NoOverflow (Pure.pure a : Checked α) := nofun

theorem bind {f : α → Checked β} (hx : NoOverflow x) (hf : ∀ a, x = .ok a → NoOverflow (f a)) :
    NoOverflow (x >>= f) := by
  cases x with
  | ok a => exact hf a rfl
  | error e => exact fun he => hx (congrArg Except.error (Except.error.inj he))

theorem foldlM {f : β → α → Checked β} {xs : List α} (h : ∀ b, ∀ a ∈ xs, NoOverflow (f b a))
    (b : β) : NoOverflow (xs.foldlM f b) := by
  induction xs generalizing b with
  | nil => exact .pure b
  | cons x xs ih =>
    rw [List.foldlM_cons]
    exact .bind (h b x List.mem_cons_self) fun c _ => ih (fun b a ha =>
      h b a (List.mem_cons_of_mem _ ha)) c

/-- What a computation yields, unless it overflows, is its value. -/
theorem eq_of_yields {a : α} (h : NoOverflow x) (hx : Yields x a) : x = .ok a := hx.resolve_right h

end NoOverflow

namespace Kernel

variable {k : Kernel} {data : List (Array Float32)}

/-- At no index of the iteration space the position in an operand overflows. -/
def Indexed (k : Kernel) : Prop :=
  ∀ o ∈ k.operands, ∀ idx, InRange idx k.space →
    NoOverflow (o.tracker.index (broadcastIndex idx o.shape))

theorem noOverflow_entry {α : Type} (xs : List α) (i : Nat) : NoOverflow (entry xs i) := by
  unfold entry
  split <;> exact nofun

theorem noOverflow_update (xs : Array Float32) (i : Nat) {f : Float32 → Checked Float32}
    (hf : ∀ x, NoOverflow (f x)) : NoOverflow (update xs i f) := by
  unfold update
  split
  · exact .bind (hf _) fun _ _ => .pure _
  · exact nofun

/-- An input is read at a position that does not overflow. Inputs are numbered from 1. -/
theorem Indexed.load (h : k.Indexed) (data : List (Array Float32)) {idx : List Nat}
    (hi : InRange idx k.space) {number : Nat} (hn : 1 ≤ number) :
    NoOverflow (k.load data idx number) := by
  have hnumber : Word.sub number 1 = .ok (number - 1) := Word.sub_eq_ok.mpr ⟨hn, rfl⟩
  refine .bind (noOverflow_entry _ _) fun o ho => ?_
  refine .bind (hnumber ▸ nofun) fun n _ => .bind (noOverflow_entry _ _) fun xs _ => ?_
  refine .bind (h o (List.mem_of_getElem? (entry_eq_ok.mp ho)) idx hi) fun position _ => ?_
  cases position <;> exact nofun

theorem Indexed.valueOf (h : k.Indexed) (data : List (Array Float32)) {idx : List Nat}
    (hi : InRange idx k.space) (reduced : Float32) {t : OpTree Nat} {count : Nat}
    (ht : t.Lowered count) : NoOverflow (valueOf (k.load data idx) reduced t) := by
  induction ht with
  | leaf hn _ => exact h.load data hi hn
  | unary _ ih =>
    rw [Kernel.valueOf]
    exact .bind ih fun _ _ => .pure _
  | binary _ _ iha ihb =>
    rw [Kernel.valueOf]
    exact .bind iha fun _ _ => .bind ihb fun _ _ => .pure _
  | reduce _ _ =>
    rw [Kernel.valueOf]
    · exact .pure reduced
    all_goals simp

theorem Indexed.project (h : k.Indexed) {idx : List Nat} (hi : InRange idx k.space) :
    NoOverflow (k.output.tracker.index (broadcastIndex idx k.output.shape)) :=
  h _ (mem_output k) idx hi

theorem Indexed.accumulate (h : k.Indexed) (data : List (Array Float32)) (op : Reduction)
    {operand : OpTree Nat} {count : Nat} (ho : operand.Lowered count) :
    NoOverflow (k.accumulate data op operand) := by
  refine .foldlM (fun acc idx hidx => ?_) _
  have hi := Shape.mem_indices.mp hidx
  refine .bind (h.valueOf data hi 0 ho) fun value _ => .bind (h.project hi) fun position _ => ?_
  cases position with
  | none => exact .pure acc
  | some o => exact noOverflow_update acc o fun x => .pure _

/-- The output is written at indices of the iteration space. -/
theorem Indexed.writeOutput (h : k.Indexed) (hk : k.Grounded) (data : List (Array Float32))
    (acc : Option (Array Float32)) : NoOverflow (k.writeOutput data acc) := by
  refine .foldlM (fun out idx hidx => ?_) _
  have hi := Shape.mem_indices.mp hidx
  have hspace := hk.sound.placed.inRange_space hi
  have hproject := h.project hspace
  rw [Broadcasts.index_of_inRange hi] at hproject
  refine .bind hproject fun position _ => ?_
  cases position with
  | none => exact .pure out
  | some o =>
    have hupdate : ∀ reduced, NoOverflow (update out o fun _ => Kernel.valueOf (k.load data idx)
        reduced k.ast) := fun reduced =>
      noOverflow_update out o fun _ => h.valueOf data hspace reduced hk.lowered
    cases acc with
    | none => exact hupdate 0
    | some acc =>
      dsimp only
      cases acc[o]? with
      | none => exact nofun
      | some x => exact hupdate x

/-- An evaluation does not overflow if no position does. -/
theorem Grounded.evaluate_ne_overflow (hk : k.Grounded) (h : k.Indexed)
    (data : List (Array Float32)) : k.evaluate data ≠ .error (.fault .overflow) := by
  have hlift : ∀ {α : Type} {x : Checked α}, NoOverflow x →
      (liftM x : Attempt KernelError α) ≠ .error (.fault .overflow) := by
    intro α x hx he
    cases x with
    | ok a => cases he
    | error e =>
      cases he
      exact hx rfl
  unfold evaluate
  cases k.checkData data with
  | error e => exact nofun
  | ok _ =>
    cases hr : k.reduced? with
    | none => exact hlift (h.writeOutput hk data none)
    | some reduced =>
      obtain ⟨op, operand⟩ := reduced
      have hacc := h.accumulate data op (hk.lowered.subtree (subtree_of_reduced? hr))
      dsimp only
      cases hx : k.accumulate data op operand with
      | ok acc => exact hlift (h.writeOutput hk data (some acc))
      | error e =>
        intro he
        cases he
        exact hacc hx

end Kernel

end TensorLoom
