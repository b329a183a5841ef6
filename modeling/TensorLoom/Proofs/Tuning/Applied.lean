import TensorLoom.Proofs.Tuning.Offers
import TensorLoom.Tuning.Search

/-!
# Interventions that have been applied

An intervention may be applied without having been offered. Whatever it is, each operand has been
moved to a layout of as many elements (`Kernel.carries_relayout`, `Kernel.carries_intervene`). So
the kernels that applied interventions lead to keep the shapes of a kernel in order, the numbers of
its inputs, and the elements that a signed word counts (`Ast.shaped_of_tuned` and the others).
-/

namespace TensorLoom

namespace Kernel

variable {k k' : Kernel}

/-! ## One change of the layout -/

theorem carries_moveOperands {movement : List Nat → Checked Movement}
    (hkeeps : ∀ shape m, movement shape = .ok m → m.Keeps)
    (h : k.moveOperands movement = .ok k') : k.Carries k' := by
  obtain ⟨-, -, hmoved⟩ := moveOperands_eq_ok h
  refine (k.moveOperands_meets fun o ho => ?_).of_ok h
  obtain ⟨_, -, m, t, hm, ht, -⟩ := exists_of_forall₂_left hmoved ho
  exact ⟨m, hm, hkeeps _ m hm, Tracker.valid_of_move (hkeeps _ m hm) ht⟩

/-- A change of the layout moves each operand to another layout of its elements. -/
theorem carries_relayout {reshape : Option (List Nat → Checked (List Nat))} {order : List Nat}
    (h : k.relayout reshape order = .ok k') : k.Carries k' := by
  obtain ⟨r, hr, -, -, h⟩ := relayout_eq_ok h
  have hreshaped : k.Carries r := by
    cases reshape with
    | none => exact pure_eq_ok.mp hr ▸ .refl k
    | some f =>
      refine carries_moveOperands (fun shape m hm => ?_) hr
      obtain ⟨target, -, hm⟩ := bind_eq_ok.mp hm
      exact pure_eq_ok.mp hm ▸ .reshape target
  refine hreshaped.trans ?_
  rcases h with ⟨-, rfl⟩ | h
  · exact .refl _
  · exact carries_moveOperands (fun _ m hm => pure_eq_ok.mp hm ▸ .permute _) h

/-- An intervention that has been applied is a change of the layout, and unrolls an axis if it is a
split. -/
theorem carries_intervene {i : Intervention} (h : k.after (Kernel.intervene i) = .ok k') :
    ∃ r, k.Carries r ∧ k' = { r with unrolled := k.unrolled + i.unrolls } := by
  cases i with
  | swap a b =>
    have hcarries := carries_relayout (swap_eq_ok h).2.2
    refine ⟨k', hcarries, ?_⟩
    rw [Intervention.unrolls, Nat.add_zero, ← hcarries.unrolled]
  | unroll axis amount =>
    obtain ⟨-, split, hsplit, -, rfl⟩ := unroll_eq_ok h
    have hcarries := carries_relayout hsplit
    refine ⟨split, hcarries, ?_⟩
    rw [Intervention.unrolls, hcarries.unrolled]

theorem Offered.buffers_eq {start : Kernel} (h : start.Offered k) : k.buffers = start.buffers := by
  induction h with
  | start => rfl
  | step _ _ _ hk ih =>
    obtain ⟨r, hr, rfl⟩ := carries_intervene hk
    exact hr.buffers_eq.trans ih

theorem Numbered.intervene {i : Intervention} (hk : k.Numbered)
    (h : k.after (Kernel.intervene i) = .ok k') : k'.Numbered := by
  obtain ⟨r, hr, rfl⟩ := carries_intervene h
  exact hr.numbered hk

theorem Counted.intervene {i : Intervention} (hk : k.Counted)
    (h : k.after (Kernel.intervene i) = .ok k') : k'.Counted := by
  obtain ⟨r, hr, rfl⟩ := carries_intervene h
  exact hr.counted hk

/-! ## Interventions in sequence -/

/-- What every intervention that is applied keeps is kept by all of them in sequence. -/
theorem after_interventions {P : Kernel → Prop}
    (hstep : ∀ {k k' : Kernel} {i : Intervention}, P k → k.after (Kernel.intervene i) = .ok k' →
      P k')
    {is : List Intervention} (hk : P k) (h : k.after (is.forM Kernel.intervene) = .ok k') :
    P k' := by
  induction is generalizing k with
  | nil =>
    obtain rfl : k = k' := Except.ok.inj h
    exact hk
  | cons i is ih =>
    rw [show (i :: is).forM Kernel.intervene =
      (Kernel.intervene i >>= fun _ => is.forM Kernel.intervene) from rfl, after_bind] at h
    obtain ⟨k₁, h₁, h⟩ := bind_eq_ok.mp h
    exact ih (hstep hk h₁) h

end Kernel

namespace Ast

variable {ast : Ast} {output : Buffer} {is : List Intervention} {k : Kernel}

/-- What holds of the kernel of a tree, and is kept by every intervention that is applied, holds of
every kernel that these lead to. -/
theorem tuned_induction {P : Kernel → Prop}
    (hstart : ∀ start, Kernel.ofAst ast output = .ok start → P start)
    (hstep : ∀ {k k' : Kernel} {i : Intervention}, P k → k.after (Kernel.intervene i) = .ok k' →
      P k')
    (h : ast.tuned output is = .ok k) : P k := by
  obtain ⟨start, hofAst, h⟩ := bind_eq_ok.mp h
  exact Kernel.after_interventions hstep (hstart start hofAst) h

theorem shaped_of_tuned (h : ast.tuned output is = .ok k) : k.Shaped :=
  tuned_induction (fun _ hstart => (Kernel.ordered_ofAst hstart).1) Kernel.Shaped.intervene h

theorem numbered_of_tuned (hw : ast.WellShared) (h : ast.tuned output is = .ok k) : k.Numbered :=
  tuned_induction (fun _ => Kernel.numbered_ofAst hw) Kernel.Numbered.intervene h

theorem counted_of_tuned (hleaves : ast.Counted) (hlen : output.len < Word.half)
    (h : ast.tuned output is = .ok k) : k.Counted := by
  refine tuned_induction (fun start hstart => ?_) Kernel.Counted.intervene h
  exact (Kernel.ofAst_meets (Kernel.resultSize_of_ofAst hstart)).of_ok hstart hleaves hlen

end Ast

end TensorLoom
