import TensorLoom.Proofs.Kernel.Direct
import TensorLoom.Proofs.Single
import TensorLoom.Tuning.Comparison

/-!
# What the check of a tuned kernel accepts

A tuned kernel should pass its check only if each element of its output matches that of the
reference: both are not numbers, or they are equal, or they are finite and no further apart than the
tolerance allows. The check measures distances without asking whether they are finite.

* `isClose_iff`: two values are close if they match, or if the allowance is infinite and one of
  them, both being numbers, is infinite as well. A distance is within an infinite allowance whatever
  the values are.
* `check_eq_ok_iff`: the check accepts exactly the outputs of the right size that are close at every
  position. Wherever the allowance is finite they match.
* `not_forall_matches`: with the standard tolerance the check accepts 0 in place of infinity, which
  two orders of summation lead to.
-/

namespace TensorLoom

open Single (IsInfinity)

namespace Checker

variable {tolerance actual expected : Float32}

/-- How far a value may be from the expected one. -/
def allowance (tolerance expected : Float32) : Float32 := tolerance * larger expected.abs 1

/-- Neither value is a number, or they are equal, or they are finite and close to each other. -/
def Matches (tolerance actual expected : Float32) : Prop :=
  (actual.isNaN ∧ expected.isNaN) ∨ (actual == expected) = true ∨
    (actual.isFinite ∧ expected.isFinite) ∧
      (actual - expected).abs ≤ allowance tolerance expected

/-- One of two numbers is infinite, and so is the allowance that they are measured with. -/
def Unmeasured (tolerance actual expected : Float32) : Prop :=
  IsInfinity (allowance tolerance expected) ∧ (actual.isNaN = false ∧ expected.isNaN = false) ∧
    (actual.isInf ∨ expected.isInf)

instance : Decidable (Matches tolerance actual expected) := inferInstanceAs (Decidable (_ ∨ _))

instance : Decidable (Unmeasured tolerance actual expected) := inferInstanceAs (Decidable (_ ∧ _))

/-- An infinite value is matched by itself alone. -/
theorem Matches.beq_of_isInf (h : Matches tolerance actual expected) (he : expected.isInf = true) :
    (actual == expected) = true := by
  rcases h with ⟨-, hnan⟩ | heq | ⟨⟨-, hfinite⟩, -⟩
  · rw [Single.isNaN_eq_false_of_isInf he] at hnan
    cases hnan
  · exact heq
  · rw [Single.isFinite_eq, he, Bool.not_true, Bool.and_false] at hfinite
    cases hfinite

theorem isClose_iff : isClose tolerance actual expected = true ↔
    Matches tolerance actual expected ∨ Unmeasured tolerance actual expected := by
  have hclose : isClose tolerance actual expected = true ↔
      (actual.isNaN ∧ expected.isNaN) ∨ (actual == expected) = true ∨
        (actual - expected).abs ≤ allowance tolerance expected := by
    simp only [isClose, allowance, Bool.or_eq_true, Bool.and_eq_true, decide_eq_true_eq, or_assoc]
  rw [hclose]
  constructor
  · rintro (hnan | heq | hle)
    · exact .inl (.inl hnan)
    · exact .inl (.inr (.inl heq))
    · by_cases hfinite : actual.isFinite ∧ expected.isFinite
      · exact .inl (.inr (.inr ⟨hfinite, hle⟩))
      · have hinf : IsInfinity (allowance tolerance expected) := by
          by_contra hinf
          exact hfinite (Single.isFinite_of_abs_sub_le hle hinf)
        obtain ⟨ha, he⟩ := Single.isNaN_of_abs_sub_le hle
        refine .inr ⟨hinf, ⟨ha, he⟩, ?_⟩
        rw [Single.isFinite_eq, Single.isFinite_eq, ha, he] at hfinite
        revert hfinite
        cases actual.isInf <;> cases expected.isInf <;> decide
  · rintro ((hnan | heq | hfinite) | ⟨hinf, ⟨ha, he⟩, -⟩)
    · exact .inl hnan
    · exact .inr (.inl heq)
    · exact .inr (.inr hfinite.2)
    · by_cases heq : (actual == expected) = true
      · exact .inr (.inl heq)
      · exact .inr (.inr
          (Single.abs_sub_le_of_isInfinity ha he (Bool.eq_false_iff.mpr heq) hinf))

/-- No position is named if the values are close at every one that both outputs have. -/
theorem firstMismatch_eq_none_iff {xs ys : List Float32} :
    firstMismatch tolerance xs ys = none ↔
      ∀ (i : Nat) (a e : Float32), xs[i]? = some a → ys[i]? = some e →
        isClose tolerance a e = true := by
  unfold firstMismatch
  rw [Option.map_eq_none_iff, List.find?_eq_none]
  constructor
  · intro h i a e ha he
    have hmem : ((a, e), i) ∈ (xs.zip ys).zipIdx := by
      rw [List.mk_mem_zipIdx_iff_getElem?, List.getElem?_zip_eq_some]
      exact ⟨ha, he⟩
    simpa using h _ hmem
  · rintro h ⟨⟨a, e⟩, i⟩ hmem
    rw [List.mk_mem_zipIdx_iff_getElem?, List.getElem?_zip_eq_some] at hmem
    simpa using h i a e hmem.1 hmem.2

section Check

variable {τ : Type} {d : Device τ} {ast : Ast} {k reference : Kernel}
  {data : List (Array Float32)} {got wanted : Array Float32}

/-- What is left of a check once both kernels have been evaluated. -/
theorem check_eq (hdata : List.Forall₂ (fun o xs => d.read o.buffer = .ok xs) k.inputs data)
    (hreference : Kernel.ofAst ast k.output.buffer = .ok reference)
    (hwanted : reference.evaluate data = .ok wanted) (hgot : k.evaluate data = .ok got) :
    (comparing tolerance).check d ast k =
      if got.size ≠ wanted.size then
        (liftM k.name : Attempt CheckError String) >>= fun name => refuse (.outputSize name)
      else match firstMismatch tolerance got.toList wanted.toList with
        | some (i, a, e) =>
          (liftM k.name : Attempt CheckError String) >>= fun name => refuse (.mismatch name i a e)
        | none => pure () := by
  have hread : k.inputs.mapM (fun o => (d.read o.buffer).mapError (Stop.mapRefusal .unreadable)) =
      (.ok data : Attempt CheckError _) :=
    mapM_eq_ok_of_forall₂ (hdata.imp fun o xs h => mapError_eq_ok.mpr h)
  unfold check compare
  rw [hread, hreference]
  show ((reference.evaluate data).mapError _ >>= _ : Attempt CheckError Unit) = _
  rw [hwanted, hgot]
  rfl

/-- The check of a tuned kernel accepts its output if and only if that has the size of the expected
output and every element matches the expected one, but for infinities among elements whose allowance
is infinite. -/
theorem check_eq_ok_iff (hdata : List.Forall₂ (fun o xs => d.read o.buffer = .ok xs) k.inputs data)
    (hreference : Kernel.ofAst ast k.output.buffer = .ok reference)
    (hwanted : reference.evaluate data = .ok wanted) (hgot : k.evaluate data = .ok got) :
    (comparing tolerance).check d ast k = .ok () ↔
      got.size = wanted.size ∧ ∀ (i : Nat) (a e : Float32), got[i]? = some a → wanted[i]? = some e →
        Matches tolerance a e ∨ Unmeasured tolerance a e := by
  have hclose : (∀ (i : Nat) (a e : Float32), got[i]? = some a → wanted[i]? = some e →
        Matches tolerance a e ∨ Unmeasured tolerance a e) ↔
      firstMismatch tolerance got.toList wanted.toList = none := by
    simp only [firstMismatch_eq_none_iff, Array.getElem?_toList, isClose_iff]
  have hrefused (f : String → CheckError) :
      (liftM k.name : Attempt CheckError String) >>= (fun name => refuse (f name)) ≠ .ok () := by
    intro h
    obtain ⟨name, -, h⟩ := bind_eq_ok.mp h
    cases h
  rw [hclose, check_eq hdata hreference hwanted hgot]
  by_cases hsize : got.size = wanted.size
  · rw [if_neg (not_not_intro hsize)]
    cases firstMismatch tolerance got.toList wanted.toList with
    | none => exact ⟨fun _ => ⟨hsize, rfl⟩, fun _ => rfl⟩
    | some m => exact ⟨fun h => absurd h (hrefused _), fun h => by cases h.2⟩
  · rw [if_pos hsize]
    exact ⟨fun h => absurd h (hrefused _), fun h => absurd h.1 hsize⟩

end Check

/-! ## Two orders of summation -/

/-- The sum of a matrix. -/
def matrixSum : Ast := .node 0 (.reduce .sum [1, 1]) [.leaf ⟨⟨0, 4⟩, ⟨.row [2, 2], []⟩⟩]

/-- A kernel for it that reads the matrix through a view of two reduced axes. -/
def matrixSumThrough (view : View) : Kernel :=
  ⟨.node 0 (.reduce .sum [1, 1]) [.leaf 1], ⟨⟨1, 1⟩, ⟨.row [1, 1], []⟩⟩, [⟨⟨0, 4⟩, ⟨view, []⟩⟩], 0⟩

/-- The kernel that adds row by row, which is the one that the tree is lowered to. -/
def rowByRow : Kernel := matrixSumThrough (.row [2, 2])

/-- The kernel that adds column by column, with the two axes of the other exchanged. -/
def columnByColumn : Kernel := matrixSumThrough ((View.row [2, 2]).permute [1, 0])

example : rowByRow.after (Kernel.intervene (.swap 0 1)) = .ok columnByColumn := rfl

theorem ofAst_matrixSum : Kernel.ofAst matrixSum ⟨1, 1⟩ = .ok rowByRow :=
  (Kernel.ofAst_single rfl _ _ _).trans rfl

theorem reduced?_matrixSumThrough (view : View) :
    (matrixSumThrough view).reduced? = some (.sum, .leaf 1) := by
  simp only [Kernel.reduced?, matrixSumThrough, OpTree.find?, OpTree.nodes, OpTree.walk_single]
  rfl

/-- A device that holds the matrix. -/
def deviceWith (matrix : Array Float32) : Device Unit :=
  { Device.new .sourceLength (fun _ => false) () with
    memory := (∅ : Std.HashMap BufferId Slot).insert 0 ⟨4, some matrix⟩ }

theorem read_deviceWith (matrix : Array Float32) :
    (deviceWith matrix).read ⟨0, 4⟩ = .ok matrix := by
  simp [Device.read, Device.readExactly, Device.slot, deviceWith, memoryFor, Word.table, Word.half,
    Slot.contents]
  rfl

/-- Both orders of summation lead to 10, which the check accepts. -/
theorem check_columnByColumn :
    (comparing standardTolerance).check (deviceWith #[1, 2, 3, 4]) matrixSum columnByColumn =
      .ok () := by
  have hwanted : rowByRow.evaluate [#[1, 2, 3, 4]] = .ok #[10] := by
    simp only [Kernel.evaluate, rowByRow, reduced?_matrixSumThrough]
    decide +kernel
  have hgot : columnByColumn.evaluate [#[1, 2, 3, 4]] = .ok #[10] := by
    simp only [Kernel.evaluate, columnByColumn, reduced?_matrixSumThrough]
    decide +kernel
  have hdata : List.Forall₂ (fun o xs => (deviceWith #[1, 2, 3, 4]).read o.buffer = .ok xs)
      columnByColumn.inputs [#[1, 2, 3, 4]] := .cons (read_deviceWith _) .nil
  refine (check_eq_ok_iff hdata ofAst_matrixSum hwanted hgot).mpr
    ⟨rfl, fun i a e ha he => .inl ?_⟩
  obtain rfl : a = e := Option.some.inj (ha.symm.trans he)
  cases i with
  | zero =>
    obtain rfl : 10 = a := Option.some.inj ha
    decide +kernel
  | succ i => cases ha

/-- Half of the range of numbers, twice with each sign: the rows add up to infinity, and the columns
cancel each other. -/
def halvesOfRange : Array Float32 :=
  #[.ofBits 0x7f000000, .ofBits 0x7f000000, .ofBits 0xff000000, .ofBits 0xff000000]

/-- A check with a finite tolerance can accept a value that does not match. The column sums of the
matrix make 0, where infinity is expected. -/
theorem not_forall_matches :
    ¬ ∀ (d : Device Unit) tolerance ast k reference data got wanted,
      tolerance.isFinite → 0 ≤ tolerance →
      List.Forall₂ (fun o xs => d.read o.buffer = .ok xs) (Kernel.inputs k) data →
      Kernel.ofAst ast k.output.buffer = .ok reference → reference.evaluate data = .ok wanted →
      k.evaluate data = .ok got → (comparing tolerance).check d ast k = .ok () →
        ∀ (i : Nat) (a e : Float32), got[i]? = some a → wanted[i]? = some e →
          Matches tolerance a e := by
  intro h
  have hwanted : rowByRow.evaluate [halvesOfRange] = .ok #[.ofBits 0x7f800000] := by
    simp only [Kernel.evaluate, rowByRow, reduced?_matrixSumThrough]
    decide +kernel
  have hgot : columnByColumn.evaluate [halvesOfRange] = .ok #[0] := by
    simp only [Kernel.evaluate, columnByColumn, reduced?_matrixSumThrough]
    decide +kernel
  have hdata : List.Forall₂ (fun o xs => (deviceWith halvesOfRange).read o.buffer = .ok xs)
      columnByColumn.inputs [halvesOfRange] := .cons (read_deviceWith _) .nil
  have hcheck : (comparing standardTolerance).check (deviceWith halvesOfRange) matrixSum
      columnByColumn = .ok () := by
    have hclose : firstMismatch standardTolerance [0] [.ofBits 0x7f800000] = none := by
      decide +kernel
    rw [check_eq hdata ofAst_matrixSum hwanted hgot, if_neg (by decide), hclose]
    rfl
  exact absurd (h _ _ _ _ _ _ _ _ (by decide +kernel) (by decide +kernel) hdata ofAst_matrixSum
    hwanted hgot hcheck 0 0 (.ofBits 0x7f800000) rfl rfl) (by decide +kernel)

end Checker

end TensorLoom
