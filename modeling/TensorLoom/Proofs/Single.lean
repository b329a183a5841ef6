import TensorLoom.Op

/-!
# Single-precision numbers

What becomes of infinities and of values that are not numbers in a difference, its magnitude and a
comparison with it. Numbers are looked at through their unpacked form, which says what kind of value
they are, and a result is one that has been rounded.

* `isFinite_of_abs_sub_le`: the distance of two values is within a bound other than infinity only if
  both are finite;
* `isNaN_of_abs_sub_le`: it is within no bound at all if one of them is not a number;
* `abs_sub_le_of_isInfinity`: it is within infinity for any two different numbers.
-/

namespace TensorLoom

open Float.Model (Format UnpackedFloat)

namespace Single

variable {a b x : Float32}

/-- The value that the bits of a number stand for. -/
def value (a : Float32) : UnpackedFloat := a.toModel.unpack

/-- The value of a result. -/
def rounded (y : UnpackedFloat) : UnpackedFloat := (Float32.Model.pack y).unpack

@[simp] theorem rounded_infinity (s) : rounded (.infinity s) = .infinity s := by
  cases s <;> rfl

@[simp] theorem rounded_notANumber : rounded .notANumber = .notANumber := rfl

theorem value_abs (a : Float32) : value a.abs = rounded (value a).abs := rfl

theorem value_sub (a b : Float32) : value (a - b) = rounded ((value a).sub .binary32 (value b)) :=
  rfl

theorem le_iff : a ≤ b ↔ (value a).le (value b) = true := by
  show decide ((value a).le (value b) = true) = true ↔ _
  rw [decide_eq_true_iff]

theorem lt_iff : a < b ↔ (value a).lt (value b) = true := by
  show decide ((value a).lt (value b) = true) = true ↔ _
  rw [decide_eq_true_iff]

/-- Every value is a finite number, an infinite one or not a number. -/
theorem isFinite_eq (a : Float32) : a.isFinite = (!a.isNaN && !a.isInf) := by
  show (value a).isFinite = (!(value a).isNaN && !(value a).isInf)
  cases value a <;> rfl

theorem isNaN_eq_false_of_isInf (h : a.isInf = true) : a.isNaN = false := by
  have h : (value a).isInf = true := h
  show (value a).isNaN = false
  cases hv : value a <;> rw [hv] at h <;> cases h
  rfl

/-- The number is positive infinity. -/
def IsInfinity (a : Float32) : Prop := a.isInf ∧ 0 < a

instance : Decidable (IsInfinity a) := inferInstanceAs (Decidable (_ ∧ _))

theorem isInfinity_iff : IsInfinity a ↔ value a = .infinity .positive := by
  have hzero : value 0 = .zero .positive := rfl
  unfold IsInfinity
  rw [lt_iff, hzero]
  show (value a).isInf = true ∧ _ ↔ _
  cases value a with
  | infinity s =>
    cases s with
    | positive => exact iff_of_true ⟨rfl, rfl⟩ rfl
    | negative =>
      refine ⟨fun h => ?_, fun h => ?_⟩
      · cases h.2
      · cases h
  | _ =>
    refine ⟨fun h => ?_, fun h => ?_⟩
    · cases h.1
    · cases h

/-! ## Results that are numbers -/

/-- Components whose exponent is not the largest one are those of a finite number. -/
theorem isFinite_unpack {s} {e : BitVec 8} {m : BitVec 23} (he : e ≠ -1#8) :
    (UnpackedFloat.unpack .binary32 (UnpackedFloat.packComponents .binary32 s e m)).isFinite := by
  have hexponent : UnpackedFloat.unpackExponent
      (UnpackedFloat.packComponents .binary32 s e m) ≠ -1#8 := by
    rwa [UnpackedFloat.unpackExponent_packComponents]
  unfold UnpackedFloat.unpack
  rw [if_neg hexponent]
  generalize UnpackedFloat.packComponents .binary32 s e m = bits
  by_cases hzero : UnpackedFloat.unpackExponent bits = 0#8
  · rw [if_pos hzero]
    by_cases hm : UnpackedFloat.unpackMantissa bits = 0#23
    · rw [dif_pos hm]
      rfl
    · rw [dif_neg hm]
      rfl
  · rw [if_neg hzero]
    rfl

/-- The exponent of a number written with the offset of its format. -/
def biased (e : Int) : Nat :=
  (e + Format.binary32.exponentBias + Format.binary32.mantissaBitsWithoutImplicit).toNat

theorem rounded_finite (s) (m : Nat) (e : Int) (hm) : rounded (.finite s m e hm) =
    UnpackedFloat.unpack .binary32 (if 256 ≤ biased e + 1 then
        UnpackedFloat.packedInfinity .binary32 s
      else if m.log2 + 1 = Format.binary32.mantissaBits then
        UnpackedFloat.packComponents .binary32 s (BitVec.ofNat 8 (biased e)) (BitVec.ofNat 23 m)
      else UnpackedFloat.packComponents .binary32 s 0#8 (BitVec.ofNat 23 m)) := rfl

/-- Rounding turns a finite number into a finite or an infinite one. -/
theorem isNaN_rounded {y : UnpackedFloat} (h : y.isNaN = false) : (rounded y).isNaN = false := by
  have hfinite {z : UnpackedFloat} (h : z.isFinite = true) : z.isNaN = false := by
    cases z <;> first | rfl | cases h
  cases y with
  | notANumber => cases h
  | infinity s =>
    rw [rounded_infinity]
    rfl
  | zero s => exact hfinite (isFinite_unpack (by decide))
  | finite s m e hm =>
    rw [rounded_finite]
    split
    · cases s <;> rfl
    · -- The exponent is below the largest one, so it is still that when written in eight bits.
      rename_i hlarge
      split
      · refine hfinite (isFinite_unpack fun heq => ?_)
        have heq := congrArg BitVec.toNat heq
        rw [BitVec.toNat_ofNat] at heq
        have hlargest : (-1#8).toNat = 255 := rfl
        omega
      · exact hfinite (isFinite_unpack (by decide))

theorem isNaN_dite {c : Prop} [Decidable c] {f : c → UnpackedFloat} {g : ¬ c → UnpackedFloat}
    (hf : ∀ h, (f h).isNaN = false) (hg : ∀ h, (g h).isNaN = false) :
    (dite c f g).isNaN = false := by
  split
  · exact hf _
  · exact hg _

theorem isNaN_normalize (spec : Format) (m : Int) (e : Int) (s) :
    (UnpackedFloat.normalize spec m e s).isNaN = false := by
  have hround (s) (m : Nat) (e : Int) : (UnpackedFloat.round spec s m e).isNaN = false := by
    unfold UnpackedFloat.round UnpackedFloat.roundWithAccuracy
    exact isNaN_dite (fun _ => rfl) fun _ => rfl
  unfold UnpackedFloat.normalize
  split
  · exact hround _ _ _
  · rfl
  · exact hround _ _ _

theorem isNaN_abs (h : a.isNaN = false) : a.abs.isNaN = false := by
  refine isNaN_rounded (y := (value a).abs) ?_
  have h : (value a).isNaN = false := h
  cases hv : value a with
  | notANumber =>
    rw [hv] at h
    cases h
  | _ => rfl

/-- The difference of two numbers is a number unless they are the same infinity. -/
theorem isNaN_sub (ha : a.isNaN = false) (hb : b.isNaN = false) (hne : (a == b) = false) :
    (a - b).isNaN = false := by
  refine isNaN_rounded (y := (value a).sub .binary32 (value b)) ?_
  have ha : (value a).isNaN = false := ha
  have hb : (value b).isNaN = false := hb
  have hne : (value a).beq (value b) = false := hne
  generalize value a = y, value b = z at *
  cases y with
  | notANumber => cases ha
  | infinity s => cases z with
    | notANumber => cases hb
    | infinity s' => cases s <;> cases s' <;> first | rfl | cases hne
    | _ => rfl
  | zero s => cases z with
    | notANumber => cases hb
    | zero s' => cases s <;> cases s' <;> rfl
    | _ => rfl
  | finite s => cases z with
    | notANumber => cases hb
    | finite s' => exact isNaN_normalize _ _ _ _
    | _ => rfl

/-! ## Distances -/

theorem notANumber_sub (y : UnpackedFloat) :
    UnpackedFloat.sub .binary32 .notANumber y = .notANumber := by
  cases y <;> rfl

theorem sub_notANumber (y : UnpackedFloat) : y.sub .binary32 .notANumber = .notANumber := by
  cases y <;> rfl

/-- A difference with an operand that is not finite is not finite either. -/
theorem sub_of_not_isFinite {y z : UnpackedFloat} (h : ¬ (y.isFinite = true ∧ z.isFinite = true)) :
    y.sub .binary32 z = .notANumber ∨ ∃ s, y.sub .binary32 z = .infinity s := by
  cases y with
  | notANumber => exact .inl (notANumber_sub z)
  | infinity s => cases z with
    | notANumber => exact .inl rfl
    | infinity s' => cases s <;> cases s' <;> first | exact .inl rfl | exact .inr ⟨_, rfl⟩
    | _ => exact .inr ⟨s, rfl⟩
  | _ => cases z with
    | notANumber => exact .inl rfl
    | infinity s' => exact .inr ⟨-s', rfl⟩
    | _ => exact absurd ⟨rfl, rfl⟩ h

theorem value_sub_ne_of_le (h : (a - b).abs ≤ x) : value (a - b) ≠ .notANumber := by
  intro hsub
  rw [le_iff, value_abs, hsub] at h
  cases h

/-- What is not a number is within no distance from anything. -/
theorem isNaN_of_abs_sub_le (h : (a - b).abs ≤ x) : a.isNaN = false ∧ b.isNaN = false := by
  have hne := value_sub_ne_of_le h
  rw [value_sub] at hne
  refine ⟨Bool.eq_false_iff.mpr fun ha => hne ?_, Bool.eq_false_iff.mpr fun hb => hne ?_⟩
  · have ha : (value a).isNaN = true := ha
    cases hv : value a <;> rw [hv] at ha <;> cases ha
    rw [notANumber_sub, rounded_notANumber]
  · have hb : (value b).isNaN = true := hb
    cases hv : value b <;> rw [hv] at hb <;> cases hb
    rw [sub_notANumber, rounded_notANumber]

/-- The distance of two values is within a bound other than infinity only if both are finite. -/
theorem isFinite_of_abs_sub_le (h : (a - b).abs ≤ x) (hx : ¬ IsInfinity x) :
    a.isFinite ∧ b.isFinite := by
  have hne := value_sub_ne_of_le h
  rw [isInfinity_iff] at hx
  rw [le_iff, value_abs] at h
  refine Decidable.byContradiction fun hfinite => ?_
  rcases sub_of_not_isFinite (y := value a) (z := value b) hfinite with hsub | ⟨s, hsub⟩
  · rw [value_sub, hsub, rounded_notANumber] at hne
    exact hne rfl
  · have habs : (UnpackedFloat.infinity s).abs = .infinity .positive := rfl
    rw [value_sub, hsub, rounded_infinity, habs, rounded_infinity] at h
    cases hv : value x with
    | infinity s =>
      rw [hv] at hx h
      cases s with
      | positive => exact hx rfl
      | negative => cases h
    | _ =>
      rw [hv] at h
      cases h

/-- Every number is at most infinity. -/
theorem le_of_isInfinity (ha : a.isNaN = false) (hx : IsInfinity x) : a ≤ x := by
  rw [le_iff, isInfinity_iff.mp hx]
  have ha : (value a).isNaN = false := ha
  generalize value a = y at *
  cases y with
  | notANumber => cases ha
  | infinity s => cases s <;> rfl
  | _ => rfl

/-- The distance of two different numbers is at most infinity. -/
theorem abs_sub_le_of_isInfinity (ha : a.isNaN = false) (hb : b.isNaN = false)
    (hne : (a == b) = false) (hx : IsInfinity x) : (a - b).abs ≤ x :=
  le_of_isInfinity (isNaN_abs (isNaN_sub ha hb hne)) hx

end Single

end TensorLoom
