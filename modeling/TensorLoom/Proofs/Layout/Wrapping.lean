import TensorLoom.Proofs.Layout.Folding

/-!
# Offsets in machine words

A size beyond the signed words is read as a negative number. An offset that is computed from such
sizes is still the exact one up to a multiple of the word size, and being a signed word it is
determined by that: unless the arithmetic overflows, it is the exact one wrapped around
(`Signed.wrap`). So nothing that is said of wrapped offsets needs sizes that fit.

* `View.index_yields_wrap`: a view computes the offset that it reads, wrapped around;
* `View.index_of_isContiguous`: a row-major view computes the row-major position, wrapped around;
* `View.Gathers.index_yields`: a view that gathers from another one computes what that computes at
  the source of an index, also if its offset is known up to multiples of the word size only.
-/

namespace TensorLoom

open Shape (InRange position indexAt rowStrides)

namespace Signed

/-- The signed word that an integer leaves when it is wrapped around. -/
def wrap (n : Int) : Int := n.bmod Word.bound

theorem wrap_add {a b c d : Int} (h : wrap a = wrap c) (h' : wrap b = wrap d) :
    wrap (a + b) = wrap (c + d) := by
  unfold wrap at *
  rw [← Int.bmod_add_bmod, h, Int.bmod_add_bmod, ← Int.add_bmod_bmod, h', Int.add_bmod_bmod]

theorem wrap_sub {a b c d : Int} (h : wrap a = wrap c) (h' : wrap b = wrap d) :
    wrap (a - b) = wrap (c - d) := by
  unfold wrap at *
  rw [← Int.bmod_sub_bmod, h, Int.bmod_sub_bmod, ← Int.sub_bmod_bmod, h', Int.sub_bmod_bmod]

theorem wrap_mul {a b c d : Int} (h : wrap a = wrap c) (h' : wrap b = wrap d) :
    wrap (a * b) = wrap (c * d) := by
  unfold wrap at *
  rw [← Int.bmod_mul_bmod, h, Int.bmod_mul_bmod, ← Int.mul_bmod_bmod, h', Int.mul_bmod_bmod]

@[simp] theorem wrap_wrap (n : Int) : wrap (wrap n) = wrap n := Int.bmod_bmod

theorem wrap_eq {n : Int} (hlow : -(Word.half : Int) ≤ n) (hhigh : n < (Word.half : Int)) :
    wrap n = n :=
  Int.bmod_eq_of_le hlow hhigh

theorem wrap_ofSize (n : Nat) : wrap (ofSize n) = wrap n := by
  unfold ofSize
  split
  · rfl
  · have h : wrap (-(Word.bound : Int)) = wrap 0 := by decide
    rw [Int.sub_eq_add_neg, wrap_add rfl h, Int.add_zero]

/-- A size that a word holds is wrapped around to the signed word that it is read as. -/
theorem wrap_natCast {n : Nat} (h : n < Word.bound) : wrap n = ofSize n := by
  have hbound : Word.bound = 2 * Word.half := rfl
  rw [← wrap_ofSize, wrap_eq]
  · unfold ofSize
    split <;> omega
  · unfold ofSize
    split <;> omega

theorem check_eq_ok {n m : Int} : check n = .ok m ↔
    n = m ∧ -(Word.half : Int) ≤ n ∧ n < (Word.half : Int) := by
  unfold check
  split
  · rename_i h
    exact ⟨fun he => ⟨Except.ok.inj he, h⟩, fun he => congrArg Except.ok he.1⟩
  · rename_i h
    exact ⟨fun he => (nomatch he), fun he => absurd he.2 h⟩

/-- A number that is checked is the one that anything congruent to it leaves. -/
theorem check_yields_wrap {n m : Int} (h : wrap n = wrap m) : Yields (check n) (wrap m) := by
  unfold check
  split
  · rename_i hr
    rw [← h, wrap_eq hr.1 hr.2]
    exact .inl rfl
  · exact .inr rfl

end Signed

namespace View

variable {v : View} {idx : List Nat}

/-- The steps of an index, summed up in machine words from a wrapped start. -/
theorem foldlM_steps_yields_wrap (idx : List Nat) (axes : List Axis) (start : Int) :
    Yields ((idx.zip axes).foldlM (fun sum (x : Nat × Axis) => do
        Signed.add sum (← Signed.mul (Signed.ofSize x.1) x.2.stride)) (Signed.wrap start))
      (Signed.wrap (start + steps idx axes)) := by
  induction idx generalizing axes start with
  | nil => simpa [steps] using Yields.pure (Signed.wrap start)
  | cons i idx ih =>
    cases axes with
    | nil => simpa [steps] using Yields.pure (Signed.wrap start)
    | cons a axes =>
      rw [List.zip_cons_cons, List.foldlM_cons, steps_cons, ← Int.add_assoc]
      have hstep : Yields (Signed.mul (Signed.ofSize i) a.stride) (Signed.wrap (i * a.stride)) :=
        Signed.check_yields_wrap (Signed.wrap_mul (Signed.wrap_ofSize i) rfl)
      refine .bind (.bind hstep ?_) (ih axes _)
      exact Signed.check_yields_wrap
        (Signed.wrap_add (Signed.wrap_wrap start) (Signed.wrap_wrap _))

/-- A view computes the offset that it reads, wrapped around. -/
theorem index_yields_wrap (hi : InRange idx v.shape) :
    Yields (v.index idx) ((v.read idx).map Signed.wrap) := by
  have hsteps := foldlM_steps_yields_wrap idx v.axes 0
  rw [Int.zero_add, show Signed.wrap 0 = 0 from rfl] at hsteps
  rw [index_eq hi, read]
  split
  · refine .bind hsteps (Yields.map ?_ some)
    exact Signed.check_yields_wrap (Signed.wrap_add rfl (Signed.wrap_wrap _))
  · exact .pure none

/-- The offset that a view computes is a signed word. -/
theorem wrap_of_index {o : Int} (h : v.index idx = .ok (some o)) : Signed.wrap o = o := by
  unfold index at h
  split at h
  · cases h
  · obtain ⟨steps, -, h⟩ := bind_eq_ok.mp h
    cases hadd : Signed.add v.offset steps with
    | error e =>
      rw [hadd] at h
      cases h
    | ok sum =>
      rw [hadd] at h
      cases h
      obtain ⟨heq, hlow, hhigh⟩ := Signed.check_eq_ok.mp hadd
      exact Signed.wrap_eq (heq ▸ hlow) (heq ▸ hhigh)

/-! ## Row-major views -/

/-- The row-major strides that are computed are the exact ones up to multiples of the word size. -/
theorem wrap_stridesAndSpan {shape : List Nat} {strides : List Int} {span : Int}
    (h : Shape.stridesAndSpan shape = .ok (strides, span)) :
    List.Forall₂ (fun s e => Signed.wrap s = Signed.wrap e) strides (rowStrides shape) ∧
      Signed.wrap span = Signed.wrap shape.prod := by
  induction shape generalizing strides span with
  | nil =>
    cases h
    exact ⟨.nil, rfl⟩
  | cons dim inner ih =>
    obtain ⟨⟨rest, count⟩, hrest, h⟩ := bind_eq_ok.mp h
    obtain ⟨whole, hwhole, h⟩ := bind_eq_ok.mp h
    cases h
    obtain ⟨hstrides, hcount⟩ := ih hrest
    refine ⟨.cons ?_ hstrides, ?_⟩
    · split
      · rfl
      · exact hcount
    · obtain ⟨rfl, -⟩ := Signed.check_eq_ok.mp hwhole
      rw [List.prod_cons, Nat.cast_mul, Int.mul_comm (dim : Int)]
      exact Signed.wrap_mul hcount (Signed.wrap_ofSize dim)

theorem wrap_steps_eq_position {axes : List Axis}
    (h : List.Forall₂ (fun s e => Signed.wrap s = Signed.wrap e) (axes.map (·.stride))
      (rowStrides (axes.map (·.size)))) {idx : List Nat} (hi : InRange idx (axes.map (·.size))) :
    Signed.wrap (steps idx axes) = Signed.wrap (position (axes.map (·.size)) idx) := by
  induction axes generalizing idx with
  | nil => simp [position]
  | cons a axes ih =>
    rw [List.map_cons] at hi
    cases h with
    | cons hstride hrest => cases hi with
      | @cons i _ idx _ hi hr =>
        rw [steps_cons, List.map_cons, position, Nat.cast_add, Nat.cast_mul]
        refine Signed.wrap_add ?_ (ih hrest hr)
        split at hstride
        · rename_i h1
          have h1 : a.size = 1 := h1
          rw [show i = 0 by omega]
          simp
        · exact Signed.wrap_mul rfl hstride

/-- A row-major view reads the row-major position up to a multiple of the word size. -/
theorem wrap_read_of_isContiguous (h : v.isContiguous = .ok true) (hi : InRange idx v.shape) :
    (v.read idx).map Signed.wrap = some (Signed.wrap (position v.shape idx)) := by
  unfold isContiguous at h
  split at h
  · rename_i hplain
    obtain ⟨strides, hstrides, h⟩ := bind_eq_ok.mp h
    have heq : v.strides = strides := of_decide_eq_true (pure_eq_ok.mp h)
    have hadmits := admits_of_isMasked hplain.2 hi
    rw [read_of_admits hadmits, hplain.1, Int.zero_add, Option.map_some, Option.some.injEq]
    obtain ⟨span, hspan⟩ := Shape.strides_eq_ok hstrides
    refine wrap_steps_eq_position ?_ hi
    show List.Forall₂ _ v.strides (rowStrides v.shape)
    rw [heq]
    exact (wrap_stridesAndSpan hspan).1
  · cases h

/-- A row-major view computes the row-major position, wrapped around. -/
theorem index_of_isContiguous (h : v.isContiguous = .ok true) (hi : InRange idx v.shape) :
    Yields (v.index idx) (some (Signed.wrap (position v.shape idx))) :=
  (index_yields_wrap hi).of_eq (wrap_read_of_isContiguous h hi)

/-! ## Edited offsets -/

/-- Two views of one shape read the same offsets up to multiples of the word size. -/
structure Congruent (v w : View) : Prop where
  shape : v.shape = w.shape
  read : ∀ idx, InRange idx w.shape →
    (v.read idx).map Signed.wrap = (w.read idx).map Signed.wrap

theorem Congruent.normalize {o o' : Int} (h : Signed.wrap o = Signed.wrap o') (axes : List Axis) :
    (View.normalize ⟨o, axes⟩).Congruent ⟨o', axes⟩ where
  shape := shape_normalize _
  read idx hi := by
    rw [read_normalize (v := ⟨o, axes⟩) hi, View.read, View.read]
    split
    · exact congrArg some (Signed.wrap_add h rfl)
    · rfl

/-- A view that is congruent to one that gathers computes what the other one does at the source of
an index, and nothing where there is no source, unless the arithmetic overflows. -/
theorem Gathers.index_yields {u : View} {source : List Nat → Option (List Nat)}
    {w : View} (h : v.Gathers w source) (hu : u.Congruent w) (hi : InRange idx u.shape) :
    ∃ r, Yields (u.index idx) r ∧ Yields ((source idx).elim (.ok none) v.index) r := by
  have hi' : InRange idx w.shape := hu.shape ▸ hi
  refine ⟨_, index_yields_wrap hi, ?_⟩
  rw [hu.read idx hi', h.read idx hi']
  cases hs : source idx with
  | none => exact .pure none
  | some i => exact index_yields_wrap (h.inRange idx hi' i hs)

/-- The offset of an edited view, moved axis by axis, is the exact one up to a multiple of the word
size. -/
theorem wrap_foldlM_shift {β : Type} {f : Int → Axis × β → Checked Int} {shift : Axis → β → Int}
    (hf : ∀ o x o', f o x = .ok o' → Signed.wrap o' = Signed.wrap (o + shift x.1 x.2))
    {axes : List Axis} {args : List β} {o o' : Int} (h : (axes.zip args).foldlM f o = .ok o') :
    Signed.wrap o' = Signed.wrap (o + (List.zipWith shift axes args).sum) := by
  induction axes generalizing args o with
  | nil =>
    cases h
    simp
  | cons a axes ih =>
    cases args with
    | nil =>
      cases h
      simp
    | cons b args =>
      rw [List.zip_cons_cons, List.foldlM_cons] at h
      obtain ⟨o₁, ho₁, h⟩ := bind_eq_ok.mp h
      rw [ih h, List.zipWith_cons_cons, List.sum_cons, ← Int.add_assoc]
      exact Signed.wrap_add (hf o (a, b) o₁ ho₁) rfl

end View

end TensorLoom
