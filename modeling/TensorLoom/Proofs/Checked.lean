import TensorLoom.Checked
import Mathlib.Data.List.Forall2
import Mathlib.Data.List.Induction

/-!
# Computations that can only overflow

Statements about layouts are statements of plain arithmetic, while the definitions compute in
machine words. The two meet in `Yields`: a checked computation yields a value if it has that value
or overflows, and nothing else can become of it. `Settles` says the same of an attempt, which may
be refused as well: it is refused only if a condition holds, and a value that it has satisfies a
postcondition.

Both are proved step by step, one lemma for each way to put computations together, so that a proof
about a definition follows the definition.
-/

namespace TensorLoom

variable {α β ε : Type}

/-- A computation has the value `a`, unless it overflows. -/
def Yields (x : Checked α) (a : α) : Prop := x = .ok a ∨ x = .error .overflow

namespace Yields

theorem pure (a : α) : Yields (Pure.pure a) a := .inl rfl

theorem eq_of_ok {x : Checked α} {a b : α} (h : Yields x a) (hx : x = .ok b) : b = a := by
  rcases h with h | h <;> rw [h] at hx <;> cases hx
  rfl

theorem bind {x : Checked α} {f : α → Checked β} {a : α} {b : β} (hx : Yields x a)
    (hf : Yields (f a) b) : Yields (x >>= f) b := by
  rcases hx with hx | hx <;> subst hx
  · exact hf
  · exact .inr rfl

theorem map {x : Checked α} {a : α} (hx : Yields x a) (f : α → β) : Yields (f <$> x) (f a) := by
  rcases hx with hx | hx <;> subst hx
  · exact .inl rfl
  · exact .inr rfl

theorem of_eq {x : Checked α} {a b : α} (h : Yields x a) (e : a = b) : Yields x b := e ▸ h

/-- A fold whose every step yields a value yields the fold of these values. -/
theorem foldlM {f : β → α → Checked β} {g : β → α → β} {xs : List α}
    (h : ∀ b, ∀ a ∈ xs, Yields (f b a) (g b a)) (b : β) :
    Yields (xs.foldlM f b) (xs.foldl g b) := by
  induction xs generalizing b with
  | nil => exact pure b
  | cons a xs ih =>
    rw [List.foldlM_cons, List.foldl_cons]
    exact bind (h b a List.mem_cons_self) (ih (fun b a ha => h b a (List.mem_cons_of_mem _ ha)) _)

theorem mapM {f : α → Checked β} {g : α → β} {xs : List α} (h : ∀ a ∈ xs, Yields (f a) (g a)) :
    Yields (xs.mapM f) (xs.map g) := by
  induction xs with
  | nil => exact pure []
  | cons a xs ih =>
    rw [List.mapM_cons, List.map_cons]
    exact bind (h a List.mem_cons_self)
      (bind (ih fun a ha => h a (List.mem_cons_of_mem _ ha)) (pure _))

end Yields

/-- An attempt is refused only if `refusal` holds, a value of it satisfies `post`, and if it faults
it overflows. -/
def Settles (x : Attempt ε α) (refusal : Prop) (post : α → Prop) : Prop :=
  match x with
  | .ok a => post a
  | .error (.refused _) => refusal
  | .error (.fault cause) => cause = .overflow

namespace Settles

variable {P : Prop} {Q : α → Prop} {R : β → Prop}

theorem pure {a : α} (h : Q a) : Settles (Pure.pure a : Attempt ε α) P Q := h

theorem refuse {e : ε} (h : P) : Settles (TensorLoom.refuse e : Attempt ε α) P Q := h

theorem of_ok {x : Attempt ε α} {a : α} (h : Settles x P Q) (hx : x = .ok a) : Q a := by
  subst hx; exact h

theorem mono {x : Attempt ε α} {P' : Prop} {Q' : α → Prop} (h : Settles x P Q) (hP : P → P')
    (hQ : ∀ a, Q a → Q' a) : Settles x P' Q' := by
  rcases x with (e | e) | a
  · exact h
  · exact hP h
  · exact hQ a h

theorem bind {x : Attempt ε α} {f : α → Attempt ε β} (hx : Settles x P Q)
    (hf : ∀ a, Q a → Settles (f a) P R) : Settles (x >>= f) P R := by
  rcases x with (e | e) | a
  · exact hx
  · exact hx
  · exact hf a hx

/-- A checked computation inside an attempt. -/
theorem lift {x : Checked α} {a : α} (h : Yields x a) (hQ : Q a) :
    Settles (liftM x : Attempt ε α) P Q := by
  rcases h with h | h <;> subst h
  · exact hQ
  · exact (rfl : Fault.overflow = Fault.overflow)

theorem lift_bind {x : Checked α} {f : α → Attempt ε β} {a : α} (h : Yields x a)
    (hf : Settles (f a) P R) : Settles (liftM x >>= f) P R :=
  bind (lift h (Q := (· = a)) rfl) fun _ e => e ▸ hf

end Settles

/-- A computation is another one, unless it ends with an error that is not looked at. -/
def UpTo (e : ε) (x y : Except ε α) : Prop := x = y ∨ x = .error e

namespace UpTo

variable {e : ε}

theorem refl (x : Except ε α) : UpTo e x x := .inl rfl

theorem of_yields {x : Checked α} {a : α} (h : Yields x a) : UpTo .overflow x (.ok a) := h

theorem bind {x y : Except ε α} {f g : α → Except ε β} (hx : UpTo e x y)
    (hf : ∀ a, y = .ok a → UpTo e (f a) (g a)) : UpTo e (x >>= f) (y >>= g) := by
  rcases hx with hx | hx <;> subst hx
  · cases x with
    | ok a => exact hf a rfl
    | error e => exact .inl rfl
  · exact .inr rfl

theorem trans_eq {x y z : Except ε α} (h : UpTo e x y) (hz : y = z) : UpTo e x z := hz ▸ h

/-- Two computations that are the same third one are each other. -/
theorem eq_or {x y z : Except ε α} (hx : UpTo e x z) (hy : UpTo e y z) :
    x = y ∨ x = .error e ∨ y = .error e := by
  rcases hx with hx | hx
  · rcases hy with hy | hy
    · exact .inl (hx.trans hy.symm)
    · exact .inr (.inr hy)
  · exact .inr (.inl hx)

/-- A checked computation inside an attempt. -/
theorem lift {δ : Type} {x y : Checked α} (h : UpTo .overflow x y) :
    UpTo (.fault .overflow) (liftM x : Attempt δ α) (liftM y) := by
  rcases h with h | h
  · exact .inl (congrArg _ h)
  · subst h
    exact .inr rfl

end UpTo

/-- Two computations end with the same error, or with values that are related. -/
inductive Alike (R : α → β → Prop) : Except ε α → Except ε β → Prop
  | ok {a : α} {b : β} (h : R a b) : Alike R (.ok a) (.ok b)
  | error (e : ε) : Alike R (.error e) (.error e)

namespace Alike

variable {γ δ : Type} {R : α → β → Prop} {S : γ → δ → Prop} {x : Except ε α} {y : Except ε β}

theorem bind {f : α → Except ε γ} {g : β → Except ε δ} (h : Alike R x y)
    (hf : ∀ a b, x = .ok a → y = .ok b → R a b → Alike S (f a) (g b)) :
    Alike S (x >>= f) (y >>= g) := by
  cases h with
  | ok h => exact hf _ _ rfl rfl h
  | error e => exact .error e

theorem of_eq {z : Except ε α} (h : x = z) : Alike (· = ·) x z := by
  subst h
  cases x with
  | ok a => exact .ok rfl
  | error e => exact .error e

theorem eq {z : Except ε α} (h : Alike (· = ·) x z) : x = z := by
  cases h with
  | ok h => rw [h]
  | error e => rfl

/-- Related checked computations inside attempts. -/
theorem lift {x : Checked α} {y : Checked β} (h : Alike R x y) :
    Alike R (liftM x : Attempt δ α) (liftM y : Attempt δ β) := by
  cases h with
  | ok h => exact .ok h
  | error e => exact .error _

end Alike

/-- A fold whose steps have values as long as an invariant holds. -/
theorem Yields.foldlM_inv {f : β → α → Checked β} {g : β → α → β} {xs : List α} (P : β → Prop)
    (h : ∀ b, P b → ∀ a ∈ xs, Yields (f b a) (g b a) ∧ P (g b a)) {b : β} (hb : P b) :
    Yields (xs.foldlM f b) (xs.foldl g b) := by
  induction xs generalizing b with
  | nil => exact pure b
  | cons a xs ih =>
    rw [List.foldlM_cons, List.foldl_cons]
    obtain ⟨hy, hP⟩ := h b hb a List.mem_cons_self
    exact bind hy (ih (fun b hb a ha => h b hb a (List.mem_cons_of_mem _ ha)) hP)

/-! ## Computations that have a value

A computation put together from others has a value only if they have. These lemmas take such a value
apart again.
-/

theorem bind_eq_ok {x : Except ε α} {f : α → Except ε β} {b : β} :
    x >>= f = .ok b ↔ ∃ a, x = .ok a ∧ f a = .ok b := by
  cases x with
  | error e => simp [bind, Except.bind]
  | ok a => simp [bind, Except.bind]

theorem bind_eq_error {x : Except ε α} {f : α → Except ε β} {e : ε} :
    x >>= f = .error e ↔ x = .error e ∨ ∃ a, x = .ok a ∧ f a = .error e := by
  cases x with
  | error e => simp [bind, Except.bind]
  | ok a => simp [bind, Except.bind]

theorem pure_eq_ok {a b : α} : (pure a : Except ε α) = .ok b ↔ a = b :=
  ⟨fun h => Except.ok.inj h, fun h => h ▸ rfl⟩

theorem liftM_eq_ok {x : Checked α} {a : α} : (liftM x : Attempt ε α) = .ok a ↔ x = .ok a := by
  cases x with
  | error e => constructor <;> (intro h; cases h)
  | ok b => constructor <;> (intro h; cases h; rfl)

theorem mapError_eq_ok {δ : Type} {f : ε → δ} {x : Except ε α} {a : α} :
    x.mapError f = .ok a ↔ x = .ok a := by
  cases x <;> simp [Except.mapError]

theorem mapError_eq_error {δ : Type} {f : ε → δ} {x : Except ε α} {e : δ} :
    x.mapError f = .error e ↔ ∃ e', x = .error e' ∧ f e' = e := by
  cases x <;> simp [Except.mapError]

theorem mapM_eq_ok {f : α → Except ε β} {xs : List α} {ys : List β} (h : xs.mapM f = .ok ys) :
    List.Forall₂ (fun x y => f x = .ok y) xs ys := by
  induction xs generalizing ys with
  | nil =>
    cases h
    exact .nil
  | cons x xs ih =>
    rw [List.mapM_cons] at h
    obtain ⟨y, hy, h⟩ := bind_eq_ok.mp h
    obtain ⟨rest, hrest, h⟩ := bind_eq_ok.mp h
    cases h
    exact .cons hy (ih hrest)

theorem mapM_eq_ok_of_forall₂ {f : α → Except ε β} {xs : List α} {ys : List β}
    (h : List.Forall₂ (fun x y => f x = .ok y) xs ys) : xs.mapM f = .ok ys := by
  induction h with
  | nil => rfl
  | cons hxy _ ih =>
    rw [List.mapM_cons, hxy, ih]
    rfl

theorem mapM_eq_ok_of_forall {f : α → Except ε β} {g : α → β} {xs : List α}
    (h : ∀ a ∈ xs, f a = .ok (g a)) : xs.mapM f = .ok (xs.map g) := by
  induction xs with
  | nil => rfl
  | cons x xs ih =>
    rw [List.mapM_cons, h x List.mem_cons_self, ih fun a ha => h a (List.mem_cons_of_mem _ ha)]
    rfl

/-- Every step of a loop that ends with a value has one. -/
theorem foldlM_eq_ok {f : β → α → Except ε β} {xs : List α} {b r : β}
    (h : xs.foldlM f b = .ok r) : ∀ a ∈ xs, ∃ b c, f b a = .ok c := by
  induction xs generalizing b with
  | nil => intro a ha; cases ha
  | cons x xs ih =>
    rw [List.foldlM_cons] at h
    obtain ⟨c, hc, h⟩ := bind_eq_ok.mp h
    intro a ha
    rcases List.mem_cons.mp ha with rfl | ha
    · exact ⟨b, c, hc⟩
    · exact ih h a ha

theorem mapM_congr {m : Type → Type} [Monad m] [LawfulMonad m] {f g : α → m β} {xs : List α}
    (h : ∀ x ∈ xs, f x = g x) : xs.mapM f = xs.mapM g := by
  induction xs with
  | nil => rfl
  | cons x xs ih =>
    rw [List.forall_mem_cons] at h
    rw [List.mapM_cons, List.mapM_cons, h.1, ih h.2]

/-! ## Lists related member by member -/

theorem forall₂_eq_map {f : α → β} {xs : List α} {ys : List β}
    (h : List.Forall₂ (fun x y => y = f x) xs ys) : ys = xs.map f := by
  induction h with
  | nil => rfl
  | cons hxy _ ih => rw [List.map_cons, hxy, ih]

/-- What is beside a member of the second of two related lists. -/
theorem exists_of_forall₂_right {R : α → β → Prop} {xs : List α} {ys : List β}
    (h : List.Forall₂ R xs ys) {y : β} (hy : y ∈ ys) : ∃ x ∈ xs, R x y := by
  induction h with
  | nil => cases hy
  | cons hxy _ ih =>
    rcases List.mem_cons.mp hy with rfl | hy
    · exact ⟨_, List.mem_cons_self, hxy⟩
    · obtain ⟨x, hx, hxy⟩ := ih hy
      exact ⟨x, List.mem_cons_of_mem _ hx, hxy⟩

/-- What is beside a member of the first of two related lists. -/
theorem exists_of_forall₂_left {R : α → β → Prop} {xs : List α} {ys : List β}
    (h : List.Forall₂ R xs ys) {x : α} (hx : x ∈ xs) : ∃ y ∈ ys, R x y :=
  exists_of_forall₂_right h.flip hx

theorem forall₂_trans {γ : Type} {R : α → β → Prop} {S : β → γ → Prop} {T : α → γ → Prop}
    (hT : ∀ {x y z}, R x y → S y z → T x z) {xs : List α} {ys : List β} {zs : List γ}
    (h : List.Forall₂ R xs ys) (h' : List.Forall₂ S ys zs) : List.Forall₂ T xs zs := by
  induction h generalizing zs with
  | nil =>
    cases h'
    exact .nil
  | cons hxy _ ih =>
    cases h' with
    | cons hyz htail => exact .cons (hT hxy hyz) (ih htail)

/-- One of two relations, where it follows from the other for the members of the first list. -/
theorem forall₂_imp_mem {R S : α → β → Prop} {xs : List α} {ys : List β}
    (h : List.Forall₂ R xs ys) (hS : ∀ x ∈ xs, ∀ y, R x y → S x y) : List.Forall₂ S xs ys :=
  ((List.forall₂_and_left _ _).mpr ⟨hS, h⟩).imp fun _ y hxy => hxy.1 y hxy.2

theorem forall₂_flatMap {γ δ : Type} {R : α → β → Prop} {S : γ → δ → Prop} {f : α → List γ}
    {g : β → List δ} {xs : List α} {ys : List β} (h : List.Forall₂ R xs ys)
    (hS : ∀ x ∈ xs, ∀ y, R x y → List.Forall₂ S (f x) (g y)) :
    List.Forall₂ S (xs.flatMap f) (ys.flatMap g) := by
  induction h with
  | nil => exact .nil
  | cons hxy _ ih =>
    rw [List.flatMap_cons, List.flatMap_cons]
    exact List.rel_append (hS _ List.mem_cons_self _ hxy)
      (ih fun x hx => hS x (List.mem_cons_of_mem _ hx))

theorem forall₂_of_append {R : α → β → Prop} {xs xs' : List α} {ys ys' : List β}
    (hlength : xs.length = ys.length) (h : List.Forall₂ R (xs ++ xs') (ys ++ ys')) :
    List.Forall₂ R xs ys ∧ List.Forall₂ R xs' ys' := by
  have htake := List.forall₂_take_append _ _ _ h
  have hdrop := List.forall₂_drop_append _ _ _ h
  rw [List.take_left' hlength] at htake
  rw [List.drop_left' hlength] at hdrop
  exact ⟨htake, hdrop⟩

theorem forall₂_getElem? {R : α → β → Prop} {xs : List α} {ys : List β} (h : List.Forall₂ R xs ys)
    {k : Nat} {x : α} {y : β} (hx : xs[k]? = some x) (hy : ys[k]? = some y) : R x y := by
  obtain ⟨hk, rfl⟩ := List.getElem?_eq_some_iff.mp hx
  obtain ⟨hk', rfl⟩ := List.getElem?_eq_some_iff.mp hy
  exact (List.forall₂_iff_get.mp h).2 k hk hk'

/-! ## Entries of a list -/

theorem entry_eq_ok {xs : List α} {i : Nat} {x : α} : entry xs i = .ok x ↔ xs[i]? = some x := by
  unfold entry
  cases xs[i]? <;> simp

theorem getD_of_entry {xs : List α} {i : Nat} {x : α} (h : entry xs i = .ok x) (d : α) :
    xs.getD i d = x := by
  rw [List.getD_eq_getElem?_getD, entry_eq_ok.mp h]
  rfl

/-! ## Machine words -/

theorem Word.sub_eq_ok {a b c : Nat} : Word.sub a b = .ok c ↔ b ≤ a ∧ a - b = c := by
  unfold Word.sub
  split
  · rename_i h
    simp [h]
  · rename_i h
    simp [h]

theorem Word.add_eq_ok {a b c : Nat} : Word.add a b = .ok c ↔ a + b < Word.bound ∧ a + b = c := by
  unfold Word.add Word.check
  split
  · rename_i h
    simp [h]
  · rename_i h
    simp [h]

theorem Word.check_yields (n : Nat) : Yields (Word.check n) n := by
  unfold Word.check
  split
  · exact .inl rfl
  · exact .inr rfl

theorem Word.add_yields (a b : Nat) : Yields (Word.add a b) (a + b) := Word.check_yields _

theorem Word.mul_yields (a b : Nat) : Yields (Word.mul a b) (a * b) := Word.check_yields _

theorem Word.div_eq {a b : Nat} (h : b ≠ 0) : Word.div a b = .ok (a / b) := if_neg h

theorem Signed.check_yields (n : Int) : Yields (Signed.check n) n := by
  unfold Signed.check
  split
  · exact .inl rfl
  · exact .inr rfl

theorem Signed.add_yields (a b : Int) : Yields (Signed.add a b) (a + b) := Signed.check_yields _

theorem Signed.sub_yields (a b : Int) : Yields (Signed.sub a b) (a - b) := Signed.check_yields _

theorem Signed.mul_yields (a b : Int) : Yields (Signed.mul a b) (a * b) := Signed.check_yields _

theorem Signed.ofSize_eq {n : Nat} (h : n < Word.half) : Signed.ofSize n = n := if_pos h

/-! ## Computations that fail on large sizes only

Where the numbers that come up are known to fit, a computation has a value. `Meets` says which
errors it may end with instead, and the errors that matter here are those of numbers and tables that
are too large, where there may be some.
-/

/-- A computation ends with a value that satisfies `post`, or with an error that is allowed. -/
def Meets (x : Except ε α) (allowed : ε → Prop) (post : α → Prop) : Prop :=
  match x with
  | .ok a => post a
  | .error e => allowed e

namespace Meets

variable {allowed allowed' : ε → Prop} {P : α → Prop} {Q : β → Prop} {x : Except ε α}

theorem pure {a : α} (h : P a) : Meets (Pure.pure a : Except ε α) allowed P := h

theorem of_eq_ok {a : α} (h : x = .ok a) (ha : P a) : Meets x allowed P := by
  subst h
  exact ha

theorem self (x : Except ε α) : Meets x (x = .error ·) (x = .ok ·) := by
  cases x with
  | ok a => exact rfl
  | error e => exact rfl

theorem of_ok {a : α} (h : Meets x allowed P) (hx : x = .ok a) : P a := by
  subst hx
  exact h

theorem of_error {e : ε} (h : Meets x allowed P) (hx : x = .error e) : allowed e := by
  subst hx
  exact h

theorem mono {P' : α → Prop} (h : Meets x allowed P) (he : ∀ e, allowed e → allowed' e)
    (hP : ∀ a, P a → P' a) : Meets x allowed' P' := by
  cases x with
  | ok a => exact hP a h
  | error e => exact he e h

/-- What is known of a value by other means may be used as well. -/
theorem and_of_ok {P' : α → Prop} (h : Meets x allowed P) (h' : ∀ a, x = .ok a → P' a) :
    Meets x allowed fun a => P a ∧ P' a := by
  cases x with
  | ok a => exact ⟨h, h' a rfl⟩
  | error e => exact h

theorem bind {f : α → Except ε β} (hx : Meets x allowed P) (hf : ∀ a, P a → Meets (f a) allowed Q) :
    Meets (x >>= f) allowed Q := by
  cases x with
  | ok a => exact hf a hx
  | error e => exact hx

/-- A computation none of whose errors is allowed has a value. -/
theorem exists_ok (h : Meets x allowed P) (hne : ∀ e, ¬ allowed e) : ∃ a, x = .ok a ∧ P a := by
  cases x with
  | ok a => exact ⟨a, rfl, h⟩
  | error e => exact absurd h (hne e)

theorem mapM {f : α → Except ε β} {R : α → β → Prop} {xs : List α}
    (h : ∀ a ∈ xs, Meets (f a) allowed (R a)) :
    Meets (xs.mapM f) allowed fun ys => List.Forall₂ R xs ys := by
  induction xs with
  | nil => exact List.Forall₂.nil
  | cons x xs ih =>
    rw [List.mapM_cons]
    refine bind (h x List.mem_cons_self) fun y hy => ?_
    refine bind (ih fun a ha => h a (List.mem_cons_of_mem _ ha)) fun ys hys => ?_
    exact List.Forall₂.cons hy hys

/-- What every step of a loop keeps, told by the entries that it has been through. -/
theorem foldlM {f : β → α → Except ε β} {xs : List α} {I : List α → β → Prop} {b : β}
    (hb : I [] b)
    (h : ∀ done b, ∀ a ∈ xs, I done b → Meets (f b a) allowed (I (done ++ [a]))) :
    Meets (xs.foldlM f b) allowed (I xs) := by
  induction xs using List.reverseRecOn with
  | nil => exact pure hb
  | append_singleton xs x ih =>
    rw [List.foldlM_append]
    refine bind (ih fun done b a ha => h done b a (List.mem_append_left _ ha)) fun c hc => ?_
    rw [List.foldlM_cons]
    exact bind (h xs c x (by simp) hc) fun c' hc' => pure hc'

theorem mapError {δ : Type} {g : ε → δ} {allowed' : δ → Prop} (h : Meets x allowed P)
    (he : ∀ e, allowed e → allowed' (g e)) : Meets (x.mapError g) allowed' P := by
  cases x with
  | ok a => exact h
  | error e => exact he e h

end Meets

/-- Faults of numbers and tables that are too large, where there are some. -/
def Fault.OfSize (large : Prop) (e : Fault) : Prop := (e = .overflow ∨ e = .unaddressable) ∧ large

/-- The same for attempts, which are not refused. -/
def Stop.OfSize (large : Prop) : Stop ε → Prop
  | .fault e => e.OfSize large
  | .refused _ => False

variable {large large' : Prop}

theorem Fault.OfSize.mono (h : large → large') {e : Fault} (he : e.OfSize large) :
    e.OfSize large' :=
  ⟨he.1, h he.2⟩

theorem Stop.OfSize.mono (h : large → large') {e : Stop ε} (he : e.OfSize large) :
    e.OfSize large' := by
  cases e with
  | fault e => exact Fault.OfSize.mono h he
  | refused e => exact he

theorem Stop.OfSize.cause {e : Stop ε} (he : e.OfSize large) : large := by
  cases e with
  | fault e => exact he.2
  | refused e => exact he.elim

theorem Stop.OfSize.mapRefusal {δ : Type} (f : ε → δ) {e : Stop ε} (he : e.OfSize large) :
    (e.mapRefusal f).OfSize large := by
  cases e with
  | fault e => exact he
  | refused e => exact he

namespace Meets

/-- A checked computation inside an attempt. -/
theorem lift {x : Checked α} {P : α → Prop} (h : Meets x (Fault.OfSize large) P) :
    Meets (liftM x : Attempt ε α) (Stop.OfSize large) P := by
  cases x with
  | ok a => exact h
  | error e => exact h

theorem of_yields {x : Checked α} {a : α} (h : Yields x a) (hok : ¬ large → x = .ok a) :
    Meets x (Fault.OfSize large) (· = a) := by
  rcases h with h | h
  · exact of_eq_ok h rfl
  · rw [h]
    refine ⟨.inl rfl, ?_⟩
    by_contra hl
    rw [hok hl] at h
    cases h

end Meets

theorem Word.mul_eq {a b : Nat} (h : a * b < Word.bound) : Word.mul a b = .ok (a * b) := if_pos h

theorem Signed.add_eq {a b : Int} (hlow : -(Word.half : Int) ≤ a + b)
    (hhigh : a + b < (Word.half : Int)) : Signed.add a b = .ok (a + b) :=
  if_pos ⟨hlow, hhigh⟩

theorem Signed.mul_eq {a b : Int} (hlow : -(Word.half : Int) ≤ a * b)
    (hhigh : a * b < (Word.half : Int)) : Signed.mul a b = .ok (a * b) :=
  if_pos ⟨hlow, hhigh⟩

end TensorLoom
