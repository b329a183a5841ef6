import TensorLoom.Proofs.Kernel.Space
import TensorLoom.Proofs.Layout.Reading
import TensorLoom.Proofs.Source.Execution

/-!
# Addresses mean what trackers read

Symbolic indices stand for an index where their values are its entries (`IndexExpr.Stand`). At such
indices the address of a tracker has the position that the tracker reads, and its conditions hold
where it reads one (`Tracker.says_address`).

An address is written for the axes of a whole iteration space. On an axis that an operand does not
span it has no stride, and its bounds admit every position or none, so the entry there does not
matter.
-/

namespace TensorLoom

open Shape (InRange indexAt)

namespace IndexExpr

/-- Symbolic indices stand for an index. -/
def Stand (names : Names) (es : List IndexExpr) (idx : List Nat) : Prop :=
  List.Forall₂ (fun e (i : Nat) => e.eval names = some (i : Int)) es idx

variable {names : Names}

theorem eval_sumOf {first : IndexExpr} {x : Int} {rest : List IndexExpr} {xs : List Int}
    (hfirst : first.eval names = some x)
    (hrest : List.Forall₂ (fun e n => e.eval names = some n) rest xs) :
    (sumOf first rest).eval names = some (x + xs.sum) := by
  induction hrest generalizing first x with
  | nil => simpa [sumOf] using hfirst
  | @cons e n rest xs he _ ih =>
    have hsum : (first.sum e).eval names = some (x + n) := by simp [eval, hfirst, he]
    rw [List.sum_cons, ← Int.add_assoc]
    exact ih hsum

theorem eval_quotient {e : IndexExpr} {n d : Nat} (h : e.eval names = some (n : Int)) (hd : 0 < d) :
    (quotient e d).eval names = some ((n / d : Nat) : Int) := by
  simp [eval, h, Nat.ne_of_gt hd]

theorem eval_remainder {e : IndexExpr} {n d : Nat} (h : e.eval names = some (n : Int))
    (hd : 0 < d) :
    (remainder e d).eval names = some ((n % d : Nat) : Int) := by
  simp [eval, h, Nat.ne_of_gt hd, Int.tmod_eq_emod_of_nonneg]

/-- The coordinates of an offset stand for its index. The outermost one is right only inside the
shape. -/
theorem stand_coordinatesAndSpan {offset : IndexExpr} {flat : Nat} {shape : List Nat}
    {outermost : Bool} {es : List IndexExpr} {span : Nat}
    (hoffset : offset.eval names = some (flat : Int)) (hp : ∀ d ∈ shape, 0 < d)
    (hin : outermost = true → flat < shape.prod)
    (h : coordinatesAndSpan offset outermost shape = .ok (es, span)) :
    span = shape.prod ∧ Stand names es (indexAt flat shape) := by
  induction shape generalizing outermost es span with
  | nil =>
    cases h
    exact ⟨rfl, .nil⟩
  | cons dim inner ih =>
    obtain ⟨⟨rest, s⟩, hinner, h⟩ := bind_eq_ok.mp h
    obtain ⟨whole, hwhole, h⟩ := bind_eq_ok.mp h
    cases h
    obtain ⟨rfl, hrest⟩ := ih (fun d hd => hp d (List.mem_cons_of_mem _ hd)) (by simp) hinner
    have hdim := hp dim List.mem_cons_self
    have hspan := Shape.prod_pos fun d hd => hp d (List.mem_cons_of_mem _ hd)
    refine ⟨?_, .cons ?_ hrest⟩
    · rw [(Word.mul_yields _ _).eq_of_ok hwhole, List.prod_cons, Nat.mul_comm]
    have hpart : (if inner.prod = 1 then offset else quotient offset inner.prod).eval names =
        some ((flat / inner.prod : Nat) : Int) := by
      split
      · rename_i h1
        rwa [h1, Nat.div_one]
      · exact eval_quotient hoffset hspan
    by_cases h1 : dim = 1
    · rw [if_pos h1, h1, Nat.mod_one]
      rfl
    · rw [if_neg h1]
      cases outermost with
      | true =>
        have hlt : flat / inner.prod < dim := Nat.div_lt_of_lt_mul (by
          rw [Nat.mul_comm, ← List.prod_cons]
          exact hin rfl)
        rw [if_pos rfl, Nat.mod_eq_of_lt hlt]
        exact hpart
      | false => exact eval_remainder hpart hdim

theorem stand_coordinates {offset : IndexExpr} {flat : Nat} {shape : List Nat}
    {es : List IndexExpr} (hoffset : offset.eval names = some (flat : Int))
    (hp : ∀ d ∈ shape, 0 < d) (hin : flat < shape.prod)
    (h : offset.coordinates shape = .ok es) : Stand names es (indexAt flat shape) := by
  unfold coordinates at h
  cases hc : coordinatesAndSpan offset true shape with
  | error e => rw [hc] at h; cases h
  | ok c =>
    rw [hc] at h
    cases h
    exact (stand_coordinatesAndSpan hoffset hp (fun _ => hin) hc).2

end IndexExpr

open IndexExpr (Stand)

variable {names : Names}

/-! ## Conditions -/

theorem Condition.evalAll_singleton {c : Condition} {b : Bool} (h : c.eval names = some b) :
    evalAll names [c] = some b := by
  rw [evalAll, h]
  cases b <;> rfl

theorem Condition.evalAll_append {cs ds : List Condition} {b c : Bool}
    (hcs : evalAll names cs = some b) (hds : evalAll names ds = some c) :
    evalAll names (cs ++ ds) = some (b && c) := by
  induction cs generalizing b with
  | nil =>
    cases hcs
    simpa using hds
  | cons x cs ih =>
    rw [evalAll] at hcs
    rw [List.cons_append, evalAll]
    cases hx : x.eval names with
    | none => simp [hx] at hcs
    | some holds =>
      cases holds with
      | false =>
        simp only [hx, Option.bind_eq_bind, Option.bind_some] at hcs ⊢
        cases hcs
        rfl
      | true =>
        simp only [hx, Option.bind_eq_bind, Option.bind_some, if_pos] at hcs ⊢
        exact ih hcs

/-- A list of conditions fails if the first ones do, whatever the others are. -/
theorem Condition.evalAll_append_of_false {cs : List Condition} (ds : List Condition)
    (hcs : evalAll names cs = some false) : evalAll names (cs ++ ds) = some false := by
  induction cs with
  | nil => cases hcs
  | cons x cs ih =>
    rw [evalAll] at hcs
    rw [List.cons_append, evalAll]
    cases hx : x.eval names with
    | none => simp [hx] at hcs
    | some holds =>
      cases holds with
      | false => rfl
      | true =>
        simp only [hx, Option.bind_eq_bind, Option.bind_some, if_pos] at hcs ⊢
        exact ih hcs

/-- The conditions of an axis hold where it admits the position. A unit axis has one position. -/
theorem Axis.evalAll_conditions {a : Axis} (ha : a.Bounded) {e : IndexExpr} {i : Nat}
    (he : e.eval names = some (i : Int)) (hi : a.size = 1 ∨ i < a.size) :
    Condition.evalAll names (a.conditions e) =
      some (a.admits (if a.size = 1 then 0 else i)) := by
  have hle := ha.high_le
  unfold conditions
  split
  · rename_i hempty
    have : a.admits (if a.size = 1 then 0 else i) = false := by
      rw [← Bool.not_eq_true, admits_iff]
      omega
    rw [this]
    rfl
  · rename_i hne
    have hlow : Condition.evalAll names (if 0 < a.low then [.atLeast e a.low] else []) =
        some (decide (a.low ≤ if a.size = 1 then 0 else i)) := by
      split
      · have : a.size ≠ 1 := by omega
        rw [if_neg this]
        exact Condition.evalAll_singleton (by simp [Condition.eval, he])
      · rw [decide_eq_true (by omega)]
        rfl
    have hhigh : Condition.evalAll names (if a.high < a.size then [.lessThan e a.high] else []) =
        some (decide ((if a.size = 1 then 0 else i) < a.high)) := by
      split
      · have : a.size ≠ 1 := by omega
        rw [if_neg this]
        exact Condition.evalAll_singleton (by simp [Condition.eval, he])
      · rw [decide_eq_true (by split <;> omega)]
        rfl
    rw [Condition.evalAll_append hlow hhigh]
    rfl

/-! ## Addresses -/

/-- The term of an axis is its step, and an axis without one takes none. -/
theorem Axis.eval_term {a : Axis} {e : IndexExpr} {n : Nat} (he : e.eval names = some (n : Int)) :
    (a.stride = 0 ∧ a.term e = none) ∨
      (a.stride ≠ 0 ∧ ∃ e', a.term e = some e' ∧ e'.eval names = some ((n : Int) * a.stride)) := by
  unfold term
  by_cases h0 : a.stride = 0
  · exact .inl ⟨h0, if_pos h0⟩
  rw [if_neg h0]
  by_cases h1 : a.stride = 1
  · exact .inr ⟨h0, e, if_pos h1, by rw [h1, Int.mul_one]; exact he⟩
  · exact .inr ⟨h0, _, if_neg h1, by simp [IndexExpr.eval, he]⟩

namespace View

/-- The steps of the axes that have a stride. -/
theorem sum_filterMap_steps {axes : List Axis} {i : List Nat} :
    ((i.zip axes).filterMap fun (n, a) =>
      if a.stride = 0 then none else some ((n : Int) * a.stride)).sum = steps i axes := by
  induction axes generalizing i with
  | nil => simp
  | cons a axes ih =>
    cases i with
    | nil => rfl
    | cons n i =>
      rw [List.zip_cons_cons, List.filterMap_cons, steps_cons, ← ih]
      by_cases h : a.stride = 0
      · simp [h]
      · simp [h]

theorem stand_terms (axes : List Axis) {idx : List IndexExpr} {i : List Nat}
    (hi : Stand names idx i) :
    List.Forall₂ (fun e n => e.eval names = some n)
      ((idx.zip axes).filterMap fun (e, a) => a.term e)
      ((i.zip axes).filterMap fun (n, a) =>
        if a.stride = 0 then none else some ((n : Int) * a.stride)) := by
  induction hi generalizing axes with
  | nil => exact .nil
  | @cons e n idx i he _ ih =>
    cases axes with
    | nil => exact .nil
    | cons a axes =>
      rw [List.zip_cons_cons, List.zip_cons_cons]
      rcases Axis.eval_term (a := a) he with ⟨h0, hnone⟩ | ⟨h0, e', hsome, he'⟩
      · simp only [List.filterMap_cons, hnone, h0, if_pos]
        exact ih axes
      · simp only [List.filterMap_cons, hsome, if_neg h0]
        exact .cons he' (ih axes)

/-- The position of an address is the offset of the index. -/
theorem eval_address {v : View} {idx : List IndexExpr} {i : List Nat} (hi : Stand names idx i) :
    (v.address idx).position.eval names = some (v.offset + steps i v.axes) := by
  have hterms := stand_terms v.axes hi
  rw [← sum_filterMap_steps]
  unfold address
  simp only [IndexExpr.eval]
  generalize (i.zip v.axes).filterMap _ = ns at hterms ⊢
  generalize (idx.zip v.axes).filterMap _ = es at hterms ⊢
  cases hterms with
  | nil => simp [IndexExpr.eval]
  | @cons e n es ns he hes =>
    by_cases h0 : v.offset = 0
    · simp only [h0, if_pos]
      rw [IndexExpr.eval_sumOf he hes, List.sum_cons, Int.zero_add]
    · have hoffset : List.Forall₂ (fun e n => e.eval names = some n)
          (es ++ [.literal v.offset]) (ns ++ [v.offset]) :=
        List.rel_append hes (.cons rfl .nil)
      simp only [h0, if_false]
      rw [IndexExpr.eval_sumOf he hoffset, List.sum_append, List.sum_singleton, List.sum_cons]
      congr 1
      ring

/-- An entry on an axis that is not spanned takes no step. -/
theorem steps_broadcastIndex {axes : List Axis} (ha : ∀ a ∈ axes, a.Tidy) (i : List Nat) :
    steps (broadcastIndex i (axes.map (·.size))) axes = steps i axes := by
  induction axes generalizing i with
  | nil => simp
  | cons a axes ih =>
    cases i with
    | nil => rfl
    | cons n i =>
      have hcons : broadcastIndex (n :: i) ((a :: axes).map (·.size)) =
          (if a.size = 1 then 0 else n) :: broadcastIndex i (axes.map (·.size)) := rfl
      rw [hcons, steps_cons, steps_cons, ih fun b hb => ha b (List.mem_cons_of_mem _ hb)]
      split
      · rw [(ha a List.mem_cons_self).still ‹_›]
        simp
      · rfl

theorem evalAll_conditions {axes : List Axis} (ha : ∀ a ∈ axes, a.Bounded) {idx : List IndexExpr}
    {i : List Nat} (hi : Stand names idx i)
    (hin : InRange (broadcastIndex i (axes.map (·.size))) (axes.map (·.size))) :
    Condition.evalAll names ((idx.zip axes).flatMap fun (e, a) => a.conditions e) =
      some (admits (broadcastIndex i (axes.map (·.size))) axes) := by
  induction hi generalizing axes with
  | nil =>
    cases axes with
    | nil => rfl
    | cons a axes => cases hin
  | @cons e n idx i he _ ih =>
    cases axes with
    | nil => rfl
    | cons a axes =>
      have hcons : broadcastIndex (n :: i) ((a :: axes).map (·.size)) =
          (if a.size = 1 then 0 else n) :: broadcastIndex i (axes.map (·.size)) := rfl
      rw [hcons, List.map_cons] at hin
      obtain ⟨hn, hin⟩ := List.forall₂_cons.mp hin
      have hone : a.size = 1 ∨ n < a.size := by
        by_cases h1 : a.size = 1
        · exact .inl h1
        · rw [if_neg h1] at hn
          exact .inr hn
      rw [hcons, List.zip_cons_cons, List.flatMap_cons, admits_cons]
      exact Condition.evalAll_append (Axis.evalAll_conditions (ha a List.mem_cons_self) he hone)
        (ih (fun b hb => ha b (List.mem_cons_of_mem _ hb)) hin)

/-- Its conditions hold where the bounds admit the index. -/
theorem evalAll_address {v : View} (hv : ∀ a ∈ v.axes, a.Tidy) {idx : List IndexExpr}
    {i : List Nat} (hi : Stand names idx i)
    (hin : InRange (broadcastIndex i v.shape) v.shape) :
    Condition.evalAll names (v.address idx).conditions =
      some (admits (broadcastIndex i v.shape) v.axes) := by
  unfold address
  dsimp only
  cases hm : v.isMasked with
  | true => exact evalAll_conditions (fun a ha => (hv a ha).toBounded) hi hin
  | false =>
    rw [admits_of_isMasked hm hin]
    rfl

/-- Where a view reads nothing the conditions of its address fail. Elsewhere they hold, and the
position is the one that is read. -/
theorem address_cases {v : View} {bound : Nat} (hv : v.Within bound) {idx : List IndexExpr}
    {i : List Nat} (hi : Stand names idx i) (hin : InRange (broadcastIndex i v.shape) v.shape) :
    (v.read (broadcastIndex i v.shape) = none ∧
        Condition.evalAll names (v.address idx).conditions = some false) ∨
      ∃ n : Nat, n < bound ∧ v.read (broadcastIndex i v.shape) = some (n : Int) ∧
        Condition.evalAll names (v.address idx).conditions = some true ∧
        (v.address idx).position.eval names = some (n : Int) := by
  have hconditions := evalAll_address hv.tidy hi hin
  cases hadmits : admits (broadcastIndex i v.shape) v.axes with
  | false =>
    rw [hadmits] at hconditions
    exact .inl ⟨by rw [read, if_neg (by simp [hadmits])], hconditions⟩
  | true =>
    rw [hadmits] at hconditions
    have hread := read_of_admits hadmits
    obtain ⟨h0, hlt⟩ := hv.inside _ hin _ hread
    have hsteps : steps (broadcastIndex i v.shape) v.axes = steps i v.axes :=
      steps_broadcastIndex hv.tidy i
    rw [hsteps] at hread h0 hlt
    obtain ⟨n, hn⟩ := Int.eq_ofNat_of_zero_le h0
    rw [hn] at hread hlt
    exact .inr ⟨n, by omega, hread, hconditions, by rw [eval_address hi, hn]⟩

end View

namespace Tracker

variable {bound : Nat}

/-- What an address says: a position to be read, or conditions that fail. -/
def Says (names : Names) (address : Address) : Option Nat → Prop
  | some n => Condition.evalAll names address.conditions = some true ∧
    address.position.eval names = some (n : Int)
  | none => Condition.evalAll names address.conditions = some false

theorem says_addressFrom {top : View} {below : List View} (h : WithinFrom bound top below)
    {idx : List IndexExpr} {i : List Nat} (hi : Stand names idx i)
    (hin : InRange (broadcastIndex i top.shape) top.shape) {address : Address}
    (ha : addressFrom idx top below = .ok address) :
    Says names address (readFrom (broadcastIndex i top.shape) top below) := by
  induction below generalizing top idx i address with
  | nil =>
    obtain rfl := pure_eq_ok.mp ha
    rcases View.address_cases h hi hin with ⟨hread, hfails⟩ | ⟨n, -, hread, hholds, hposition⟩
    · rw [readFrom_eq_none hread]
      exact hfails
    · rw [readFrom, hread, Option.bind_some, Tracker.position_natCast]
      exact ⟨hholds, hposition⟩
  | cons next below ih =>
    obtain ⟨es, hes, ha⟩ := bind_eq_ok.mp ha
    obtain ⟨lower, hlower, ha⟩ := bind_eq_ok.mp ha
    obtain rfl := pure_eq_ok.mp ha
    rcases View.address_cases h.1 hi hin with ⟨hread, hfails⟩ | ⟨n, hn, hread, hholds, hposition⟩
    · rw [readFrom_eq_none hread]
      exact Condition.evalAll_append_of_false _ hfails
    · have hpositive := h.2.top.positive
      have hes := IndexExpr.stand_coordinates hposition hpositive hn hes
      have hinRange := Shape.indexAt_inRange n hpositive
      have hbroadcast := Broadcasts.index_of_inRange hinRange
      rw [readFrom_cons hread hn]
      have hlower := ih h.2 hes (by rwa [hbroadcast]) hlower
      rw [hbroadcast] at hlower
      cases hr : readFrom (indexAt n next.shape) next below with
      | none =>
        rw [hr] at hlower
        exact Condition.evalAll_append hholds hlower
      | some m =>
        rw [hr] at hlower
        exact ⟨Condition.evalAll_append hholds hlower.1, hlower.2⟩

/-- The address of a tracker at symbolic indices says what the tracker reads at the index that they
stand for. -/
theorem says_address {t : Tracker} (h : t.Within bound) {idx : List IndexExpr} {i : List Nat}
    (hi : Stand names idx i) (hin : InRange (broadcastIndex i t.shape) t.shape) {address : Address}
    (ha : t.address idx = .ok address) : Says names address (t.read (broadcastIndex i t.shape)) :=
  says_addressFrom h hi hin ha

end Tracker

end TensorLoom
