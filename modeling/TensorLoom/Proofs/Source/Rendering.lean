import TensorLoom.Proofs.Layout.Accepted
import TensorLoom.Proofs.Layout.Folding
import TensorLoom.Proofs.Source.Address
import TensorLoom.Proofs.Source.Printing

/-!
# The text of an address says what the tracker reads

The expressions and conditions of an address are written so that they are read as they are meant
(`Tracker.address_readable`), and every tracker that movements make has an address
(`Tracker.exists_address`): a view is put on others only after their elements have been counted. So
the text of the address of a tracker, read as C reads it, says at which position the tracker reads,
and where it reads zero instead (`Tracker.valueOfText_address`).
-/

namespace TensorLoom

open Shape (InRange)
open IndexExpr (Readable Stand)

/-! ## Readable addresses -/

/-- A condition on an expression that may stand as a factor. -/
inductive Condition.Readable : Condition → Prop
  | never : Readable .never
  | atLeast {e : IndexExpr} (low : Nat) : e.Readable .factor → Readable (.atLeast e low)
  | lessThan {e : IndexExpr} (high : Nat) : e.Readable .factor → Readable (.lessThan e high)

/-- An address whose text is read as it is meant. -/
structure Address.Readable (a : Address) : Prop where
  position : a.position.Readable .factor
  conditions : ∀ c ∈ a.conditions, c.Readable

namespace IndexExpr

theorem readable_sumOf {first : IndexExpr} {rest : List IndexExpr} (hfirst : Readable .sum first)
    (hrest : ∀ e ∈ rest, Readable .term e) : Readable .sum (sumOf first rest) := by
  induction rest generalizing first with
  | nil => exact hfirst
  | cons e rest ih =>
    exact ih (.sum hfirst (hrest e List.mem_cons_self))
      fun e he => hrest e (List.mem_cons_of_mem _ he)

/-- The coordinates of an offset are quotients and remainders, which are written in brackets. -/
theorem readable_coordinatesAndSpan {offset : IndexExpr} (hoffset : Readable .factor offset)
    {shape : List Nat} {outermost : Bool} {es : List IndexExpr} {span : Nat}
    (h : coordinatesAndSpan offset outermost shape = .ok (es, span)) :
    ∀ e ∈ es, Readable .factor e := by
  induction shape generalizing outermost es span with
  | nil =>
    cases h
    exact List.forall_mem_nil _
  | cons dim inner ih =>
    obtain ⟨⟨rest, below⟩, hinner, h⟩ := bind_eq_ok.mp h
    obtain ⟨whole, -, h⟩ := bind_eq_ok.mp h
    cases h
    have hpart : Readable .factor (if below = 1 then offset else quotient offset below) := by
      split
      · exact hoffset
      · exact .quotient _ hoffset
    refine List.forall_mem_cons.mpr ⟨?_, ih hinner⟩
    split
    · exact .literal 0
    split
    · exact hpart
    · exact .remainder _ hpart

theorem readable_coordinates {offset : IndexExpr} (hoffset : Readable .factor offset)
    {shape : List Nat} {es : List IndexExpr} (h : offset.coordinates shape = .ok es) :
    ∀ e ∈ es, Readable .factor e := by
  unfold coordinates at h
  cases hc : coordinatesAndSpan offset true shape with
  | error e => rw [hc] at h; cases h
  | ok c =>
    rw [hc] at h
    cases h
    exact readable_coordinatesAndSpan hoffset hc

end IndexExpr

namespace View

/-- The position of an address is a sum of steps along the axes, in brackets. -/
theorem exists_terms (v : View) (idx : List IndexExpr) :
    ∃ first rest, (v.address idx).position = .group (.sumOf first rest) ∧
      ∀ e ∈ first :: rest, (∃ n, e = .literal n) ∨
        ∃ i ∈ idx, e = i ∨ ∃ stride, e = .scaled i stride := by
  unfold address
  dsimp only
  generalize hterms : (idx.zip v.axes).filterMap _ = terms
  have hterm : ∀ e ∈ terms, ∃ i ∈ idx, e = i ∨ ∃ stride, e = .scaled i stride := by
    intro e he
    rw [← hterms] at he
    obtain ⟨⟨i, a⟩, hmem, hterm⟩ := List.mem_filterMap.mp he
    refine ⟨i, (List.of_mem_zip hmem).1, ?_⟩
    dsimp only [Axis.term] at hterm
    split at hterm
    · cases hterm
    split at hterm
    · exact .inl (Option.some.inj hterm).symm
    · exact .inr ⟨_, (Option.some.inj hterm).symm⟩
  cases terms with
  | nil => exact ⟨.literal v.offset, [], rfl, by simp⟩
  | cons first rest =>
    refine ⟨first, _, rfl, fun e he => ?_⟩
    rcases List.mem_cons.mp he with rfl | he
    · exact .inr (hterm _ List.mem_cons_self)
    split at he
    · exact .inr (hterm e (List.mem_cons_of_mem _ he))
    · rcases List.mem_append.mp he with he | he
      · exact .inr (hterm e (List.mem_cons_of_mem _ he))
      · exact .inl ⟨_, List.mem_singleton.mp he⟩

/-- The conditions of an address are bounds on the indices. -/
theorem mem_conditions {v : View} {idx : List IndexExpr} {c : Condition}
    (hc : c ∈ (v.address idx).conditions) :
    c = .never ∨ ∃ i ∈ idx, ∃ n, c = .atLeast i n ∨ c = .lessThan i n := by
  dsimp only [address] at hc
  split at hc
  · obtain ⟨⟨i, a⟩, hmem, hc⟩ := List.mem_flatMap.mp hc
    have hi := (List.of_mem_zip hmem).1
    dsimp only [Axis.conditions] at hc
    split at hc
    · exact .inl (List.mem_singleton.mp hc)
    · rcases List.mem_append.mp hc with hc | hc
      · split at hc
        · exact .inr ⟨i, hi, _, .inl (List.mem_singleton.mp hc)⟩
        · cases hc
      · split at hc
        · exact .inr ⟨i, hi, _, .inr (List.mem_singleton.mp hc)⟩
        · cases hc
  · cases hc

theorem readable_address (v : View) {idx : List IndexExpr}
    (hidx : ∀ e ∈ idx, Readable .factor e) : (v.address idx).Readable where
  position := by
    obtain ⟨first, rest, hposition, hterms⟩ := v.exists_terms idx
    have hterms : ∀ e ∈ first :: rest, Readable .term e := by
      intro e he
      obtain ⟨n, rfl⟩ | ⟨i, hi, rfl | ⟨stride, rfl⟩⟩ := hterms e he
      · exact .signed n
      · exact .factor (hidx _ hi)
      · exact .scaled stride (hidx i hi)
    rw [hposition]
    exact .group (IndexExpr.readable_sumOf (.term (hterms first List.mem_cons_self))
      fun e he => hterms e (List.mem_cons_of_mem _ he))
  conditions := by
    intro c hc
    obtain rfl | ⟨i, hi, n, rfl | rfl⟩ := mem_conditions hc
    · exact .never
    · exact .atLeast n (hidx i hi)
    · exact .lessThan n (hidx i hi)

end View

/-- An address of indices that can be read can be read. -/
theorem Tracker.readable_addressFrom {top : View} {below : List View} {idx : List IndexExpr}
    (hidx : ∀ e ∈ idx, Readable .factor e) {a : Address} (h : addressFrom idx top below = .ok a) :
    a.Readable := by
  induction below generalizing top idx a with
  | nil => exact pure_eq_ok.mp h ▸ top.readable_address hidx
  | cons next below ih =>
    obtain ⟨es, hes, h⟩ := bind_eq_ok.mp h
    obtain ⟨lower, hlower, h⟩ := bind_eq_ok.mp h
    obtain rfl := pure_eq_ok.mp h
    have hhere := top.readable_address hidx
    have hlower := ih (IndexExpr.readable_coordinates hhere.position hes) hlower
    refine ⟨hlower.position, fun c hc => ?_⟩
    exact (List.mem_append.mp hc).elim (hhere.conditions c) (hlower.conditions c)

/-! ## Addresses that have values -/

/-- An expression has a value. -/
def IndexExpr.Defined (names : Names) (e : IndexExpr) : Prop := ∃ n, e.eval names = some n

namespace IndexExpr

variable {names : Names}

theorem Defined.scaled {e : IndexExpr} (h : e.Defined names) (stride : Int) :
    (scaled e stride).Defined names := by
  obtain ⟨n, hn⟩ := h
  exact ⟨_, by rw [eval, hn]; rfl⟩

theorem Defined.quotient {e : IndexExpr} (h : e.Defined names) {d : Nat} (hd : 0 < d) :
    (quotient e d).Defined names := by
  obtain ⟨n, hn⟩ := h
  exact ⟨_, by simp [eval, hn, Nat.ne_of_gt hd]; rfl⟩

theorem Defined.remainder {e : IndexExpr} (h : e.Defined names) {d : Nat} (hd : 0 < d) :
    (remainder e d).Defined names := by
  obtain ⟨n, hn⟩ := h
  exact ⟨_, by simp [eval, hn, Nat.ne_of_gt hd]; rfl⟩

theorem Defined.sumOf {first : IndexExpr} {rest : List IndexExpr} (hfirst : first.Defined names)
    (hrest : ∀ e ∈ rest, e.Defined names) : (sumOf first rest).Defined names := by
  induction rest generalizing first with
  | nil => exact hfirst
  | cons e rest ih =>
    obtain ⟨m, hm⟩ := hfirst
    obtain ⟨n, hn⟩ := hrest e List.mem_cons_self
    have hsum : (sum first e).Defined names := ⟨_, by rw [eval, hm, hn]; rfl⟩
    exact ih hsum fun e he => hrest e (List.mem_cons_of_mem _ he)

/-- The coordinates of an offset have values, unless the shape has more elements than a word can
count. -/
theorem exists_coordinatesAndSpan {offset : IndexExpr} (hoffset : offset.Defined names)
    {shape : List Nat} (hp : ∀ d ∈ shape, 0 < d) (hcount : shape.prod < Word.bound)
    (outermost : Bool) : ∃ es, coordinatesAndSpan offset outermost shape = .ok (es, shape.prod) ∧
      ∀ e ∈ es, e.Defined names := by
  induction shape generalizing outermost with
  | nil => exact ⟨[], rfl, by simp⟩
  | cons dim inner ih =>
    have hdim := hp dim List.mem_cons_self
    have hinner : ∀ d ∈ inner, 0 < d := fun d hd => hp d (List.mem_cons_of_mem _ hd)
    rw [List.prod_cons] at hcount
    obtain ⟨es, hes, hdefined⟩ := ih hinner
      (Nat.lt_of_le_of_lt (Nat.le_mul_of_pos_left _ hdim) hcount) false
    have hmul : Word.mul inner.prod dim = .ok (dim * inner.prod) := by
      rw [Word.mul, Word.check, Nat.mul_comm, if_pos hcount]
    let part := if inner.prod = 1 then offset else quotient offset inner.prod
    have hpart : part.Defined names := by
      dsimp only [part]
      split
      · exact hoffset
      · exact hoffset.quotient (Shape.prod_pos hinner)
    refine ⟨(if dim = 1 then literal 0 else if outermost then part else remainder part dim) :: es,
      ?_, List.forall_mem_cons.mpr ⟨?_, hdefined⟩⟩
    · rw [coordinatesAndSpan, hes]
      change Word.mul inner.prod dim >>= _ = _
      rw [hmul, List.prod_cons]
      rfl
    · split
      · exact ⟨0, rfl⟩
      split
      · exact hpart
      · exact hpart.remainder hdim

end IndexExpr

/-- The position and the conditions of an address have values. -/
structure Address.Defined (names : Names) (a : Address) : Prop where
  position : a.position.Defined names
  conditions : ∀ c ∈ a.conditions, ∃ b, c.eval names = some b

theorem View.defined_address (v : View) {names : Names} {idx : List IndexExpr}
    (hidx : ∀ e ∈ idx, e.Defined names) : (v.address idx).Defined names where
  position := by
    obtain ⟨first, rest, hposition, hterms⟩ := v.exists_terms idx
    have hterms : ∀ e ∈ first :: rest, e.Defined names := by
      intro e he
      obtain ⟨n, rfl⟩ | ⟨i, hi, rfl | ⟨stride, rfl⟩⟩ := hterms e he
      · exact ⟨n, rfl⟩
      · exact hidx _ hi
      · exact (hidx i hi).scaled stride
    rw [hposition]
    exact IndexExpr.Defined.sumOf (hterms first List.mem_cons_self)
      fun e he => hterms e (List.mem_cons_of_mem _ he)
  conditions := by
    intro c hc
    obtain rfl | ⟨i, hi, n, rfl | rfl⟩ := mem_conditions hc
    · exact ⟨false, rfl⟩
    · obtain ⟨m, hm⟩ := hidx i hi
      exact ⟨_, by rw [Condition.eval, hm]; rfl⟩
    · obtain ⟨m, hm⟩ := hidx i hi
      exact ⟨_, by rw [Condition.eval, hm]; rfl⟩

namespace Tracker

variable {t t' : Tracker} {bound : Nat}

/-- A word can count the elements of every view below the top. -/
def Countable (t : Tracker) : Prop := ∀ v ∈ t.below, v.shape.prod < Word.bound

theorem exists_addressFrom {top : View} {below : List View} (h : WithinFrom bound top below)
    (hcount : ∀ v ∈ below, v.shape.prod < Word.bound) {names : Names} {idx : List IndexExpr}
    (hidx : ∀ e ∈ idx, e.Defined names) :
    ∃ a, addressFrom idx top below = .ok a ∧ a.Defined names := by
  induction below generalizing top idx with
  | nil => exact ⟨_, rfl, top.defined_address hidx⟩
  | cons next below ih =>
    have hhere := top.defined_address hidx
    obtain ⟨es, hes, hdefined⟩ := IndexExpr.exists_coordinatesAndSpan hhere.position
      h.2.top.positive (hcount next List.mem_cons_self) true
    obtain ⟨lower, hlower, hlow⟩ := ih h.2 (fun v hv => hcount v (List.mem_cons_of_mem _ hv))
      hdefined
    refine ⟨{ lower with conditions := (top.address idx).conditions ++ lower.conditions }, ?_,
      hlow.position, fun c hc => ?_⟩
    · rw [addressFrom, IndexExpr.coordinates, hes]
      change addressFrom es next below >>= _ = _
      rw [hlower]
      rfl
    · exact (List.mem_append.mp hc).elim (hhere.conditions c) (hlow.conditions c)

/-! ## The elements of the views below are counted -/

/-- A row-major view has its elements counted, since the last stride spans them. -/
theorem prod_lt_of_contiguous {shape : List Nat} {v : View} (hf : ∀ d ∈ shape, d < Word.half)
    (h : View.contiguous shape = .ok v) : shape.prod < Word.bound := by
  obtain ⟨_, -, h⟩ := bind_eq_ok.mp h
  obtain ⟨strides, hstrides, -⟩ := bind_eq_ok.mp h
  have hstrides := liftM_eq_ok.mp hstrides
  rw [Shape.strides] at hstrides
  cases hspan : Shape.stridesAndSpan shape with
  | error e => rw [hspan] at hstrides; cases hstrides
  | ok r =>
    have hr := (Shape.stridesAndSpan_yields hf).eq_of_ok hspan
    cases shape with
    | nil => decide
    | cons dim inner =>
      obtain ⟨⟨rest, span⟩, -, hspan⟩ := bind_eq_ok.mp hspan
      obtain ⟨whole, hwhole, hspan⟩ := bind_eq_ok.mp hspan
      cases hspan
      obtain rfl : whole = _ := congrArg Prod.snd hr
      unfold Signed.mul Signed.check at hwhole
      split at hwhole
      · rename_i hrange
        have heq := Except.ok.inj hwhole
        rw [heq] at hrange
        have : Word.half < Word.bound := by decide
        omega
      · cases hwhole

/-- A tracker with the views of another one below its top, or with all of them, if its elements have
been counted. -/
def StandsOn (t t' : Tracker) : Prop :=
  t'.below = t.below ∨ t'.below = t.top :: t.below ∧ t.shape.prod < Word.bound

theorem Countable.standsOn (h : t.Countable) (hs : t.StandsOn t') : t'.Countable := by
  intro v hv
  rcases hs with hbelow | ⟨hbelow, hcount⟩
  · exact h v (hbelow ▸ hv)
  · rw [hbelow] at hv
    rcases List.mem_cons.mp hv with rfl | hv
    · exact hcount
    · exact h v hv

theorem Countable.collapse (h : t.Countable) (hc : t.collapse = .ok t') : t'.Countable := by
  have hbelow := (collapse_sublist hc).tail
  exact fun v hv => h v (hbelow.subset hv)

theorem standsOn_reshape {shape : List Nat} (h : t.reshape shape = .ok t') : t.StandsOn t' := by
  obtain ⟨-, hcount, h⟩ := reshape_eq_ok h
  cases h with
  | same _ | row _ _ | edited _ => exact .inl rfl
  | pushed _ _ => exact .inr ⟨rfl, hcount⟩

theorem standsOn_stride {steps : List Int} (hf : ∀ d ∈ t.shape, d < Word.half)
    (h : t.stride steps = .ok t') : t.StandsOn t' := by
  obtain ⟨-, u, w, rfl, -, ⟨-, rfl⟩ | ⟨-, row, hrow, rfl⟩⟩ := stride_eq_ok h
  · exact .inl rfl
  · exact .inr ⟨rfl, prod_lt_of_contiguous hf hrow⟩

theorem Countable.move {m : Movement} (h : t.Countable) (hf : ∀ d ∈ t.shape, d < Word.half)
    (hm : t.move m = .ok t') : t'.Countable := by
  obtain ⟨moved, hc, hmoved⟩ := move_eq_ok hm
  refine (h.standsOn ?_).collapse hc
  cases m with
  | reshape shape => exact standsOn_reshape hmoved
  | permute axes => exact .inl ((permute_eq_ok hmoved).2 ▸ rfl)
  | expand shape => exact .inl ((expand_eq_ok hmoved).2 ▸ rfl)
  | pad amounts =>
    obtain ⟨-, ⟨-, rfl⟩ | ⟨w, -, rfl⟩⟩ := pad_eq_ok hmoved
    · exact .inl rfl
    · exact .inl rfl
  | shrink ranges =>
    obtain ⟨-, w, -, rfl⟩ := shrink_eq_ok hmoved
    exact .inl rfl
  | stride steps => exact standsOn_stride hf hmoved

theorem Countable.moveAll {ms : List Movement} (h : t.Countable) (hw : t.Within bound)
    (hf : Movement.AllFit t.shape ms) (hm : t.moveAll ms = .ok t') : t'.Countable := by
  induction ms generalizing t with
  | nil => exact pure_eq_ok.mp hm ▸ h
  | cons m ms ih =>
    rw [Tracker.moveAll, List.foldlM_cons] at hm
    obtain ⟨t₁, ht₁, hm⟩ := bind_eq_ok.mp hm
    have hmoves := (move_settles hw m fun hv => (hf.2 hv).head).of_ok ht₁
    have hfit := hf.2 hmoves.valid
    rw [← hmoves.shape] at hfit
    exact ih (h.move hw.fits ht₁) hmoves.within hfit hm

/-- What is known of a tracker that movements make of a row-major buffer. -/
theorem within_countable {shape : List Nat} {ms : List Movement} (hf : Movement.AllFit shape ms)
    (h : (do (← ofShape shape).moveAll ms) = .ok t) : t.Within shape.prod ∧ t.Countable := by
  obtain ⟨start, hstart, hm⟩ := bind_eq_ok.mp h
  obtain ⟨hp, rfl⟩ := (ofShape_settles hf.head).of_ok hstart
  refine ⟨((ofShape_moveAll_settles hp ms hf).of_ok h).2.1, ?_⟩
  have hempty : Countable ⟨View.row shape, []⟩ := fun v hv => absurd hv List.not_mem_nil
  have hshape : Tracker.shape ⟨View.row shape, []⟩ = shape := View.shape_row shape
  exact hempty.moveAll (within_row hp hf.head) (hshape.symm ▸ hf) hm

end Tracker

/-! ## What the text says -/

variable {names : Names}

namespace Condition

/-- The tokens of a condition. -/
def tokens : Condition → List CToken
  | never => [.number 0]
  | atLeast e low => .opening :: (e.tokens ++ .operator .ge :: [.number low]) ++ [.closing]
  | lessThan e high => .opening :: (e.tokens ++ .operator .lt :: [.number high]) ++ [.closing]

/-- What a condition is read as. -/
def tree : Condition → CExpr
  | never => .number 0
  | atLeast e low => .binary .ge e.tree (.number low)
  | lessThan e high => .binary .lt e.tree (.number high)

namespace Readable

variable {c : Condition}

/-- The text of a condition is cut into its tokens. -/
theorem lexes (h : c.Readable) : Lexes c.text.toList c.tokens := by
  cases h with
  | never => exact lexes_number 0
  | @atLeast e low he =>
    have := (he.lexes.joint (c := '>') (d := '=') rfl rfl (lexes_number low)).bracketed
    simpa [text, tokens] using this
  | @lessThan e high he =>
    have := (he.lexes.mark (c := '<') rfl (lexes_number high) (by simp)).bracketed
    simpa [text, tokens] using this

/-- Its tokens are put together to its tree. -/
theorem readsAs (h : c.Readable) : ReadsAs c.tokens c.tree := by
  cases h with
  | never => exact .number 0
  | atLeast low he => exact he.readsAs.bracketed .ge (.number low)
  | lessThan high he => exact he.readsAs.bracketed .lt (.number high)

/-- Its tree has the value 1 where the condition holds and 0 where it fails. -/
theorem eval_tree (h : c.Readable) {scope : CScope}
    (hnames : ∀ (n : Nat) v, scope.ints (toString n) = some v → v = n) {b : Bool}
    (hb : c.eval scope.ints = some b) : c.tree.eval scope = some (.int (if b then 1 else 0)) := by
  cases h with
  | never =>
    cases hb
    rfl
  | atLeast low he =>
    obtain ⟨n, hn, hb⟩ := Option.bind_eq_some_iff.mp hb
    cases hb
    simp [tree, CExpr.eval, CValue.apply, COperator.apply, he.eval_tree hnames hn]
  | lessThan high he =>
    obtain ⟨n, hn, hb⟩ := Option.bind_eq_some_iff.mp hb
    cases hb
    simp [tree, CExpr.eval, CValue.apply, COperator.apply, he.eval_tree hnames hn]

/-- The text of a condition has the value 1 where the condition holds and 0 where it fails. -/
theorem valueOfText_eq (h : c.Readable)
    (hnames : ∀ (n : Nat) v, names (toString n) = some v → v = n) {b : Bool}
    (hb : c.eval names = some b) : valueOfText names c.text = some (if b then 1 else 0) := by
  have htree : c.tree.eval (.ofNames names) = some (.int (if b then 1 else 0)) :=
    h.eval_tree hnames hb
  rw [valueOfText, h.lexes.read_eq, h.readsAs.readTokens_eq, Option.bind_eq_bind,
    Option.bind_some, htree]
  rfl

end Readable

end Condition

/-- Conditions hold together if each of them holds. -/
theorem Condition.evalAll_eq_true_iff {cs : List Condition} :
    evalAll names cs = some true ↔ ∀ c ∈ cs, c.eval names = some true := by
  induction cs with
  | nil => simp [evalAll]
  | cons c cs ih =>
    rw [evalAll, List.forall_mem_cons, ← ih]
    cases hc : c.eval names with
    | none => simp
    | some b => cases b <;> simp

namespace Tracker

/-- An address that says what is read at an index says so in its text. -/
theorem Says.valueOfText {address : Address} {position : Option Nat}
    (h : Says names address position) (ha : address.Readable)
    (hdefined : address.Defined names)
    (hnames : ∀ (n : Nat) v, names (toString n) = some v → v = n) :
    ((∀ c ∈ address.conditions, valueOfText names c.text = some 1) ↔ position.isSome = true) ∧
      ∀ o, position = some o → valueOfText names address.position.text = some (o : Int) := by
  have htrue : (∀ c ∈ address.conditions, TensorLoom.valueOfText names c.text = some 1) ↔
      Condition.evalAll names address.conditions = some true := by
    rw [Condition.evalAll_eq_true_iff]
    refine forall₂_congr fun c hc => ?_
    obtain ⟨b, hb⟩ := hdefined.conditions c hc
    rw [hb, (ha.conditions c hc).valueOfText_eq hnames hb]
    cases b <;> simp
  rw [htrue]
  cases position with
  | none =>
    have hfails : Condition.evalAll names address.conditions = some false := h
    simp [hfails]
  | some n =>
    refine ⟨by simp [h.1], ?_⟩
    rintro _ ⟨⟩
    exact ha.position.valueOfText_eq hnames h.2

theorem inRange_broadcastIndex {idx shape : List Nat}
    (h : List.Forall₂ (fun i size => size = 1 ∨ i < size) idx shape) :
    InRange (broadcastIndex idx shape) shape := by
  induction h with
  | nil => exact .nil
  | cons hi _ ih =>
    refine .cons ?_ ih
    dsimp only
    split
    · omega
    · exact hi.resolve_left ‹_›

/-- The text of an address agrees with the index function. A tracker that movements make of a
row-major buffer has an address for any names of the indices. If the names have values that are
indices, up to those on unit axes, then each condition has the value 0 or 1, all of them have the
value 1 exactly if the index reads a position, and that position is the value of the expression. -/
theorem valueOfText_address {shape : List Nat} {ms : List Movement} {t : Tracker}
    (hf : Movement.AllFit shape ms) (h : (do (← ofShape shape).moveAll ms) = .ok t)
    {atoms : List String} (hatoms : ∀ s ∈ atoms, IsAtom s) {value : String → Nat}
    (hvalue : ∀ n : Nat, value (toString n) = n)
    (hin : List.Forall₂ (fun s size => size = 1 ∨ value s < size) atoms t.shape) :
    ∃ address position, t.address (atoms.map .name) = .ok address ∧
      Yields (t.index (broadcastIndex (atoms.map value) t.shape)) position ∧
      (∀ c ∈ address.conditions, valueOfText (fun s => some (value s : Int)) c.text = some 0 ∨
        valueOfText (fun s => some (value s : Int)) c.text = some 1) ∧
      ((∀ c ∈ address.conditions, valueOfText (fun s => some (value s : Int)) c.text = some 1) ↔
        position.isSome = true) ∧
      ∀ o, position = some o →
        valueOfText (fun s => some (value s : Int)) address.position.text = some (o : Int) := by
  obtain ⟨hw, hcount⟩ := within_countable hf h
  have hnames : ∀ (n : Nat) v,
      (fun s => some (value s : Int) : Names) (toString n) = some v → v = n := by
    intro n v hv
    rw [← Option.some.inj hv, hvalue]
  have hidx : ∀ e ∈ atoms.map IndexExpr.name,
      Readable .factor e ∧ e.Defined fun s => some (value s : Int) := by
    intro e he
    obtain ⟨s, hs, rfl⟩ := List.mem_map.mp he
    exact ⟨.name (hatoms s hs), _, rfl⟩
  obtain ⟨address, haddress, hdefined⟩ :=
    exists_addressFrom hw hcount fun e he => (hidx e he).2
  have hreadable := readable_addressFrom (fun e he => (hidx e he).1) haddress
  have hstand : Stand (fun s => some (value s : Int)) (atoms.map .name) (atoms.map value) := by
    rw [Stand, List.forall₂_map_left_iff, List.forall₂_map_right_iff]
    exact List.forall₂_same.mpr fun _ _ => rfl
  have hinRange : InRange (broadcastIndex (atoms.map value) t.shape) t.shape :=
    inRange_broadcastIndex (List.forall₂_map_left_iff.mpr hin)
  have hsays := says_address hw hstand hinRange haddress
  refine ⟨address, _, haddress, index_yields hw hinRange, fun c hc => ?_,
    hsays.valueOfText hreadable hdefined hnames⟩
  obtain ⟨b, hb⟩ := hdefined.conditions c hc
  rw [(hreadable.conditions c hc).valueOfText_eq hnames hb]
  cases b with
  | false => exact .inl rfl
  | true => exact .inr rfl

/-- The value of a numeral, and 2 for every other name. -/
def numeralOrTwo (s : String) : Nat :=
  match wordToken s.toList with
  | some (.number n) => n
  | _ => 2

/-- A buffer padded, transposed and flattened, every second element of that from the end, and a unit
axis behind. The element at `i = 2` is the first one of the buffer, whatever stands for the index on
the unit axis. -/
theorem valueOfText_address_flattened :
    ∃ t address, (do
        let t ← ofShape [2, 2]
        t.moveAll [.pad [(1, 0), (0, 0)], .permute [1, 0], .reshape [6], .stride [-2],
          .reshape [3, 1]]) = .ok t ∧
      t.address [.name "i", .name "7"] = .ok address ∧
      address.conditions.map (·.text) = ["(((i*-2+5)%3)>=1)"] ∧
      address.position.text = "(((i*-2+5)/3)+((i*-2+5)%3)*2+-2)" ∧
      (∀ c ∈ address.conditions,
        valueOfText (fun s => some (numeralOrTwo s : Int)) c.text = some 1) ∧
      valueOfText (fun s => some (numeralOrTwo s : Int)) address.position.text = some 0 := by
  have hatoms : ∀ s ∈ ["i", "7"], IsAtom s := by
    intro s hs
    rcases List.mem_cons.mp hs with rfl | hs
    · exact @IsAtom.identifier _ 'i' [] rfl rfl (List.forall_mem_singleton.mpr rfl)
    · obtain rfl := List.mem_singleton.mp hs
      exact .literal 7
  have hnumeral : ∀ n : Nat, numeralOrTwo (toString n) = n := by
    intro n
    rw [numeralOrTwo, wordToken_toString]
  obtain ⟨address, position, haddress, hindex, -, hconditions, hposition⟩ :=
    @valueOfText_address [2, 2]
      [.pad [(1, 0), (0, 0)], .permute [1, 0], .reshape [6], .stride [-2], .reshape [3, 1]]
      _ (by decide) rfl ["i", "7"] hatoms numeralOrTwo hnumeral (by decide)
  obtain rfl : some 0 = position := hindex.eq_of_ok (by decide +kernel)
  refine ⟨_, address, rfl, haddress, ?_, ?_, hconditions.mpr rfl, hposition 0 rfl⟩
  · cases haddress
    decide +kernel
  · cases haddress
    decide +kernel

end Tracker

end TensorLoom
