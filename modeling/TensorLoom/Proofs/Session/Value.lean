import TensorLoom.Kernel.Evaluate
import TensorLoom.Session.Basic
import TensorLoom.Proofs.Layout.Folding
import TensorLoom.Proofs.OpTree.Walk
import Mathlib.Algebra.BigOperators.Group.List.Lemmas
import Mathlib.Data.List.GetD

/-!
# What tensors hold

The value of a tensor is that of its tree, in which a leaf stands for the value of an older tensor
(`Session.value`). A tree is evaluated node by node (`OpTree.value?`): pointwise operations cell by
cell, movements by reading through the tracker of a row-major buffer with zeros where there is
nothing to read, reductions by a row-major fold, and convolutions by any function of their operands.
There is no value where evaluation has to give up: a list of cells would not fit into memory, an
index overflows, or operands do not go together.

Movements and pointwise operations may be exchanged (`Dense.move_map`, `Dense.move_zip`). Where a
movement puts zeros, this asks of the operation that it sends zeros to zero.
-/

namespace TensorLoom

open Shape (InRange indices)

/-- Whether a list of single-precision numbers, one for each index of a shape, fits into memory. -/
def Shape.Addressable (shape : List Nat) : Prop :=
  (∀ d ∈ shape, 0 < d) ∧ shape.prod * 4 < Word.half

instance (shape : List Nat) : Decidable (Shape.Addressable shape) :=
  inferInstanceAs (Decidable (_ ∧ _))

theorem Shape.Addressable.fits {shape : List Nat} (h : Addressable shape) :
    ∀ d ∈ shape, d < Word.half := by
  intro d hd
  have hle : d ≤ shape.prod := Nat.le_of_dvd (prod_pos h.1) (List.dvd_prod hd)
  have := h.2
  omega

/-- A movement that neither repeats elements nor puts zeros makes no dimension too large. -/
theorem Movement.fits_resultShape {m : Movement} {shape : List Nat} (hp : ∀ d ∈ shape, 0 < d)
    (hf : shape.prod * 4 < Word.half) (hexpand : ∀ target, m ≠ .expand target)
    (hpad : ∀ amounts, m ≠ .pad amounts) (hv : m.Valid shape) :
    ∀ d ∈ m.resultShape shape, d < Word.half := by
  have hfits := Shape.Addressable.fits ⟨hp, hf⟩
  cases m with
  | reshape target => exact Shape.Addressable.fits ⟨hv.1, hv.2 ▸ hf⟩
  | permute axes =>
    intro d hd
    obtain ⟨axis, haxis, rfl⟩ := List.mem_map.mp hd
    have hlt : axis < shape.length := List.mem_range.mp (hv.mem_iff.mp haxis)
    rw [List.getD_eq_getElem _ _ hlt]
    exact hfits _ (List.getElem_mem hlt)
  | expand target => exact absurd rfl (hexpand target)
  | pad amounts => exact absurd rfl (hpad amounts)
  | shrink ranges =>
    intro d hd
    obtain ⟨r, hr, rfl⟩ := List.mem_map.mp hd
    obtain ⟨i, hi, -, hle⟩ := exists_of_forall₂_right hv hr
    have := hfits i hi
    omega
  | stride steps =>
    intro d hd
    obtain ⟨i, hi, rfl⟩ := List.getElem_of_mem hd
    simp only [resultShape, List.length_zipWith] at hi
    have hi' : i < shape.length := by omega
    have hpos := hp _ (List.getElem_mem hi')
    have hstep : steps[i].natAbs ≠ 0 :=
      Int.natAbs_ne_zero.mpr (hv.2 _ (List.getElem_mem (by omega)))
    simp only [resultShape, List.getElem_zipWith]
    refine Nat.lt_of_le_of_lt ?_ (hfits _ (List.getElem_mem hi'))
    refine Nat.div_le_of_le_mul ?_
    obtain ⟨n, hn⟩ := Nat.exists_eq_succ_of_ne_zero hstep
    obtain ⟨size, hsize⟩ := Nat.exists_eq_succ_of_ne_zero (Nat.ne_of_gt hpos)
    rw [hn, hsize, Nat.succ_mul, Nat.mul_succ]
    omega

namespace Dense

/-- A tensor given cell by cell, if it fits into memory. -/
def allocate (shape : List Nat) (f : List Nat → Float32) : Option (Dense Float32) :=
  if Shape.Addressable shape then some (tabulate shape f) else none

/-- Apply a function to every cell. -/
def map (f : Float32 → Float32) (v : Dense Float32) : Dense Float32 :=
  ⟨v.shape, v.cells.map f⟩

/-- Apply a function to the cells of two tensors of one shape. -/
def zip (f : Float32 → Float32 → Float32) (v w : Dense Float32) : Option (Dense Float32) :=
  if v.shape = w.shape then some ⟨v.shape, List.zipWith f v.cells w.cells⟩ else none

/-- What is read at a position, which has to be in the tensor, or where there is nothing to read. -/
def readAt (v : Dense Float32) : Option Nat → Option Float32
  | some i => v.cells[i]?
  | none => some 0

/-- The tracker of a movement of a row-major buffer. -/
def tracker (shape : List Nat) (m : Movement) : Attempt LayoutError Tracker :=
  (Tracker.ofShape shape).bind (·.move m)

/-- Read a tensor through the tracker of a movement. -/
def move (m : Movement) (v : Dense Float32) : Option (Dense Float32) := do
  let t ← (tracker v.shape m).toOption
  if Shape.Addressable t.shape then
    let positions ← ((indices t.shape).mapM t.index).toOption
    let cells ← positions.mapM v.readAt
    return ⟨t.shape, cells⟩
  else none

/-- Fold the cells that belong to each cell of a smaller shape, in row-major order. -/
def reduce (op : Reduction) (shape : List Nat) (v : Dense Float32) : Option (Dense Float32) :=
  allocate shape fun o =>
    (((indices v.shape).zip v.cells).filter fun (i, _) => broadcastIndex i shape = o).foldl
      (fun acc (_, x) => op.combine acc x) op.identity

theorem shape_of_allocate {shape : List Nat} {f : List Nat → Float32} {v : Dense Float32}
    (h : allocate shape f = some v) : v.shape = shape ∧ Shape.Addressable shape := by
  unfold allocate at h
  split at h
  · obtain rfl := Option.some.inj h
    exact ⟨rfl, ‹_›⟩
  · cases h

theorem move_eq_some {m : Movement} {v w : Dense Float32} (h : v.move m = some w) :
    ∃ t, tracker v.shape m = .ok t ∧ w.shape = t.shape ∧ Shape.Addressable t.shape := by
  obtain ⟨t, ht, h⟩ := Option.bind_eq_some_iff.mp h
  split at h
  · obtain ⟨_, -, h⟩ := Option.bind_eq_some_iff.mp h
    obtain ⟨_, -, h⟩ := Option.bind_eq_some_iff.mp h
    obtain rfl := Option.some.inj h
    refine ⟨t, ?_, rfl, ‹_›⟩
    cases htr : tracker v.shape m with
    | ok t' =>
      rw [htr] at ht
      rw [Option.some.inj ht]
    | error e =>
      rw [htr] at ht
      cases ht
  · cases h

/-! ## Movements and pointwise operations -/

theorem expand_shape {v : View} {target : List Nat} (h : target.length = v.shape.length) :
    (v.expand target).shape = target := by
  rw [View.expand, View.shape_normalize, View.shape, List.map_zipWith]
  have hsize : (fun (a : Axis) d => (a.expand d).size) = fun _ d => d := by
    funext a d
    exact Axis.size_expand a d
  rw [View.shape, List.length_map] at h
  rw [hsize]
  exact List.ext_getElem (by simp [h]) fun i _ _ => by simp

/-- Expanding a row-major buffer leads to the target. -/
theorem shape_tracker_expand {shape target : List Nat} (hs : Shape.Addressable shape) {t : Tracker}
    (h : tracker shape (.expand target) = .ok t) : t.shape = target := by
  obtain ⟨t₀, ht₀, h⟩ := bind_eq_ok.mp h
  obtain rfl := ((Tracker.ofShape_settles hs.fits).of_ok ht₀).2
  obtain ⟨t₁, ht₁, h⟩ := bind_eq_ok.mp h
  obtain ⟨_, hrank, ht₁⟩ := bind_eq_ok.mp ht₁
  obtain ⟨_, -, ht₁⟩ := bind_eq_ok.mp ht₁
  have hlength : target.length = (View.row shape).shape.length := by
    unfold Tracker.checkRank at hrank
    dsimp only at hrank
    split at hrank
    · assumption
    · cases hrank
  split at ht₁
  · obtain ⟨_, -, ht₁⟩ := bind_eq_ok.mp ht₁
    obtain ⟨_, -, ht₁⟩ := bind_eq_ok.mp ht₁
    cases ht₁
  · obtain rfl := pure_eq_ok.mp ht₁
    obtain rfl := pure_eq_ok.mp (liftM_eq_ok.mp h)
    exact expand_shape hlength

theorem axiswise_ne_none {β : Type} {rule : (size : Nat) → β → Nat → Option Nat}
    (h : ∀ size b i, rule size b i ≠ none) (shape : List Nat) (args : List β) (idx : List Nat) :
    Movement.axiswise rule shape args idx ≠ none := by
  induction shape generalizing args idx with
  | nil => simp [Movement.axiswise]
  | cons size shape ih =>
    cases args with
    | nil => simp [Movement.axiswise]
    | cons b args =>
      cases idx with
      | nil => simp [Movement.axiswise]
      | cons i idx =>
        obtain ⟨j, hj⟩ := Option.ne_none_iff_exists'.mp (h size b i)
        obtain ⟨rest, hrest⟩ := Option.ne_none_iff_exists'.mp (ih args idx)
        simp [Movement.axiswise, hj, hrest]

/-- Only paddings put zeros anywhere. -/
theorem source_ne_none {m : Movement} (hm : ∀ amounts, m ≠ .pad amounts) (shape idx : List Nat) :
    m.source shape idx ≠ none := by
  cases m with
  | reshape target => exact Option.some_ne_none _
  | permute axes => exact Option.some_ne_none _
  | expand target => exact axiswise_ne_none (fun _ _ _ => Option.some_ne_none _) _ _ _
  | pad amounts => exact absurd rfl (hm amounts)
  | shrink ranges => exact axiswise_ne_none (fun _ _ _ => Option.some_ne_none _) _ _ _
  | stride steps => exact axiswise_ne_none (fun _ _ _ => Option.some_ne_none _) _ _ _

/-- Through the tracker of another movement of a row-major buffer there is always something to
read. -/
theorem index_ne_none {shape : List Nat} (hs : Shape.Addressable shape) {m : Movement}
    (hm : ∀ amounts, m ≠ .pad amounts) {t : Tracker} (ht : tracker shape m = .ok t)
    (hta : Shape.Addressable t.shape) {idx : List Nat} (hi : InRange idx t.shape)
    {r : Option Nat} (hr : t.index idx = .ok r) : r ≠ none := by
  have hfits : m.Valid shape → ∀ d ∈ m.resultShape shape, d < Word.half := by
    intro hv
    by_cases hexpand : ∃ target, m = .expand target
    · obtain ⟨target, rfl⟩ := hexpand
      exact shape_tracker_expand hs ht ▸ hta.fits
    · exact Movement.fits_resultShape hs.1 hs.2 (fun target e => hexpand ⟨target, e⟩) hm hv
  obtain ⟨t₀, ht₀, hmove⟩ := bind_eq_ok.mp ht
  obtain rfl := ((Tracker.ofShape_settles hs.fits).of_ok ht₀).2
  have hshape : Tracker.shape ⟨.row shape, []⟩ = shape := View.shape_row shape
  have hmoves := (Tracker.move_settles (Tracker.within_row hs.1 hs.fits) m
    (hshape.symm ▸ hfits)).of_ok hmove
  obtain ⟨i, hi'⟩ := Option.ne_none_iff_exists'.mp (source_ne_none hm shape idx)
  rw [(Tracker.index_yields hmoves.within hi).eq_of_ok hr, hmoves.read idx hi, hshape, hi']
  rw [Option.bind_some, Tracker.read_row (hshape ▸ hmoves.inRange idx hi i (hshape.symm ▸ hi'))]
  exact Option.some_ne_none _

/-- What a movement of a tensor reads, if it has a value: either all of it is in the tensor, or
zeros are put around. -/
theorem ne_none_of_mem_positions {shape : List Nat} (hs : Shape.Addressable shape) {m : Movement}
    (hm : ∀ amounts, m ≠ .pad amounts) {t : Tracker} (ht : tracker shape m = .ok t)
    (hta : Shape.Addressable t.shape) {positions : List (Option Nat)}
    (hpositions : (indices t.shape).mapM t.index = .ok positions) :
    ∀ p ∈ positions, p ≠ none := by
  intro p hp
  obtain ⟨idx, hidx, hread⟩ := exists_of_forall₂_right (mapM_eq_ok hpositions) hp
  exact index_ne_none hs hm ht hta (Shape.mem_indices.mp hidx) hread

theorem mapM_map {α : Type} {g k : α → Option Float32} (f : Float32 → Float32) {xs : List α}
    (hk : ∀ x ∈ xs, k x = (g x).map f) : xs.mapM k = (xs.mapM g).map (List.map f) := by
  induction xs with
  | nil => rfl
  | cons x xs ih =>
    rw [List.mapM_cons, List.mapM_cons, hk x List.mem_cons_self,
      ih fun y hy => hk y (List.mem_cons_of_mem _ hy)]
    cases g x <;> cases xs.mapM g <;> rfl

theorem mapM_zip {α : Type} {g h k : α → Option Float32} (f : Float32 → Float32 → Float32)
    {xs : List α} (hk : ∀ x ∈ xs, k x = (g x).bind fun a => (h x).map (f a)) :
    xs.mapM k = (xs.mapM g).bind fun as => (xs.mapM h).map (List.zipWith f as) := by
  induction xs with
  | nil => rfl
  | cons x xs ih =>
    rw [List.mapM_cons, List.mapM_cons, List.mapM_cons, hk x List.mem_cons_self,
      ih fun y hy => hk y (List.mem_cons_of_mem _ hy)]
    cases g x <;> cases h x <;> cases xs.mapM g <;> cases xs.mapM h <;> rfl

/-- Whether a movement may be exchanged with an operation: either it puts no zeros, or the operation
sends zeros to zero. -/
def Exchanges (m : Movement) (zero : Prop) : Prop := (∀ amounts, m ≠ .pad amounts) ∨ zero

/-- A movement of a function of the cells is a function of the cells of the movement. -/
theorem move_map {v : Dense Float32} (hv : Shape.Addressable v.shape) {m : Movement}
    {f : Float32 → Float32} (hf : Exchanges m (f 0 = 0)) :
    (v.map f).move m = (v.move m).map (map f) := by
  unfold move
  rw [show (v.map f).shape = v.shape from rfl]
  cases ht : tracker v.shape m with
  | error e => rfl
  | ok t =>
    simp only [Except.toOption, Option.bind_eq_bind, Option.bind_some]
    split
    · rename_i hta
      cases hpositions : (indices t.shape).mapM t.index with
      | error e => rfl
      | ok positions =>
        rw [Option.bind_some, Option.bind_some, mapM_map f (g := v.readAt)]
        · cases positions.mapM v.readAt <;> rfl
        · intro p hp
          cases p with
          | some i => exact List.getElem?_map
          | none =>
            rcases hf with hf | hf
            · exact absurd rfl (ne_none_of_mem_positions hv hf ht hta hpositions _ hp)
            · exact congrArg some hf.symm
    · rfl

/-- The same for a function of the cells of two tensors. -/
theorem move_zip {v w z : Dense Float32} (hv : Shape.Addressable v.shape) {m : Movement}
    {f : Float32 → Float32 → Float32} (hf : Exchanges m (f 0 0 = 0)) (hz : zip f v w = some z) :
    z.move m = (v.move m).bind fun v' => (w.move m).bind (zip f v') := by
  unfold zip at hz
  split at hz
  · rename_i hshape
    obtain rfl := Option.some.inj hz
    unfold move
    rw [← hshape]
    cases ht : tracker v.shape m with
    | error e => rfl
    | ok t =>
      simp only [Except.toOption, Option.bind_eq_bind, Option.bind_some]
      split
      · rename_i hta
        cases hpositions : (indices t.shape).mapM t.index with
        | error e => rfl
        | ok positions =>
          rw [Option.bind_some, mapM_zip f (g := v.readAt) (h := w.readAt)]
          · simp only [Option.bind_some]
            generalize positions.mapM v.readAt = a
            generalize positions.mapM w.readAt = b
            cases a <;> cases b <;> simp [zip]
          · intro p hp
            cases p with
            | some i =>
              simp only [readAt, List.getElem?_zipWith]
              cases v.cells[i]? <;> cases w.cells[i]? <;> rfl
            | none =>
              rcases hf with hf | hf
              · exact absurd rfl (ne_none_of_mem_positions hv hf ht hta hpositions _ hp)
              · exact congrArg some hf.symm
      · rfl
  · cases hz

end Dense

/-! ## Operations, trees and tensors -/

/-- What convolutions compute, cell by cell. Nothing is assumed of it. -/
abbrev ConvolutionRule :=
  Convolution → (operand weights : Dense Float32) → (idx : List Nat) → Float32

/-- The value of an operation, given those of its operands. -/
def Op.value? (rule : ConvolutionRule) : Op → List (Option (Dense Float32)) → Option (Dense Float32)
  | .unary op, [v] => v.map (Dense.map op.apply)
  | .binary op, [v, w] => v.bind fun v => w.bind (Dense.zip op.apply v)
  | .reduce op shape, [v] => v.bind (Dense.reduce op shape)
  | .movement m, [v] => v.bind (Dense.move m)
  | .convolution args, [v, w] =>
    v.bind fun v => w.bind fun w => Dense.allocate args.outShape (rule args v w)
  | _, _ => none

/-- A pointwise operation that makes zeros of zeros. Of the others nothing is asked. -/
def Op.SendsZeros : Op → Prop
  | .unary op => op.apply 0 = 0
  | .binary op => op.apply 0 0 = 0
  | _ => True

/-- A pointwise operation with as many operands as it takes. -/
inductive Op.Pointwise : Op → Nat → Prop
  | unary (op : Unary) : Pointwise (.unary op) 1
  | binary (op : Binary) : Pointwise (.binary op) 2

theorem Op.pointwise_arity {op : Op} (h : op.isElementwise = true) : op.Pointwise op.arity := by
  cases op with
  | unary op => exact .unary op
  | binary op => exact .binary op
  | load => cases h
  | reduce op shape => cases h
  | movement m => cases h
  | convolution args => cases h

namespace Dense

/-- The cells fill the shape, and the shape fits into memory, where a value has this shape at all.
-/
def OfShape (shape : List Nat) (v : Option (Dense Float32)) : Prop :=
  ∀ d, v = some d → d.shape = shape ∧ Shape.Addressable shape

theorem ofShape_move {m : Movement} {shape : List Nat} {t : Tracker} {v : Option (Dense Float32)}
    (hv : OfShape shape v) (ht : tracker shape m = .ok t) : OfShape t.shape (v.bind (move m)) := by
  intro d hd
  obtain ⟨w, rfl, hd⟩ := Option.bind_eq_some_iff.mp hd
  obtain ⟨t', ht', hshape, haddressable⟩ := move_eq_some hd
  rw [(hv w rfl).1, ht] at ht'
  obtain rfl := Except.ok.inj ht'
  exact ⟨hshape, haddressable⟩

theorem ofShape_allocate {shape : List Nat} {f : List Nat → Float32} :
    OfShape shape (allocate shape f) :=
  fun _ h => shape_of_allocate h

end Dense

namespace Op

variable {rule : ConvolutionRule} {op : Op} {shape : List Nat} {vs : List (Option (Dense Float32))}

/-- A pointwise operation on tensors of one shape gives a tensor of this shape. -/
theorem Pointwise.ofShape_value (h : op.Pointwise vs.length)
    (hvs : ∀ v ∈ vs, Dense.OfShape shape v) : Dense.OfShape shape (op.value? rule vs) := by
  intro d hd
  generalize hn : vs.length = n at h
  cases h with
  | unary op =>
    obtain ⟨v, rfl⟩ := List.length_eq_one_iff.mp hn
    obtain ⟨w, rfl, rfl⟩ := Option.map_eq_some_iff.mp hd
    exact hvs _ List.mem_cons_self w rfl
  | binary op =>
    obtain ⟨v, w, rfl⟩ := List.length_eq_two.mp hn
    obtain ⟨v, rfl, hd'⟩ := Option.bind_eq_some_iff.mp hd
    obtain ⟨w, rfl, hzip⟩ := Option.bind_eq_some_iff.mp hd'
    unfold Dense.zip at hzip
    split at hzip
    · obtain rfl := Option.some.inj hzip
      exact hvs _ List.mem_cons_self v rfl
    · cases hzip

/-- To move the result of a pointwise operation is to move its operands. -/
theorem Pointwise.value_move (h : op.Pointwise vs.length)
    (hvs : ∀ v ∈ vs, Dense.OfShape shape v) {m : Movement}
    (hm : Dense.Exchanges m op.SendsZeros) :
    op.value? rule (vs.map (·.bind (Dense.move m))) = (op.value? rule vs).bind (Dense.move m) := by
  generalize hn : vs.length = n at h
  cases h with
  | unary op =>
    obtain ⟨v, rfl⟩ := List.length_eq_one_iff.mp hn
    cases v with
    | none => rfl
    | some v =>
      obtain ⟨rfl, hv⟩ := hvs _ List.mem_cons_self v rfl
      exact (Dense.move_map hv hm).symm
  | binary op =>
    obtain ⟨v, w, rfl⟩ := List.length_eq_two.mp hn
    cases v with
    | none => rfl
    | some v =>
      cases w with
      | none =>
        simp only [value?, List.map_cons, List.map_nil, Option.bind_none, Option.bind_some]
        cases v.move m <;> rfl
      | some w =>
        obtain ⟨rfl, hv⟩ := hvs _ List.mem_cons_self v rfl
        obtain ⟨hw, -⟩ := hvs _ (List.mem_cons_of_mem _ List.mem_cons_self) w rfl
        have hzip : Dense.zip op.apply v w =
            some ⟨v.shape, List.zipWith op.apply v.cells w.cells⟩ := if_pos hw.symm
        simp only [value?, List.map_cons, List.map_nil, Option.bind_some, hzip]
        exact (Dense.move_zip hv hm hzip).symm

end Op

namespace OpTree

/-- The value of a tree, given those of its leaves. -/
def value? (rule : ConvolutionRule) (leaf : TensorId → Option (Dense Float32)) :
    OpTree TensorId → Option (Dense Float32)
  | .leaf x => leaf x
  | .node _ op sources => op.value? rule (sources.map (value? rule leaf))

theorem value?_congr {rule : ConvolutionRule} {f g : TensorId → Option (Dense Float32)}
    {t : OpTree TensorId} (h : ∀ x, Subtree (.leaf x) t → f x = g x) :
    t.value? rule f = t.value? rule g := by
  induction t using OpTree.induction with
  | leaf x =>
    rw [value?, value?]
    exact h x (.refl _)
  | node id op sources ih =>
    rw [value?, value?]
    refine congrArg _ (List.map_congr_left fun t ht => ?_)
    exact ih t ht fun x hx => h x (hx.trans (subtree_source ht))

end OpTree

namespace Session

variable {s : Session}

/-- The value of a tensor. Its leaves are older than itself. -/
def value (rule : ConvolutionRule) (s : Session) (x : TensorId) : Option (Dense Float32) :=
  match s.tensors[x]? with
  | none => none
  | some ⟨shape, .host data⟩ =>
    if Shape.Addressable shape then some ⟨shape, data.toList⟩ else none
  | some ⟨_, .deferred _ tree⟩ =>
    tree.value? rule fun y => if _older : y < x then value rule s y else none
termination_by x

theorem value_host (rule : ConvolutionRule) {x : TensorId} {shape : List Nat}
    {data : Array Float32} (h : s.tensors[x]? = some ⟨shape, .host data⟩) :
    s.value rule x = if Shape.Addressable shape then some ⟨shape, data.toList⟩ else none := by
  rw [value, h]

theorem value_deferred (rule : ConvolutionRule) {x : TensorId} {shape : List Nat}
    {category : Category} {tree : OpTree TensorId}
    (h : s.tensors[x]? = some ⟨shape, .deferred category tree⟩)
    (older : ∀ y, OpTree.Subtree (.leaf y) tree → y < x) :
    s.value rule x = tree.value? rule (s.value rule) := by
  rw [value, h]
  exact OpTree.value?_congr fun y hy => dif_pos (older y hy)

end Session

end TensorLoom
