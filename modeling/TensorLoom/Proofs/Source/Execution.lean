import TensorLoom.Kernel.Source

/-!
# What a source does

This is what a source is meant to do, before it is written as text. A run of the program that is read
from the text does the same (`KernelSource.Readable.runItem_eq`).

A source is run as the C that it is written in: once for each work item, with integers of any size,
quotients and remainders cut off towards zero, and conditions that are looked at from the left until
one fails. A run has no outcome if it meets something that C leaves undefined: a name that is not
defined, a division by zero, an element beyond the end of a buffer or an accumulator that is not
there. The inputs are constant and only the output is written, so no element of the output is ever
loaded.

An accumulator is kept as the list of the values folded into it, first to last, so that a run shows
in which order they were folded. Its value is the fold of them.
-/

namespace TensorLoom

/-- The values of the names that are defined. -/
abbrev Names := String → Option Int

namespace Names

/-- No name is defined. -/
def none : Names := fun _ => Option.none

/-- Give a name a value. -/
def define (names : Names) (name : String) (value : Int) : Names :=
  fun s => if s = name then some value else names s

end Names

/-- The value of an integer expression. -/
def IndexExpr.eval (names : Names) : IndexExpr → Option Int
  | name s => names s
  | literal n => some n
  | scaled e stride => do
    return (← e.eval names) * stride
  | sum a b => do
    return (← a.eval names) + (← b.eval names)
  | group e => e.eval names
  | quotient e divisor => do
    let n ← e.eval names
    if divisor = 0 then none else return n.tdiv divisor
  | remainder e divisor => do
    let n ← e.eval names
    if divisor = 0 then none else return n.tmod divisor

/-- Whether a condition holds. -/
def Condition.eval (names : Names) : Condition → Option Bool
  | never => some false
  | atLeast e low => do
    return decide ((low : Int) ≤ (← e.eval names))
  | lessThan e high => do
    return decide ((← e.eval names) < (high : Int))

/-- Whether all of some conditions hold. What comes after one that fails is not looked at. -/
def Condition.evalAll (names : Names) : List Condition → Option Bool
  | [] => some true
  | c :: cs => do
    if ← c.eval names then evalAll names cs else return false

/-- The position in a list that a number stands for. -/
def positionIn (size : Nat) (n : Int) : Option Nat :=
  if 0 ≤ n ∧ n.toNat < size then some n.toNat else none

/-- The value of a floating-point expression, given the inputs and the values of the accumulators.
-/
def Value.eval (data : List (Array Float32)) (names : Names) (accumulators : List Float32) :
    Value → Option Float32
  | zero => some 0
  | load number address => do
    if ← Condition.evalAll names address.conditions then
      let xs ← if number = 0 then none else data[number - 1]?
      let i ← positionIn xs.size (← address.position.eval names)
      xs[i]?
    else return 0
  | accumulator k => accumulators[k]?
  | unary op x => do
    return op.apply (← x.eval data names accumulators)
  | binary op a b => do
    let x ← a.eval data names accumulators
    let y ← b.eval data names accumulators
    return op.apply x y

/-- Define an index, for a work item of the given identity. -/
def IndexDefinition.run (item : List Nat) (names : Names) : IndexDefinition → Option Names
  | ofGlobal dimension => some (names.define (globalName dimension) (item.getD dimension 0 : Nat))
  | ofMerged axis value => do
    return names.define (mergedName axis) (← value.eval names)

namespace Accumulation

/-- The values of the accumulators. -/
def values (op : Reduction) (folded : List (List Float32)) : List Float32 :=
  folded.map (·.foldl op.combine op.identity)

/-- Fold the value of an update into its accumulator. -/
def update (op : Reduction) (data : List (Array Float32)) (names : Names)
    (folded : List (List Float32)) (u : Update) : Option (List (List Float32)) := do
  let v ← u.value.eval data names (values op folded)
  if u.accumulator < folded.length then return folded.modify u.accumulator (· ++ [v]) else none

/-- Run a body in a nest of loops. -/
def runLoops {σ : Type} (body : Names → σ → Option σ) : List Loop → Names → σ → Option σ
  | [], names, s => body names s
  | l :: inner, names, s =>
    (List.range l.bound).foldlM
      (fun s (i : Nat) => runLoops body inner (names.define (loopName l.axis) i) s) s

/-- The values folded into each accumulator. -/
def run (a : Accumulation) (data : List (Array Float32)) (names : Names) :
    Option (List (List Float32)) :=
  runLoops (fun names folded => a.updates.foldlM (update a.op data names) folded) a.loops names
    (List.replicate a.accumulators [])

end Accumulation

/-- A value written to a position of the output. -/
structure Write where
  position : Int
  value : Float32

/-- What a store writes. -/
def Store.run (data : List (Array Float32)) (names : Names) (accumulators : List Float32)
    (s : Store) : Option Write := do
  let position ← s.position.eval names
  return ⟨position, ← s.value.eval data names accumulators⟩

/-- Do a write, whose position has to be in the output. -/
def Write.run (out : Array Float32) (w : Write) : Option (Array Float32) := do
  let i ← positionIn out.size w.position
  return out.modify i fun _ => w.value

namespace KernelSource

/-- What a work item does: the values that it folds into each of its accumulators and the writes
that it does then. -/
def runItem (s : KernelSource) (data : List (Array Float32)) (item : List Nat) :
    Option (List (List Float32) × List Write) := do
  let names ← s.definitions.foldlM (IndexDefinition.run item) .none
  match s.accumulation with
  | some a =>
    let folded ← a.run data names
    let writes ← s.stores.mapM (Store.run data names (Accumulation.values a.op folded))
    return (folded, writes)
  | none =>
    let writes ← s.stores.mapM (Store.run data names [])
    return ([], writes)

/-- The output after some work items have run one after the other. -/
def run (s : KernelSource) (data : List (Array Float32)) (items : List (List Nat))
    (out : Array Float32) : Option (Array Float32) :=
  items.foldlM
    (fun out item => do
      let (_, writes) ← s.runItem data item
      writes.foldlM Write.run out) out

end KernelSource

end TensorLoom
