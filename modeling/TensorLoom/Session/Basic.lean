import TensorLoom.OpTree.Basic
import Std.Data.HashMap.Basic

/-!
# Sessions of deferred tensors

A tensor is data given by the host or the deferred result of an operation tree over other tensors.
A session numbers its tensors in the order in which they are made, and a tree names its leaves by
these numbers. Tensors never change; a session only remembers which of them have been realized,
that is computed and stored, since the tree of a realized tensor is not taken apart any more.

Asking twice for the same pointwise operation or movement of the same tensors gives the same tensor:
two memos, keyed by the operation and the numbers of its operands, live as long as the session.
-/

namespace TensorLoom

/-- The number of a tensor in its session. -/
abbrev TensorId := Nat

/-- A tensor is written by its number. -/
def tensorName (id : TensorId) : String := s!"lb{id}"

/-- Which rules of fusion apply while a graph is built. -/
structure FusionRules where
  /-- Push movements below pointwise trees onto their leaves. -/
  pushMovements : Bool
  /-- Push paddings as well. This is sound where every operation of the tree sends zeros to zero. -/
  pushPads : Bool
  /-- Chain a movement onto an unrealized movement. -/
  mergeMovements : Bool
  /-- Splice unrealized pointwise operands into one tree. -/
  mergeElementwise : Bool
  /-- Fold pointwise operations over an unrealized convolution into its tree. -/
  mergeIntoProcessing : Bool
deriving DecidableEq, Repr

namespace FusionRules

/-- Every rule but the pushing of paddings. -/
def standard : FusionRules := ⟨true, false, true, true, true⟩

/-- No rule at all. -/
def unfused : FusionRules := ⟨false, false, false, false, false⟩

end FusionRules

/-- Why a session refuses an operation. -/
inductive SessionError where
  | layout (cause : LayoutError)
  /-- The operation takes another number of operands. -/
  | elementwiseArity (op : Op) (expected actual : Nat)
  | notElementwise (op : Op)
  /-- Operands of a pointwise operation have one shape. -/
  | sourceShapeMismatch (expected actual : List Nat)
  | hostDataMismatch (expected actual : Nat)
  /-- A tensor could not be computed. -/
  | materialize (reason : String)
deriving DecidableEq, Repr

/-- The wording of a session error. -/
def SessionError.message : SessionError → String
  | .layout _ => "IR operation error"
  | .elementwiseArity op expected actual => s!"{op.text} takes {expected} sources, got {actual}"
  | .notElementwise op => s!"{op.text} is not an elementwise operation"
  | .sourceShapeMismatch expected actual =>
    s!"elementwise sources disagree in shape: expected {Text.sizes expected}, got " ++
      s!"{Text.sizes actual}"
  | .hostDataMismatch expected actual =>
    s!"host data has {actual} elements but shape needs {expected}"
  | .materialize reason => s!"failed to materialize: {reason}"

/-- Where the elements of a tensor come from. -/
inductive Content where
  | host (data : Array Float32)
  | deferred (category : Category) (tree : OpTree TensorId)

/-- A tensor of a session. -/
structure Tensor where
  shape : List Nat
  content : Content

namespace Tensor

/-- The kind of operation that makes a tensor; host data has none. -/
def category (t : Tensor) : Option Category :=
  match t.content with
  | .host _ => none
  | .deferred category _ => some category

/-- The operation tree of a tensor; that of host data is a single load. -/
def tree (t : Tensor) : OpTree TensorId :=
  match t.content with
  | .host _ => .node 0 .load []
  | .deferred _ tree => tree

/-- The data of a tensor that the host gave. -/
def hostData (t : Tensor) : Option (Array Float32) :=
  match t.content with
  | .host data => some data
  | .deferred _ _ => none

/-- The tensors at the leaves, each once and in the order of their first use. -/
def sources (t : Tensor) : List TensorId := t.tree.leaves.eraseDups

/-- The first convolution in the tree of a tensor. -/
def convolution? (t : Tensor) : Option (OpNode TensorId) :=
  t.tree.find? fun op => op.category = some .processing

end Tensor

/-- The tensors made so far, and what has been asked for. -/
structure Session where
  rules : FusionRules
  /-- The tensors by number. -/
  tensors : Array Tensor
  realized : Std.HashSet TensorId
  /-- The next identity of a node. -/
  nextNode : Nat
  elementwiseMemo : Std.HashMap (Op × List TensorId) TensorId
  movementMemo : Std.HashMap (Movement × TensorId) TensorId

/-- A step of a session. What it has changed stays changed if it is refused. -/
abbrev SessionM := ExceptT (Stop SessionError) (StateM Session)

namespace Session

/-- A session without tensors. -/
def new (rules : FusionRules) : Session := ⟨rules, #[], {}, 0, {}, {}⟩

/-- Whether a tensor has been realized. -/
def isRealized (s : Session) (x : TensorId) : Bool := s.realized.contains x

/-- Whether a tensor is of the given kind and its tree may still be spliced into others. -/
def isOpen (s : Session) (x : TensorId) (category : Category) : Bool :=
  s.tensors[x]?.any (·.category = some category) && !s.isRealized x

/-- The text of a tensor in descriptions. -/
def describe (s : Session) (x : TensorId) (t : Tensor) : String :=
  let category := match t.category with
    | some c => s!"Some({c.text})"
    | none => "None"
  "LazyBuffer \x7b id: BufferId(" ++ toString x ++ "), shape: " ++ Text.sizes t.shape ++
    ", optype: " ++ category ++ ", realized: " ++ toString (s.isRealized x) ++ ", .. \x7d"

end Session

end TensorLoom
