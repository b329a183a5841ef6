import TensorLoom.Measure
import TensorLoom.Session.Basic

/-!
# Realizing tensors

To realize a tensor, every tensor that it needs is computed first. A materializer computes one
tensor from its sources, and may fail; the tensors computed before it failed stay realized, and
nothing else is changed.

The tensors are visited depth first. A visit to a tensor first visits its sources and then comes
back to it, and each tensor is expanded once in a run, however many others need it. Sources are
older than the tensor they belong to, so a run ends.
-/

namespace TensorLoom

/-- What a materializer is asked to compute. -/
structure Request where
  tensor : TensorId
  category : Category
  /-- The operations of the tree, each node before its sources. -/
  ops : List Op
  /-- The tensors that the tree reads. -/
  sources : List TensorId
deriving DecidableEq, Repr

/-- Computes requested tensors, with a state of its own. -/
abbrev Materializer (σ : Type) := Request → ExceptT SessionError (StateM σ) Unit

/-- A materializer that only keeps a log, and loses its device once the log has reached a limit. -/
def recording (limit : Option Nat) : Materializer (Array Request) := fun request => do
  let log ← get
  if limit = some log.size then throw (.materialize "device lost")
  set (log.push request)

/-- A tensor to be visited. -/
inductive Visit where
  /-- Visit the sources of the tensor first. -/
  | expand (x : TensorId)
  /-- The sources have been visited. -/
  | finish (x : TensorId)

/-- The tensor of a visit. -/
def Visit.tensor : Visit → TensorId
  | expand x => x
  | finish x => x

/-- The number of visits that expanding a number leads to, if what it needs is shared nowhere. -/
def unfoldedVisits (sources : TensorId → List TensorId) (x : TensorId) : Nat :=
  2 + totalWeight id
    (((sources x).filter (· < x)).attach.map fun ⟨y, _⟩ => unfoldedVisits sources y)
termination_by x
decreasing_by
  rename_i h
  exact of_decide_eq_true (List.mem_filter.1 h).2

theorem unfoldedVisits_eq (sources : TensorId → List TensorId) (x : TensorId) :
    unfoldedVisits sources x =
      2 + totalWeight (unfoldedVisits sources) ((sources x).filter (· < x)) := by
  have attached : (((sources x).filter (· < x)).attach.map fun y => unfoldedVisits sources y.1) =
      ((sources x).filter (· < x)).map (unfoldedVisits sources) := List.attach_map_val
  rw [unfoldedVisits, attached, totalWeight_map]
  rfl

/-- The number of visits that one visit leads to. -/
def Visit.weight (sources : TensorId → List TensorId) : Visit → Nat
  | expand x => unfoldedVisits sources x
  | finish _ => 1

namespace Session

/-- The tensors that a tensor is computed from. -/
def sources (s : Session) (x : TensorId) : List TensorId :=
  match s.tensors[x]? with
  | some t => t.sources
  | none => []

/-- What has to be computed for a tensor, unless it is host data or has been computed already. -/
def request? (s : Session) (x : TensorId) : Option Request :=
  match s.tensors[x]? with
  | some ⟨_, .deferred category tree⟩ =>
    if s.isRealized x then none
    else some ⟨x, category, tree.ops, tree.leaves.eraseDups⟩
  | _ => none

/-- Whether a tensor has still to be computed. -/
def isPending (s : Session) (x : TensorId) : Bool :=
  s.tensors[x]?.any (·.category.isSome) && !s.isRealized x

/-- Remember that a tensor has been realized. -/
def markRealized (s : Session) (x : TensorId) : Session :=
  { s with realized := s.realized.insert x }

/-- Work off a list of visits, given the tensors expanded so far. -/
def runVisits {σ : Type} (materialize : Materializer σ) (s : Session) (state : σ)
    (expanded : Std.HashSet TensorId) : List Visit → Except SessionError Unit × Session × σ
  | [] => (.ok (), s, state)
  | .expand x :: rest =>
    if !s.isPending x || expanded.contains x then
      runVisits materialize s state expanded rest
    else
      runVisits materialize s state (expanded.insert x)
        (((s.sources x).filter (· < x)).map .expand ++ .finish x :: rest)
  | .finish x :: rest =>
    match s.request? x with
    | none => runVisits materialize s state expanded rest
    | some request =>
      match (materialize request).run state with
      | (.error e, state) => (.error e, s, state)
      | (.ok (), state) => runVisits materialize (s.markRealized x) state expanded rest
termination_by visits => totalWeight (Visit.weight s.sources) visits
decreasing_by
  · rw [totalWeight, Visit.weight, unfoldedVisits_eq]
    omega
  · rw [totalWeight_append, totalWeight_map, totalWeight, totalWeight]
    have unfolded := unfoldedVisits_eq s.sources x
    change totalWeight (unfoldedVisits s.sources) _ + (1 + _) < unfoldedVisits s.sources x + _
    omega
  · rw [totalWeight, Visit.weight]
    omega
  · have unchanged : (s.markRealized x).sources = s.sources := rfl
    rw [unchanged, totalWeight, Visit.weight]
    omega

/-- Realize a tensor and everything it needs. -/
def realize {σ : Type} (materialize : Materializer σ) (s : Session) (state : σ) (x : TensorId) :
    Except SessionError Unit × Session × σ :=
  runVisits materialize s state {} [.expand x]

end Session

end TensorLoom
