import TensorLoom.Checked
import TensorLoom.Text.Listing

/-!
# Launch shapes

A kernel is launched over a grid of at most three dimensions, cut into groups that divide it evenly.
Dimensions that are not given have size 1.
-/

namespace TensorLoom

/-- The identity of a device buffer. -/
abbrev BufferId := Nat

/-- A device buffer is written by its identity. -/
def bufferName (id : BufferId) : String := s!"buf{id}"

/-- Why a device refuses a request. -/
inductive DeviceError where
  /-- The grid has too many or empty dimensions, or the groups do not divide it. -/
  | invalidLaunchShape (globalSize localSize : List Nat)
  /-- The buffer was not allocated on this device. -/
  | unknownBuffer (id : BufferId)
  /-- Host and device data differ in length. -/
  | sizeMismatch (expected actual : Nat)
  /-- The compiler rejects the source. -/
  | rejected (kernel : String)
  /-- The launch fails on the device. -/
  | launchFailed (kernel : String)
deriving DecidableEq, Repr

/-- The wording of a device error. -/
def DeviceError.message : DeviceError → String
  | .invalidLaunchShape globalSize localSize =>
    s!"invalid launch shape: global {Text.sizes globalSize}, local {Text.sizes localSize}"
  | .unknownBuffer id => s!"unknown buffer {bufferName id}"
  | .sizeMismatch expected actual => s!"size mismatch: expected {expected}, got {actual}"
  | .rejected kernel => s!"failed to compile {kernel}: rejected by compile filter"
  | .launchFailed kernel => s!"failed to execute {kernel}: launch failed in cost model"

/-- A size in each of three dimensions. -/
structure Extent where
  x : Nat
  y : Nat
  z : Nat
deriving DecidableEq, Repr

namespace Extent

/-- The extent of a single item. -/
def one : Extent := ⟨1, 1, 1⟩

/-- Up to three sizes, filled up with 1. -/
def ofList? : List Nat → Option Extent
  | [] => some one
  | [x] => some ⟨x, 1, 1⟩
  | [x, y] => some ⟨x, y, 1⟩
  | [x, y, z] => some ⟨x, y, z⟩
  | _ => none

/-- The three sizes in order. -/
def toList (e : Extent) : List Nat := [e.x, e.y, e.z]

end Extent

/-- A grid of work items and the groups it is cut into. -/
structure LaunchShape where
  globalSize : Extent
  localSize : Extent
deriving DecidableEq, Repr

namespace LaunchShape

/-- The launch of a single work item. -/
def single : LaunchShape := ⟨.one, .one⟩

/-- Whether every dimension is positive and a multiple of its group size. -/
def isEven (s : LaunchShape) : Bool :=
  (s.globalSize.toList.zip s.localSize.toList).all fun (g, l) => 0 < g && 0 < l && g % l = 0

/-- The launch over the sizes given. Groups may be given for no more dimensions than the grid has,
but always for one; without any, each work item is a group. -/
def ofSizes (globalSize : List Nat) (localSize : Option (List Nat)) :
    Except DeviceError LaunchShape :=
  let groups := localSize.getD []
  let invalid := DeviceError.invalidLaunchShape globalSize groups
  if groups.length ≤ max globalSize.length 1 then
    match Extent.ofList? globalSize, Extent.ofList? groups with
    | some g, some l => if isEven ⟨g, l⟩ then .ok ⟨g, l⟩ else .error invalid
    | _, _ => .error invalid
  else .error invalid

/-- The number of work items. -/
def workItems (s : LaunchShape) : Checked Nat :=
  s.globalSize.toList.foldlM Word.mul 1

/-- The text of a launch shape in descriptions. -/
def describe (s : LaunchShape) : String :=
  "LaunchShape \x7b global_size: " ++ Text.sizes s.globalSize.toList ++ ", local_size: " ++
    Text.sizes s.localSize.toList ++ " \x7d"

end LaunchShape

end TensorLoom
