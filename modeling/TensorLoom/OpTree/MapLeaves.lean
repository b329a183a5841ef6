import TensorLoom.Measure
import TensorLoom.OpTree.Basic
import Std.Data.HashMap.Basic

/-!
# Replacing the leaves of a tree

`OpTree.mapLeaves` rebuilds a tree with another value at each leaf. The leaves are visited in the
order of `OpTree.leaves`, and the replacement may keep a state or fail, in which case nothing after
it is visited. Each distinct node is rebuilt once, so what was shared stays shared; the new
identities are drawn from a supply of the caller.

The node in hand is a frame: the sources rebuilt so far and those still to do. The frames of the
nodes above it wait on a list.
-/

namespace TensorLoom.OpTree

variable {α β : Type}

/-- A node being rebuilt. -/
structure Frame (α β : Type) where
  id : Nat
  op : Op
  done : Array (OpTree β)
  todo : List (OpTree α)

/-- Add a rebuilt source. -/
def Frame.push (f : Frame α β) (source : OpTree β) : Frame α β :=
  { f with done := f.done.push source }

/-- What a frame has left to do. -/
noncomputable def Frame.weight (f : Frame α β) : Nat := sizeOf f.todo + 1

/-- Go on with the node in hand. `rebuilt` holds the nodes finished so far by identity. -/
def rebuild {m : Type → Type} [Monad m] (rename : Nat → m Nat) (replace : α → m β)
    (rebuilt : Std.HashMap Nat (OpTree β)) (frame : Frame α β) (parents : List (Frame α β)) :
    m (OpTree β) :=
  match _h : frame.todo with
  | leaf x :: todo => do
    let y ← replace x
    rebuild rename replace rebuilt ({ frame with todo }.push (leaf y)) parents
  | node id op sources :: todo =>
    match rebuilt[id]? with
    | some source => rebuild rename replace rebuilt ({ frame with todo }.push source) parents
    | none => rebuild rename replace rebuilt ⟨id, op, #[], sources⟩ ({ frame with todo } :: parents)
  | [] => do
    let id ← rename frame.id
    let out := node id frame.op frame.done.toList
    match parents with
    | [] => pure out
    | parent :: parents =>
      rebuild rename replace (rebuilt.insert frame.id out) (parent.push out) parents
termination_by totalWeight Frame.weight (frame :: parents)
decreasing_by
  all_goals simp_all only [totalWeight, Frame.weight, Frame.push, List.nil.sizeOf_spec,
    List.cons.sizeOf_spec, leaf.sizeOf_spec, node.sizeOf_spec]
  all_goals omega

/-- Replace the leaves of a tree and give its nodes new identities. -/
def mapLeaves {m : Type → Type} [Monad m] (rename : Nat → m Nat) (replace : α → m β) :
    OpTree α → m (OpTree β)
  | leaf x => do return leaf (← replace x)
  | node id op sources => rebuild rename replace {} ⟨id, op, #[], sources⟩ []

end TensorLoom.OpTree
