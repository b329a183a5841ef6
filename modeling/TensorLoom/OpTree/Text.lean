import TensorLoom.Measure
import TensorLoom.OpTree.Basic
import Std.Data.HashMap.Basic

/-!
# The text of an operation tree

A node is written as its operation followed by its sources in brackets. A node that was written
before is only referred to, as `#k` where `k` is its position among the distinct nodes, so the text
of a tree is as long as its graph and not as the tree.
-/

namespace TensorLoom.OpTree

variable {α : Type}

/-- What is left to write. -/
inductive Token (α : Type) where
  /-- A tree, after some text that divides it from the one before. -/
  | tree (divider : String) (t : OpTree α)
  /-- The bracket behind the last source. -/
  | close

/-- The sources of a node, divided by commas. -/
def sourceTokens : List (OpTree α) → List (Token α)
  | [] => []
  | t :: ts => .tree "" t :: ts.map (.tree ", ")

/-- What a token has left to write. -/
noncomputable def Token.weight : Token α → Nat
  | tree _ t => 2 * sizeOf t
  | close => 1

theorem weight_trees (divider : String) (ts : List (OpTree α)) :
    totalWeight Token.weight (ts.map (.tree divider)) + 2 ≤ 2 * sizeOf ts := by
  induction ts with
  | nil =>
    simp only [List.map_nil, totalWeight, List.nil.sizeOf_spec]
    omega
  | cons t ts ih =>
    simp only [List.map_cons, totalWeight, Token.weight, List.cons.sizeOf_spec] at *
    omega

theorem weight_sourceTokens (ts : List (OpTree α)) :
    totalWeight Token.weight (sourceTokens ts) + 2 ≤ 2 * sizeOf ts := by
  cases ts with
  | nil =>
    simp only [sourceTokens, totalWeight, List.nil.sizeOf_spec]
    omega
  | cons t ts =>
    have := weight_trees ", " ts
    simp only [sourceTokens, totalWeight, Token.weight, List.cons.sizeOf_spec]
    omega

/-- Write the tokens of a list behind a text. The positions of the nodes written so far are kept by
identity. -/
def writeTokens (leafText : α → String) (positions : Std.HashMap Nat Nat) (written : String) :
    List (Token α) → String
  | [] => written
  | .close :: rest => writeTokens leafText positions (written ++ ")") rest
  | .tree divider (leaf x) :: rest =>
    writeTokens leafText positions (written ++ divider ++ leafText x) rest
  | .tree divider (node id op sources) :: rest =>
    match positions[id]? with
    | some k => writeTokens leafText positions (written ++ divider ++ "#" ++ toString k) rest
    | none =>
      writeTokens leafText (positions.insert id positions.size)
        (written ++ divider ++ op.text ++ "(") (sourceTokens sources ++ .close :: rest)
termination_by tokens => totalWeight Token.weight tokens
decreasing_by
  · simp only [totalWeight, Token.weight]
    omega
  · simp only [totalWeight, Token.weight, leaf.sizeOf_spec]
    omega
  · simp only [totalWeight, Token.weight, node.sizeOf_spec]
    omega
  · have := weight_sourceTokens sources
    simp only [totalWeight_append, totalWeight, Token.weight, node.sizeOf_spec]
    omega

/-- The text of a tree, given that of its leaves. -/
def text (leafText : α → String) (t : OpTree α) : String :=
  writeTokens leafText {} "" [.tree "" t]

end TensorLoom.OpTree
