import TensorLoom.Layout.Tracker

/-!
# Address expressions

Generated code computes buffer positions itself, so a tracker is also written as an integer
expression over the names of the indices. The expressions are those that C reads: products by a
stride, sums, and quotients and remainders by a constant, with every sum and every division in
brackets, so that no operator meets one of another precedence without them.

* `View.address` is the symbolic side of `View.index`: the offset of a view and the conditions
  under which its mask admits the index.
* `Tracker.address` is the symbolic side of `Tracker.index`: between two views the flat offset is
  split along the shape below, `IndexExpr.coordinates` standing for `Shape.unravel`.
-/

namespace TensorLoom

/-- An integer expression over the names of indices. -/
inductive IndexExpr where
  | name (text : String)
  | literal (n : Int)
  | scaled (e : IndexExpr) (stride : Int)
  | sum (a b : IndexExpr)
  | group (e : IndexExpr)
  | quotient (e : IndexExpr) (divisor : Nat)
  | remainder (e : IndexExpr) (divisor : Nat)
deriving DecidableEq, Repr

namespace IndexExpr

/-- The expression as C reads it. -/
def text : IndexExpr → String
  | name s => s
  | literal n => toString n
  | scaled e stride => e.text ++ "*" ++ toString stride
  | sum a b => a.text ++ "+" ++ b.text
  | group e => "(" ++ e.text ++ ")"
  | quotient e divisor => "(" ++ e.text ++ "/" ++ toString divisor ++ ")"
  | remainder e divisor => "(" ++ e.text ++ "%" ++ toString divisor ++ ")"

/-- The sum of some terms, of which there is at least one. -/
def sumOf (first : IndexExpr) (rest : List IndexExpr) : IndexExpr :=
  rest.foldl sum first

/-- A flat offset split along a shape, with the number of elements spanned. A unit dimension has
coordinate 0, no division is needed where nothing is spanned yet, and the outermost coordinate needs
no remainder, since the offset does not leave the shape. -/
def coordinatesAndSpan (offset : IndexExpr) (outermost : Bool) :
    List Nat → Checked (List IndexExpr × Nat)
  | [] => .ok ([], 1)
  | dim :: inner => do
    let (rest, span) ← coordinatesAndSpan offset false inner
    let part := if span = 1 then offset else quotient offset span
    let coordinate :=
      if dim = 1 then literal 0 else if outermost then part else remainder part dim
    pure (coordinate :: rest, ← Word.mul span dim)

/-- The coordinates in a shape of a flat offset inside it. -/
def coordinates (offset : IndexExpr) (shape : List Nat) : Checked (List IndexExpr) :=
  Prod.fst <$> coordinatesAndSpan offset true shape

end IndexExpr

/-- A condition under which a mask admits an index. -/
inductive Condition where
  /-- The bounds are empty. -/
  | never
  | atLeast (e : IndexExpr) (low : Nat)
  | lessThan (e : IndexExpr) (high : Nat)
deriving DecidableEq, Repr

namespace Condition

/-- The condition as C reads it. -/
def text : Condition → String
  | never => "0"
  | atLeast e low => "(" ++ e.text ++ ">=" ++ toString low ++ ")"
  | lessThan e high => "(" ++ e.text ++ "<" ++ toString high ++ ")"

end Condition

/-- An address in a buffer and the conditions under which it may be read. -/
structure Address where
  position : IndexExpr
  conditions : List Condition
deriving DecidableEq, Repr

/-- The conditions that the bounds of one axis put on an index; a bound at the end of the axis puts
none. -/
def Axis.conditions (a : Axis) (e : IndexExpr) : List Condition :=
  if a.high ≤ a.low then [.never]
  else
    (if 0 < a.low then [.atLeast e a.low] else []) ++
      (if a.high < a.size then [.lessThan e a.high] else [])

/-- The term of one axis in the offset. An axis of stride 0 has none. -/
def Axis.term (a : Axis) (e : IndexExpr) : Option IndexExpr :=
  if a.stride = 0 then none
  else if a.stride = 1 then some e
  else some (.scaled e a.stride)

/-- The offset of a view for symbolic indices. The constant part is written if it is not 0 or if
nothing else is. -/
def View.address (v : View) (idx : List IndexExpr) : Address :=
  let terms := (idx.zip v.axes).filterMap fun (e, a) => a.term e
  let position := match terms with
    | [] => .literal v.offset
    | first :: rest =>
      .sumOf first (if v.offset = 0 then rest else rest ++ [.literal v.offset])
  { position := .group position
    conditions := if v.isMasked then (idx.zip v.axes).flatMap fun (e, a) => a.conditions e else [] }

/-- The address of symbolic indices sent down a stack of views. -/
def Tracker.addressFrom (idx : List IndexExpr) (top : View) : List View → Checked Address
  | [] => pure (top.address idx)
  | next :: below => do
    let here := top.address idx
    let lower ← addressFrom (← here.position.coordinates next.shape) next below
    pure { lower with conditions := here.conditions ++ lower.conditions }

/-- The address in the buffer of symbolic indices. Where a condition fails, zero is read. -/
def Tracker.address (t : Tracker) (idx : List IndexExpr) : Checked Address :=
  addressFrom idx t.top t.below

end TensorLoom
